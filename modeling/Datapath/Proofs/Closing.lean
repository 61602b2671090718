import Datapath.Proofs.Tracked

/-!
# Closing a region

An operation that closes a region and is started within it leaves the region: what it drives lies
outside. The region goes on only through an operation that takes data of it and that no region starts.
-/

namespace Datapath.Region

open List

theorem mem_running_closed {role : Tracker.Role} (closed : i ∈ role.closed) :
    i ∈ role.running ↔ role.initial = [] ∧ role.opened = [] ∧ i ∈ role.data := by
  have none : (addIds role.initial role.opened).isEmpty = true ↔ role.initial = [] ∧ role.opened = [] := by
    simp only [List.isEmpty_iff, List.eq_nil_iff_forall_not_mem, mem_addIds, not_or, forall_and]
  unfold Tracker.Role.running
  dsimp only
  rw [← and_assoc, ← none]
  split
  next free => rw [and_iff_right free]
  next held =>
    refine iff_of_false (fun hi => ?_) fun hi => held hi.1
    simpa [closed] using (mem_filter.mp hi).2

section
variable {d e : Design}

theorem Signalled.wellFormed (h : Signalled d e who) (hd : WellFormed d) : WellFormed e := by
  have ids : Indexed e.regions Region.id := fun i q hq => by
    obtain ⟨p, hp, marked⟩ := h.back hq
    exact marked.id.trans (hd.regionIds i p hp)
  rw [h.same]
  exact { hd with regionIds := ids }

theorem signalled_register (t : Tracker) (c : OpId) :
    Along (fun d e => ∃ who, Signalled d e who) (t.register c) := by
  have chains : Chains fun d e => ∃ who, Signalled d e who :=
    ⟨fun d => ⟨_, .refl d⟩, fun ⟨_, h⟩ ⟨_, h'⟩ => ⟨_, h.trans h'⟩⟩
  refine chains.register ⟨fun {d _ e} h => ?_⟩ t c
  obtain ⟨p, hp, -⟩ := bind_ok.mp h
  obtain ⟨e', h', signalled⟩ := changeRegion_signals (require_ok.mp hp)
  cases h.symm.trans h'
  exact ⟨_, signalled⟩

/-- A tracker that any operations of `d` have been registered with, in any order. -/
structure Underway (d : Design) (regions : List Int) (t : Tracker) (e : Design) : Prop where
  tracks : t.regions = regions
  known : t.Known e
  signals : ∃ who, Signalled d e who

theorem Underway.register (h : Underway d regions t e) (hd : WellFormed d) (hc : d.op? c = some o) :
    ∃ t' e', t.register c e = .ok (t', e') ∧ Underway d regions t' e' := by
  obtain ⟨tracks, known, who, signals⟩ := h
  have hc' : e.op? c = some o := by
    rw [signals.same]
    exact hc
  obtain ⟨t', e', ran, known'⟩ := known.register (signals.wellFormed hd) hc'
  obtain ⟨who', signals'⟩ := (signalled_register t c).run ran
  obtain ⟨-, -, -, -, same, -⟩ := register_ok ran
  exact ⟨t', e', ran, same.trans tracks, known', _, signals.trans signals'⟩

theorem Underway.registerAll (h : Underway d regions t e) (hd : WellFormed d)
    (ops : ∀ c ∈ ids, ∃ o, d.op? c = some o) :
    ∃ t' e', t.registerAll ids e = .ok (t', e') ∧ Underway d regions t' e' := by
  induction ids generalizing t e with
  | nil => exact ⟨t, e, rfl, h⟩
  | cons c ids ih =>
    obtain ⟨o, hc⟩ := ops c mem_cons_self
    obtain ⟨t1, e1, h1, next⟩ := h.register hd hc
    obtain ⟨t', e', h', last⟩ := ih next fun k hk => ops k (mem_cons_of_mem _ hk)
    exact ⟨t', e', build_bind_ok.mpr ⟨t1, e1, h1, h'⟩, last⟩

/-- A region that an operation closes reaches a port that the operation drives only if no region starts the
operation, it opens none, and it takes data of the region that it closes. What the operation has to do with the
regions is read off the drivers, if it comes after them. -/
theorem closing_leaves_controlled (hd : WellFormed d) (mod : OpId) (regions : List Int) {done : List OpId}
    (ops : ∀ k ∈ done, ∃ o, d.op? k = some o) (hc : d.op? c = some o) (closes : Closes d regions c i) :
    ∃ t e role t' e', ({ mod, regions } : Tracker).registerAll done d = .ok (t, e) ∧ t.roleOf e o = .ok role ∧
      t.register c e = .ok (t', e') ∧
      (∀ port, i ∈ t'.reachedAt port ↔ port ∉ Design.allPorts o ∧
        (i ∈ t.reachedAt port ∨ Sends d c port ∧ role.initial = [] ∧ role.opened = [] ∧ i ∈ role.data)) ∧
      ∀ runs, Solves d regions runs done → Follows d (done ++ [c]) → (done ++ [c]).Nodup →
        Plays d regions runs o role := by
  have fresh : Underway d regions { mod, regions } d := ⟨rfl, known_nil d mod regions, _, .refl d⟩
  obtain ⟨t, e, ran, h⟩ := fresh.registerAll hd ops
  obtain ⟨t', e', registered, -⟩ := h.register hd hc
  obtain ⟨who, signals⟩ := h.signals
  obtain ⟨o', role, ho', hrole, -, reached, -⟩ := register_ok registered
  obtain rfl : o = o' := by
    rw [signals.same] at ho'
    exact Option.some.inj (hc.symm.trans ho')
  have closed : i ∈ role.closed := by
    obtain ⟨-, -, hclosed, -⟩ := roleOf_ok hrole
    rw [hclosed, mem_addIds, mem_closed hd signals h.tracks, hd.nesting.ids c o hc]
    exact .inr closes
  have driven : ∀ port, port ∈ Tracker.drivenPorts e o ↔ Sends d c port := fun port => by
    rw [signals.same]
    exact (mem_drivenPorts hd hc : port ∈ Tracker.drivenPorts d o ↔ _)
  refine ⟨t, e, role, t', e', ran, hrole, registered, fun port => ?_, fun runs solves follows nodup => ?_⟩
  · rw [Tracker.reachedAt, reached, mem_reached, driven, mem_running_closed closed]
    rfl
  · -- registering is deterministic, so the tracker is the one that has been built in this order
    have before : Follows d done := fun start k rest split =>
      follows (show done ++ [c] = start ++ k :: (rest ++ [c]) by simp [split])
    obtain ⟨s, f, ran', reg⟩ := registered_all hd mod before (nodup_append.mp nodup).1 ops solves
    cases ran.symm.trans ran'
    have new : c ∉ done := fun there => (nodup_append.mp nodup).2.2 c there c mem_cons_self rfl
    obtain ⟨role', hrole', plays⟩ := reg.roleOf hd hc new (follows rfl)
    cases hrole.symm.trans hrole'
    exact plays

end

/-- The read that closes the region is started within it, so the output buffer that it starts is outside. -/
theorem between_read_leaves : ∃ d o t e t' e', runAll betweenCommands { name := "x" } = some d ∧ d.op? 9 = some o ∧
    Closes d [0] 9 0 ∧ ({ mod := 3, regions := [0] } : Tracker).registerAll [4, 6, 7, 8] d = .ok (t, e) ∧
    0 ∈ t.reachedAt o.go ∧ t.register 9 e = .ok (t', e') ∧ 0 ∉ t'.reachedAt 5 := by
  obtain ⟨d, hd, o, ho, ⟨p, hp, ends⟩, ops, t, e, ran, starts, out, role, hrole, started⟩ :
      ∃ d, runAll betweenCommands { name := "x" } = some d ∧ ∃ o, d.op? 9 = some o ∧
      (∃ p, at? d.regions 0 = some p ∧ p.finish.critical = 9) ∧ (∀ k ∈ [4, 6, 7, 8], (d.op? k).isSome = true) ∧
      ∃ t e, ({ mod := 3, regions := [0] } : Tracker).registerAll [4, 6, 7, 8] d = .ok (t, e) ∧
      0 ∈ t.reachedAt o.go ∧ t.reachedAt 5 = [] ∧ ∃ role, t.roleOf e o = .ok role ∧ role.initial ≠ [] := by
    set_option synthInstance.maxSize 100000 in decide +kernel
  simp only [Option.isSome_iff_exists] at ops
  have closes : Closes d [0] 9 0 := ⟨mem_cons_self, p, hp, ends⟩
  obtain ⟨t₁, e₁, role', t', e', ran', hrole', registered, left, -⟩ :=
    closing_leaves_controlled ((Built.empty "x").runAll hd).wellFormed 3 [0] ops ho closes
  cases ran.symm.trans ran'
  cases hrole.symm.trans hrole'
  refine ⟨d, o, t, e, t', e', hd, ho, closes, ran, starts, registered, fun there => ?_⟩
  rcases ((left 5).mp there).2 with before | ⟨-, free, -⟩
  · rw [out] at before
    cases before
  · exact started free

/-- A memory is read, and the value that was read is written to it as soon as it is there. A third operation starts
after the write. -/
def handedCommands : List Command :=
  [.newResource .memory "x" false, .newTask "t" 0 0 .zero true, .newAccess .memoryRead 3 "a" 0 .one,
   .newAccess .memoryWrite 3 "b" 0 .one, .newPrimitive .op 3 "c" 0 1 .one, .newPrimitive .op 3 "e" 1 0 .one,
   .start 6 2, .connect 7 5 9, .start 8 6, .connect 9 8 13, .finish 3 .done 9, .trackStalls]

theorem write_hands_region_on : ∃ d t e t' e', runAll handedCommands { name := "x" } = some d ∧ Closes d [0] 7 0 ∧
    ({ mod := 3, regions := [0] } : Tracker).registerAll [4, 6] d = .ok (t, e) ∧ t.register 7 e = .ok (t', e') ∧
    Sends d 7 11 ∧ 0 ∉ t.reachedAt 11 ∧ 0 ∈ t'.reachedAt 11 := by
  obtain ⟨d, hd, ⟨p, hp, ends⟩, ⟨v, hv, target, source⟩, t, e, ran, t', e', registered, before, after⟩ :
      ∃ d, runAll handedCommands { name := "x" } = some d ∧
      (∃ p, at? d.regions 0 = some p ∧ p.finish.critical = 7) ∧
      (∃ v, d.dep? 4 = some v ∧ v.target = 11 ∧ d.busOwner? v.source = some 7) ∧ ∃ t e,
      ({ mod := 3, regions := [0] } : Tracker).registerAll [4, 6] d = .ok (t, e) ∧ ∃ t' e',
      t.register 7 e = .ok (t', e') ∧ 0 ∉ t.reachedAt 11 ∧ 0 ∈ t'.reachedAt 11 := by
    set_option synthInstance.maxSize 100000 in decide +kernel
  exact ⟨d, t, e, t', e', hd, ⟨mem_cons_self, p, hp, ends⟩, ran, registered, ⟨4, v, hv, target, source⟩, before,
    after⟩

end Datapath.Region
