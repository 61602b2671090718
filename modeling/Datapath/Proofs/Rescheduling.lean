import Datapath.Proofs.Outline
import Datapath.Proofs.ScheduleFrame

/-!
# Scheduling again

Under the policy that fixes nothing, the first run leaves the outline of the design as balancing made it,
as long as only the feedback path reads the registers of loops. So every analysis of a second run finds
what it found in the first one.
-/

namespace Datapath

variable {α : Type} {f : Design}

/-- Only the feedback path reads what the registers directly inside loops hold. -/
def FedBack (d : Design) : Prop :=
  ∀ ⦃i v⦄, d.dep? i = some v → IsRegisterOutput d v.source → ∃ e, d.entryAt? v.entry = some e ∧ e.feedback = true

/-! ## The outline along the passes -/

theorem array_ext {ys : Array α} (h : ∀ i, at? xs i = at? ys i) : xs = ys := by
  apply Array.ext_getElem?
  intro n
  simpa [at?] using h n

theorem map_of_view {β : Type} {xs ys : Array α} {f : α → β} (h : view ys f = view xs f) : ys.map f = xs.map f := by
  apply array_ext
  intro i
  rw [at?_map, at?_map]
  exact congrFun h i

section
variable {d e d' : Design}

namespace Loop

section
variable (h : Moved d d') (hd' : WellFormed d')
include h hd'

theorem Moved.entries_eq : d'.entries = d.entries := by
  apply array_ext
  intro i
  obtain ⟨more, new, hi⟩ := h.entries i
  cases he : d.entryAt? i with
  | none => rw [show at? d'.entries i = none by rw [← Design.entryAt?, hi, he]; rfl, ← he]; rfl
  | some n =>
    rw [he] at hi
    have none : more = [] := by
      refine List.eq_nil_iff_forall_not_mem.mpr fun j hj => ?_
      obtain ⟨v, hv, -⟩ := hd'.deps.holds hi j (List.mem_append_right _ hj)
      have := (at?_lt hv).2
      have := new j hj
      have := h.count
      omega
    rw [show at? d.entries i = some n from he, show at? d'.entries i = _ from hi, none]
    simp

theorem Moved.fedBack (fed : FedBack d) : FedBack d' := by
  intro i w hw register
  obtain ⟨lo, hi⟩ := at?_lt hw
  obtain ⟨v, hv⟩ : ∃ v, d.dep? i = some v := at?_of_lt lo (h.count ▸ hi)
  obtain ⟨s, hs, same⟩ := h.deps hv
  rw [hw] at hs
  cases hs
  have held : IsRegisterOutput d v.source := by
    by_contra held
    rw [same held] at register
    exact held (h.registerOutput register)
  have path := fed hv held
  unfold Design.entryAt?
  rw [h.entries_eq hd']
  exact path

theorem Moved.outline (fed : FedBack d) (name : d'.name = d.name)
    (resources : d'.resources = d.resources) : d'.outline = d.outline := by
  have entries := h.entries_eq hd'
  have deps : d'.deps.map d'.cut = d.deps.map d.cut := by
    apply array_ext
    intro i
    rw [at?_map, at?_map]
    cases hv : d.dep? i with
    | none =>
      have : at? d'.deps i = none := by
        cases hw : at? d'.deps i with
        | none => rfl
        | some w =>
          obtain ⟨lo, hi⟩ := at?_lt hw
          obtain ⟨v, hv'⟩ : ∃ v, d.dep? i = some v := at?_of_lt lo (h.count ▸ hi)
          rw [hv] at hv'
          cases hv'
      rw [this, show at? d.deps i = none from hv]
      rfl
    | some v =>
      obtain ⟨s, hs, same⟩ := h.deps hv
      rw [show at? d.deps i = some v from hv, show at? d'.deps i = _ from hs]
      have cut : d'.cut { v with source := s } = d.cut v := by
        have entry : d'.entryAt? v.entry = d.entryAt? v.entry := by rw [Design.entryAt?, entries]; rfl
        unfold Design.cut
        by_cases held : IsRegisterOutput d v.source
        · obtain ⟨n, hn, path⟩ := fed hv held
          rw [entry, hn, Option.any_some, if_pos path, if_pos path]
        · rw [entry, same held]
      exact congrArg some cut
  unfold Design.outline
  rw [name, resources, h.ports, h.exits, entries, deps, map_of_view (still_of_bare h.ops), map_of_view h.buses]

end

end Loop

/-- Nothing but dependencies, their readers and the need for registers may change, and no loop comes to need
registers. -/
structure Sparing (d d' : Design) : Prop where
  name : d'.name = d.name
  resources : d'.resources = d.resources
  flops : ∀ {i q}, d'.op? i = some q → q.flopNeeded = true → ∃ p, d.op? i = some p ∧ p.flopNeeded = true

theorem Sparing.bypasses : Bypasses Sparing where
  refl _ := ⟨rfl, rfl, fun h hf => ⟨_, h, hf⟩⟩
  trans h h' := by
    refine ⟨h'.name.trans h.name, h'.resources.trans h.resources, fun hq hf => ?_⟩
    obtain ⟨p, hp, hf⟩ := h'.flops hq hf
    exact h.flops hp hf
  depend := ⟨fun h => by
    obtain ⟨-, -, _, _, _, -, -, -, -, rfl⟩ := addDependency_ok h
    exact ⟨rfl, rfl, fun hq hf => ⟨_, hq, hf⟩⟩⟩
  reroute := ⟨fun h => by
    obtain ⟨_, _, _, -, -, -, rfl⟩ := relocate_ok h
    exact ⟨rfl, rfl, fun hq hf => ⟨_, hq, hf⟩⟩⟩
  release := ⟨fun h => by
    obtain ⟨-, rfl⟩ := changeOp_ok h
    refine ⟨rfl, rfl, fun {i q} hq hf => ?_⟩
    rw [Design.op?, at?_editAt] at hq
    split at hq
    · obtain ⟨p, -, rfl⟩ := Option.map_eq_some_iff.mp hq
      cases hf
    · exact ⟨q, hq, hf⟩⟩

theorem outline_reset (d : Design) : (Region.reset d).outline = d.outline := by
  unfold Design.outline Region.reset
  simp only [Array.map_map]
  rfl

/-! ## Loop registers -/

namespace Loop

theorem removeRegisters_releases (h : removeRegisters l d = .ok (u, d'))
    (hq : d'.op? l = some q) : q.flopNeeded = false := by
  obtain ⟨lp, hlp, h⟩ := ask_bind_ok.mp h
  obtain ⟨_, e, he, h⟩ := build_bind_ok.mp h
  have rest : Sparing e d' := (Sparing.bypasses.bypassAll lp.children).run h
  cases hf : q.flopNeeded with
  | false => rfl
  | true =>
    obtain ⟨p, hp, hf⟩ := rest.flops hq hf
    obtain ⟨-, rfl⟩ := changeOp_ok he
    rw [Design.op?, at?_editAt, if_pos rfl] at hp
    obtain ⟨p, -, rfl⟩ := Option.map_eq_some_iff.mp hp
    cases hf

theorem removeFrom_none (policy : o.policy = .fixNone) :
    (removeFrom o l).run d = .ok (.ok none, d') ↔ d' = d ∧ ∃ lp report, d.op? l = some lp ∧
      (analyze d lp.body o.failFast).run = .ok (.ok report) ∧ report.removable = false := by
  simp only [removeFrom, step_bind_ok, look_ok, passQuery_ok, decideOn_eq (.inr policy)]
  constructor
  · rintro ⟨lp, e, ⟨hl, rfl⟩, report, f, ⟨hr, rfl⟩, h⟩
    split at h
    · obtain ⟨_, _, -, h⟩ := step_bind_ok.mp h
      cases (step_pure_ok.mp h).1
    next kept =>
      cases h
      exact ⟨rfl, lp, report, op_ok hl, hr, by simpa using kept⟩
  · rintro ⟨rfl, lp, report, hl, hr, kept⟩
    exact ⟨lp, d', ⟨require_ok.mpr hl, rfl⟩, report, d', ⟨hr, rfl⟩, by rw [kept]; rfl⟩

theorem analyze_congr (we : WellFormed e) (wf : WellFormed f) (same : f.outline = e.outline) (body : OpId)
    (failFast : Bool) : analyze f body failFast = analyze e body failFast := by
  rw [← outline_analyze wf, same, outline_analyze we]

theorem op_congr (same : f.outline = e.outline) (hp : e.op? i = some p) :
    ∃ flopNeeded stalls, f.op? i = some { p with flopNeeded, stalls } := by
  have still : (f.op? i).map Operation.still = some p.still := by
    rw [← outline_op?, same, outline_op?, hp]
    rfl
  obtain ⟨q, hq, e⟩ := Option.map_eq_some_iff.mp still
  exact ⟨_, _, hq.trans (congrArg some (Operation.of_still e))⟩

theorem removeFrom_some (h : (removeFrom o l).run d = .ok (.ok (some count), d'))
    (hq : d'.op? l = some q) : q.flopNeeded = false := by
  rcases removeFrom_ok h with ⟨h, -⟩ | ⟨n, -, decides⟩
  · cases h
  cases decides with
  | clean _ _ _ h => exact removeRegisters_releases h hq
  | delayed _ _ _ _ _ _ _ _ h => exact removeRegisters_releases h hq

section
variable {o : Options} (policy : o.policy = .fixNone)
include policy

theorem removeNext_again (we : WellFormed e) (wf : WellFormed f)
    (same : f.outline = e.outline) {e' : Design} (h : (removeNext o r l).run e = .ok (.ok r', e'))
    (flops : ∀ {q}, f.op? l = some q → q.flopNeeded = true → ∃ p, e'.op? l = some p ∧ p.flopNeeded = true)
    (q : Removal) : (removeNext o q l).run f = .ok (.ok q, f) := by
  have spared := (Sparing.bypasses.removeNext o r l).run h
  obtain ⟨carries, hc, h⟩ := look_bind_run.mp h
  obtain ⟨lp, hlp, hc⟩ := bind_ok.mp hc
  have hlp : e.op? l = some lp := op_ok hlp
  obtain ⟨need, stalls, hlp'⟩ := op_congr same hlp
  refine look_bind_run.mpr ?_
  cases need with
  | false =>
    refine ⟨false, bind_ok.mpr ⟨_, require_ok.mpr hlp', ?_⟩, rfl⟩
    simp only [Bool.not_false, Bool.or_true]
    rfl
  | true =>
    -- it needed its registers all the time
    obtain ⟨p, hp, need⟩ := flops hlp' rfl
    have needed : lp.flopNeeded = true := by
      obtain ⟨p, hp, need⟩ := spared.flops hp need
      rw [hlp] at hp
      cases hp
      exact need
    have carries' : carriesFlop f l = .ok carries := by
      refine bind_ok.mpr ⟨_, require_ok.mpr hlp', ?_⟩
      rw [needed] at hc
      rw [← hc, ← outline_isIterative, same, outline_isIterative]
    cases carries with
    | false => exact ⟨false, carries', rfl⟩
    | true =>
      obtain ⟨count, e1, hcount, h⟩ := step_bind_ok.mp h
      cases count with
      | some count =>
        cases h
        rw [removeFrom_some hcount hp] at need
        cases need
      | none =>
        obtain ⟨rfl, lp1, report, hlp1, hr, kept⟩ := (removeFrom_none policy).mp hcount
        rw [hlp] at hlp1
        cases hlp1
        have again : (removeFrom o l).run f = .ok (.ok none, f) := by
          refine (removeFrom_none policy).mpr ⟨rfl, _, report, hlp', ?_, kept⟩
          rw [analyze_congr we wf same]
          exact hr
        exact ⟨true, carries', step_bind_ok.mpr ⟨none, f, again, rfl⟩⟩

theorem removeAll_again {ids : List OpId} (he : WellFormed e) (fed : FedBack e)
    (h : (ids.foldlM (removeNext o) r).run e = .ok (.ok r', d)) :
    WellFormed d ∧ d.outline = e.outline ∧ Sparing e d ∧ ∀ {f : Design}, WellFormed f → f.outline = d.outline →
      (∀ {i q}, f.op? i = some q → q.flopNeeded = true → ∃ p, d.op? i = some p ∧ p.flopNeeded = true) →
      ∀ q, (ids.foldlM (removeNext o) q).run f = .ok (.ok q, f) := by
  have still : o.delays = false := by simp [Options.delays, policy]
  induction ids generalizing e r with
  | nil =>
    cases h
    exact ⟨he, rfl, Sparing.bypasses.refl _, fun _ _ _ _ => rfl⟩
  | cons l ids ih =>
    obtain ⟨r1, e1, hstep, rest⟩ := step_bind_ok.mp h
    have spared := (Sparing.bypasses.removeNext o r l).run hstep
    obtain ⟨we, moved⟩ : WellFormed e1 ∧ Moved e e1 := by
      rcases removeNext_ok hstep with ⟨-, rfl⟩ | ⟨n, lp, -, hl, hk, decides⟩
      · exact ⟨he, .refl _⟩
      · exact decides.moved he ⟨lp, hl, hk⟩ still
    have same := moved.outline we fed spared.name spared.resources
    obtain ⟨wd, same', spared', again⟩ := ih we (moved.fedBack we fed) rest
    refine ⟨wd, same'.trans same, Sparing.bypasses.trans spared spared', fun wf hf flops q => ?_⟩
    have one := removeNext_again policy he wf (hf.trans (same'.trans same)) hstep (fun hq need => by
      obtain ⟨p, hp, need⟩ := flops hq need
      exact spared'.flops hp need) q
    exact step_bind_ok.mpr ⟨q, _, one, again wf hf flops q⟩

theorem removeFlops_again (he : WellFormed e) (fed : FedBack e) (h : (removeFlops o).run e = .ok (.ok r, d)) :
    WellFormed d ∧ d.outline = e.outline ∧ ∀ {f : Design}, WellFormed f → f.outline = d.outline →
      (∀ {i q}, f.op? i = some q → q.flopNeeded = true → ∃ p, d.op? i = some p ∧ p.flopNeeded = true) →
      (removeFlops o).run f = .ok (.ok {}, f) := by
  unfold removeFlops at h
  split at h
  · next off =>
    cases h
    refine ⟨he, rfl, fun _ _ _ => ?_⟩
    unfold removeFlops
    rw [if_pos off]
    rfl
  · next on =>
    obtain ⟨e0, e1, hg, h⟩ := step_bind_ok.mp h
    obtain ⟨he0, he1⟩ := step_get_ok.mp hg
    rw [he0, he1] at h
    obtain ⟨wd, same, -, again⟩ := removeAll_again policy he fed h
    refine ⟨wd, same, fun {f} wf hf flops => ?_⟩
    have ids : f.ops.toList.map Operation.id = e.ops.toList.map Operation.id := by
      have ops : f.ops.map Operation.still = e.ops.map Operation.still := congrArg Design.ops (hf.trans same)
      have ids := congrArg (fun ops => ops.toList.map Operation.id) ops
      simp only [Array.toList_map, List.map_map] at ids
      exact ids
    unfold removeFlops
    rw [if_neg on]
    refine step_bind_ok.mpr ⟨f, f, step_get_ok.mpr ⟨rfl, rfl⟩, ?_⟩
    rw [ids]
    exact again wf hf flops {}

end

end Loop

/-! ## Spacing -/

theorem editAt_self {xs : Array α} {x : α} (hx : at? xs i = some x) {f : α → α} (hf : f x = x) :
    editAt xs i f = xs := by
  apply array_ext
  intro j
  rw [at?_editAt]
  split
  · next e => rw [e, hx, Option.map_some, hf]
  · rfl

theorem mapM_rests {β : Type} {g : α → Pass β} {l : List α} (h : ∀ a ∈ l, ∃ b, (g a).run d = .ok (.ok b, d)) :
    ∃ bs, (l.mapM g).run d = .ok (.ok bs, d) := by
  induction l with
  | nil => exact ⟨[], rfl⟩
  | cons a l ih =>
    rw [List.forall_mem_cons] at h
    obtain ⟨b, hb⟩ := h.1
    obtain ⟨bs, hbs⟩ := ih h.2
    refine ⟨b :: bs, ?_⟩
    simp only [List.mapM_cons, step_bind_ok, step_pure_ok]
    exact ⟨b, d, hb, bs, d, hbs, rfl, rfl⟩

def Retasked (d d' : Design) : Prop := ∃ tasks, d' = { d with tasks } ∧ tasks.size = d.tasks.size

theorem Retasked.spaces : Spaces Retasked where
  refl d := ⟨d.tasks, rfl, rfl⟩
  trans := by
    rintro d e d' ⟨ts, rfl, size⟩ ⟨ts', rfl, size'⟩
    exact ⟨ts', rfl, size'.trans size⟩
  space := ⟨fun h => by
    obtain ⟨t, -, h⟩ := bind_ok.mp h
    cases h
    exact ⟨_, rfl, size_editAt ..⟩⟩

theorem Throughput.analyze_again (hd : WellFormed d) (h : analyze.run d = .ok (.ok rs, d')) (wf : WellFormed f)
    (same : f.outline = d.outline) (tasks : f.tasks = d'.tasks) : ∃ qs, analyze.run f = .ok (.ok qs, f) := by
  have rests : ∀ task ∈ f.tasks.toList, ∃ r, (record task).run f = .ok (.ok r, f) := by
    intro task hm
    have here := wf.taskIds.at?_of_mem hm
    have recorded : at? d'.tasks task.id = some task := tasks ▸ here
    obtain ⟨lo, hi⟩ := at?_lt recorded
    obtain ⟨ts, rfl, size⟩ := Retasked.spaces.analyze.run h
    obtain ⟨task0, hi0⟩ := at?_of_lt lo (size ▸ hi)
    obtain ⟨r, hr, hi'⟩ := analyze_ok hd h hi0
    rw [recorded] at hi'
    cases hi'
    -- the spacing aside, it is the same task and the same design
    have found : (analyzeTask f { task0 with goSpacing := r.spacing }).run = .ok (.ok r) := by
      rw [← hr, ← outline_analyzeTask wf, same, outline_analyzeTask hd]
      rfl
    refine ⟨r, ?_⟩
    simp only [record, step_bind_ok, within_ok, passQuery_ok, ofBuild_ok, step_pure_ok]
    refine ⟨r, f, ⟨found, rfl⟩, (), f, ?_, rfl, rfl⟩
    refine bind_ok.mpr ⟨_, require_ok.mpr here, ?_⟩
    rw [editAt_self here rfl]
    rfl
  obtain ⟨qs, hqs⟩ := mapM_rests rests
  exact ⟨qs, step_bind_ok.mpr ⟨f, f, step_get_ok.mpr ⟨rfl, rfl⟩, hqs⟩⟩

/-! ## Stalls -/

namespace Region

theorem tracks_reset : Tracks fun d d' => reset d' = reset d := by
  refine .of_regions ⟨fun _ => rfl, fun h h' => Eq.trans h' h⟩ (fun {k stalls} => ⟨fun {d _ _} h => ?_⟩) rfl
    fun {d} => ?_
  · obtain ⟨-, rfl⟩ := changeOp_ok h
    have ops : (editAt d.ops k fun o => { o with stalls }).map (fun o => { o with stalls := [] }) =
        d.ops.map fun o => { o with stalls := [] } := by
      apply array_ext
      intro i
      rw [at?_map, at?_map, at?_editAt]
      split
      · cases at? d.ops i <;> rfl
      · rfl
    unfold reset
    rw [ops]
  · unfold reset
    simp only [Array.map_map]
    rfl

theorem op_of_reset (same : reset d' = reset d) (hq : d'.op? i = some q) :
    ∃ stalls, d.op? i = some { q with stalls } := by
  have ops : (d.op? i).map (fun o => { o with stalls := [] }) = some { q with stalls := [] } := by
    have ops : at? (reset d).ops i = at? (reset d').ops i := by rw [same]
    simp only [reset, at?_map] at ops
    rw [Design.op?, ops, show at? d'.ops i = some q from hq]
    rfl
  obtain ⟨p, hp, e⟩ := Option.map_eq_some_iff.mp ops
  cases p
  cases q
  simp_all

theorem trackStalls_congr (same : reset d' = reset d) : (trackStalls).run d' = (trackStalls).run d := by
  have step : ∀ (k : PUnit → Pass Nat) e, (modify reset >>= k).run e = (k ⟨⟩).run (reset e) := fun _ _ => rfl
  unfold trackStalls
  rw [step, step, same]

end Region

/-! ## All passes -/

theorem Framed.registerOutput (h : Framed o d e) (hb : IsRegisterOutput e b) : IsRegisterOutput d b := by
  obtain ⟨l, lp, k, reg, i, x, hl, hk, hc, hr, hreg, hi, hx, hb⟩ := hb
  obtain ⟨lp0, f, s, hl0, rfl, -⟩ := h.opBack hl
  obtain ⟨reg0, f', s', hr0, rfl, -⟩ := h.opBack hr
  refine ⟨l, lp0, k, reg0, i, x, hl0, hk, hc, hr0, hreg, hi, ?_, hb⟩
  unfold Design.exit? at hx ⊢
  rwa [h.exits] at hx

theorem Framed.fedBack (h : Framed o d e) (fed : FedBack d) : FedBack e := by
  intro i w hw register
  have register := h.registerOutput register
  by_cases old : (d.deps.size : Int) ≤ i
  · exact absurd register (h.delays hw old).1.unheld
  obtain ⟨v, hv⟩ : ∃ v, d.dep? i = some v := at?_of_lt (at?_lt hw).1 (Int.not_le.mp old)
  obtain ⟨s, hs, moved⟩ := h.deps hv
  rw [hw] at hs
  cases hs
  have held : IsRegisterOutput d v.source := by
    by_cases same : s = v.source
    · exact same ▸ register
    · exact (moved same).register
  obtain ⟨n, hn, path⟩ := fed hv held
  obtain ⟨more, hn', -⟩ := h.entries hn
  exact ⟨_, hn', path⟩

/-- Under the policy that fixes nothing, a design that has been scheduled is scheduled again without an
error and without a change. The first run starts from a design that can be built, in which the registers
of loops are read on the feedback path only. -/
theorem schedule_again (hd : Built d) (policy : o.policy = .fixNone) (fed : FedBack d)
    (h : (schedule o).run d = .ok (.ok (), d')) : (schedule o).run d' = .ok (.ok (), d') := by
  have wd := ((stays_schedule hd.wellFormed hd.laid hd.shaped o).run h ⟨hd.wellFormed, .refl o d⟩).1
  obtain ⟨rs, b, h₁, h⟩ := step_bind_ok.mp h
  obtain ⟨r, c, h₂, h⟩ := step_bind_ok.mp h
  obtain ⟨ss, a, h₃, h⟩ := step_bind_ok.mp h
  obtain ⟨n, _, h₄, h⟩ := step_bind_ok.mp h
  obtain ⟨-, rfl⟩ := step_pure_ok.mp h
  rw [within_ok] at h₁ h₂ h₃ h₄
  obtain ⟨wb, frame⟩ := (stays_balance hd.wellFormed hd.laid hd.shaped).run h₁ ⟨hd.wellFormed, .refl o d⟩
  obtain ⟨wc, sameC, removeAgain⟩ := Loop.removeFlops_again policy wb (frame.fedBack fed) h₂
  -- what the last two passes leave
  obtain ⟨ts, ha, -⟩ := Retasked.spaces.analyze.run h₃
  have reset := Region.tracks_reset.trackStalls.run h₄
  have steady := Steady.chains.trans (Steady.spaces.analyze.run h₃) (Steady.tracks.trackStalls.run h₄)
  have same : d'.outline = c.outline := by
    rw [← outline_reset, reset, outline_reset, ha]
    rfl
  have flops : ∀ {i q}, d'.op? i = some q → q.flopNeeded = true → ∃ p, c.op? i = some p ∧ p.flopNeeded = true := by
    intro i q hq need
    obtain ⟨stalls, hp⟩ := Region.op_of_reset reset hq
    rw [ha] at hp
    exact ⟨_, hp, need⟩
  have tasks : (Region.reset d').tasks = (Region.reset a).tasks := congrArg Design.tasks reset
  have count : d'.deps.size = b.deps.size := by
    rw [steady.deps]
    exact Loop.removeFlops_count wb (.inr (by simp [Options.delays, policy])) h₂
  -- the passes of the second run
  obtain ⟨qs, balanceAgain, -⟩ :=
    Branch.balance_onward hd h₁ (Branch.removeFlops_onward hd h₁ h₂ steady) (Branch.spares_of_count count)
  obtain ⟨us, analyzeAgain⟩ := Throughput.analyze_again wc h₃ wd same tasks
  simp only [schedule, step_bind_ok, within_ok, step_pure_ok]
  refine ⟨qs, d', balanceAgain, {}, d', removeAgain wd same flops, us, d', analyzeAgain, n, d', ?_, trivial, rfl⟩
  rw [Region.trackStalls_congr reset]
  exact h₄

def readsBack (d : Design) : Bool :=
  d.deps.all fun v =>
    (d.entryAt? v.entry).any Entry.feedback || ((d.busOwner? v.source).bind d.op?).all (·.kind != .reg)

theorem fedBack_of_readsBack (hd : WellFormed d) (h : readsBack d = true) : FedBack d := by
  intro i v hv register
  obtain ⟨k, reg, owner, hk, kind⟩ := register.owner hd
  simp only [readsBack, Array.all_eq_true', Bool.or_eq_true] at h
  rcases h v (mem_of_at? hv) with path | plain
  · simpa only [Option.any_eq_true] using path
  · rw [owner, Option.bind_some, hk] at plain
    simp [kind] at plain

def readingCommands : List Command :=
  [.newResource .memory "m" false, .newTask "t" 1 1 .one true, .newLoop 3 "l" 1 1 .one,
   .newAccess .memoryRead 17 "r" 0 .one, .setLatency 17 .one, .finish 17 .done 21,
   .newAccess .memoryWrite 3 "w" 0 .one]

/-- The loop does without its register, and the two accesses make a region that stalls the task. -/
theorem reading_schedule_again : ∃ d d', runAll readingCommands { name := "x" } = some d ∧ FedBack d ∧
    (schedule { policy := .fixNone }).run d = .ok (.ok (), d') ∧
    ((d'.op? 6).map Operation.flopNeeded, d'.regions.size) = (some false, 1) ∧
    (schedule { policy := .fixNone }).run d' = .ok (.ok (), d') := by
  obtain ⟨d, hd, back, ⟨⟩, d', ran, result⟩ : ∃ d, runAll readingCommands { name := "x" } = some d ∧
      readsBack d = true ∧ ∃ u d', (schedule { policy := .fixNone }).run d = .ok (.ok u, d') ∧
      ((d'.op? 6).map Operation.flopNeeded, d'.regions.size) = (some false, 1) := by
    decide +kernel
  have built := (Built.empty "x").runAll hd
  have fed := fedBack_of_readsBack built.wellFormed back
  exact ⟨d, d', hd, fed, ran, result, schedule_again built rfl fed ran⟩

end

end Datapath
