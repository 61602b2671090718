import Datapath.Proofs.Delays

/-!
# What the removal of loop registers changes

The removal of registers notes which loops do without them, adds dependencies that delay, and
reroutes dependencies that start at a register of a loop. It changes nothing else.
-/

namespace Datapath

variable {d d' e : Design}

def Operation.bare (o : Operation) : Operation := { o with flopNeeded := false }

theorem op_of_bare {o : Operation} (h : view ys Operation.bare = view xs Operation.bare) (ho : at? xs i = some o) :
    ∃ b, at? ys i = some { o with flopNeeded := b } := by
  obtain ⟨q, hq, e⟩ := view_some.mp (h ▸ view_of Operation.bare ho)
  cases q
  simp only [Operation.bare] at e
  simp_all

def Bus.bare (b : Bus) : Bus := { b with dependents := [] }

/-- The bus shows what a register directly inside a loop holds. -/
def IsRegisterOutput (d : Design) (b : BusId) : Prop :=
  ∃ l lp k reg i x, d.op? l = some lp ∧ lp.kind = .loop ∧ k ∈ lp.children ∧ d.op? k = some reg ∧ reg.kind = .reg ∧
    reg.exits.head? = some i ∧ d.exit? i = some x ∧ x.buses.head? = some b

structure Rerouted (d d' : Design) : Prop where
  size : d'.ops.size = d.ops.size
  ops : view d'.ops Operation.bare = view d.ops Operation.bare
  ports : d'.ports = d.ports
  buses : view d'.buses Bus.bare = view d.buses Bus.bare
  exits : d'.exits = d.exits
  grows : d.deps.size ≤ d'.deps.size
  entries : ∀ i, ∃ more, (∀ j ∈ more, (d.deps.size : Int) ≤ j) ∧
    d'.entryAt? i = (d.entryAt? i).map fun e => { e with deps := e.deps ++ more }
  deps : ∀ {i v}, d.dep? i = some v → ∃ s, d'.dep? i = some { v with source := s } ∧
    (¬ IsRegisterOutput d v.source → s = v.source)

namespace Rerouted

theorem refl (d : Design) : Rerouted d d where
  size := rfl
  ops := rfl
  ports := rfl
  buses := rfl
  exits := rfl
  grows := Nat.le_refl _
  entries i := ⟨[], by simp, by simp⟩
  deps h := ⟨_, h, fun _ => rfl⟩

/-! ## Operations -/

section
variable (h : Rerouted d d')
include h

theorem op (hc : d.op? c = some o) : ∃ b, d'.op? c = some { o with flopNeeded := b } := op_of_bare h.ops hc

theorem opBack (hc : d'.op? c = some o) : ∃ b, d.op? c = some { o with flopNeeded := b } := op_of_bare h.ops.symm hc

theorem exit? : d'.exit? = d.exit? := by
  funext x
  simp only [Design.exit?, h.exits]

theorem nestedBack (hn : Nested d' mod c) : Nested d mod c := by
  induction hn with
  | child hm hc =>
    obtain ⟨b, hm'⟩ := h.opBack hm
    exact .child hm' hc
  | deeper _ ho hk hc ih =>
    obtain ⟨b, ho'⟩ := h.opBack ho
    exact .deeper ih ho' hk hc

theorem registerOutput (hb : IsRegisterOutput d' b) : IsRegisterOutput d b := by
  obtain ⟨l, lp, k, reg, i, x, hl, hk, hc, hr, hreg, hi, hx, hb⟩ := hb
  obtain ⟨f, hl'⟩ := h.opBack hl
  obtain ⟨g, hr'⟩ := h.opBack hr
  exact ⟨l, _, k, _, i, x, hl', hk, hc, hr', hreg, hi, h.exit? ▸ hx, hb⟩

end

theorem trans (h : Rerouted d e) (h' : Rerouted e d') : Rerouted d d' where
  size := h'.size.trans h.size
  ops := h'.ops.trans h.ops
  ports := h'.ports.trans h.ports
  buses := h'.buses.trans h.buses
  exits := h'.exits.trans h.exits
  grows := Nat.le_trans h.grows h'.grows
  entries i := by
    obtain ⟨more, new, hm⟩ := h.entries i
    obtain ⟨more', new', hm'⟩ := h'.entries i
    refine ⟨more ++ more', fun j hj => ?_, ?_⟩
    · rcases List.mem_append.mp hj with hj | hj
      · exact new j hj
      · exact Int.le_trans (Int.ofNat_le.mpr h.grows) (new' j hj)
    · rw [hm', hm, Option.map_map]
      simp only [Function.comp_def, List.append_assoc]
  deps {i v} hv := by
    obtain ⟨s, hs, same⟩ := h.deps hv
    obtain ⟨s', hs', same'⟩ := h'.deps hs
    refine ⟨s', hs', fun hn => ?_⟩
    rw [← same hn]
    exact same' fun hr => hn (same hn ▸ h.registerOutput hr)

/-! ## Steps -/

theorem changeOp (h : changeOp l (fun o => { o with flopNeeded := false }) d = .ok (u, d')) : Rerouted d d' := by
  obtain ⟨-, rfl⟩ := changeOp_ok h
  exact { refl d with
    size := size_editAt ..
    ops := view_edit_same _ _ fun _ => rfl
    deps := fun h => ⟨_, h, fun _ => rfl⟩ }

theorem relocate (h : Rerouted d e) (hi : ∀ {v}, d.dep? i = some v → IsRegisterOutput d v.source)
    (hr : relocate i s e = .ok (u, d')) : Rerouted d d' := by
  obtain ⟨v, b, c, hv, hb, hc, rfl⟩ := relocate_ok hr
  refine { h with buses := ?_, grows := ?_, deps := fun {j w} hw => ?_ }
  · refine (view_edit_same _ _ ?_).trans ((view_edit_same _ _ ?_).trans h.buses)
    · exact fun _ => rfl
    · exact fun _ => rfl
  · simpa only [size_editAt] using h.grows
  · obtain ⟨s', hs', same⟩ := h.deps hw
    simp only [Design.dep?, at?_editAt]
    split
    next hj =>
      rw [show at? e.deps j = some { w with source := s' } from hs']
      exact ⟨s, rfl, fun hn => absurd (hi (hj ▸ hw)) hn⟩
    next => exact ⟨s', hs', same⟩

theorem addDependency (h : addDependency entry kind source target clocks d = .ok (i, d')) : Rerouted d d' := by
  obtain ⟨rfl, -, e, p, b, he, hp, hb, hown, rfl⟩ := addDependency_ok h
  refine { refl d with buses := ?_, grows := ?_, entries := fun k => ?_, deps := fun {j v} hv => ?_ }
  · exact view_edit_same _ _ fun _ => rfl
  · simp
  · simp only [Design.entryAt?, at?_editAt]
    by_cases hk : k = entry
    · exact ⟨[(d.deps.size : Int)], by simp, by rw [if_pos hk]⟩
    · exact ⟨[], by simp, by simp [hk]⟩
  · refine ⟨v.source, ?_, fun _ => rfl⟩
    have := (at?_lt hv).2
    rw [Design.dep?, at?_push, if_neg (by omega)]
    exact hv

end Rerouted

theorem Rerouted.balances : Balances Rerouted where
  refl := .refl
  trans := .trans
  depend := ⟨.addDependency⟩

namespace Loop

/-! ## Registers -/

structure Moved (d d' : Design) : Prop extends Rerouted d d' where
  count : d'.deps.size = d.deps.size

theorem Moved.refl (d : Design) : Moved d d := ⟨.refl d, rfl⟩

theorem Moved.trans (h : Moved d e) (h' : Moved e d') : Moved d d' :=
  ⟨h.toRerouted.trans h'.toRerouted, h'.count.trans h.count⟩

theorem relocateAll_moved {readers : List DepId} {u : PUnit} (we : WellFormed e)
    (he : Moved d e) (hr : ∀ i ∈ readers, ∀ {v}, d.dep? i = some v → IsRegisterOutput d v.source)
    (h : readers.forM (relocate · s) e = .ok (u, d')) : WellFormed d' ∧ Moved d d' := by
  induction readers generalizing e with
  | nil =>
    cases h
    exact ⟨we, he⟩
  | cons i readers ih =>
    obtain ⟨_, f, hi, h⟩ := build_bind_ok.mp h
    rw [List.forall_mem_cons] at hr
    have count : f.deps.size = d.deps.size := by
      obtain ⟨v, b, c, -, -, -, rfl⟩ := relocate_ok hi
      rw [← he.count]
      exact size_editAt ..
    exact ih (we.relocate hi) ⟨he.toRerouted.relocate hr.1 hi, count⟩ hr.2 h

theorem bypass_moved {lp : Operation} (hd : WellFormed d) (hl : d.op? l = some lp)
    (hk : lp.kind = .loop) (hc : c ∈ lp.children) (hr : d.op? c = some reg) (hreg : reg.kind = .reg)
    (h : bypass reg d = .ok (u, d')) : WellFormed d' ∧ Moved d d' := by
  simp only [bypass, build_bind_ok, ask_ok] at h
  obtain ⟨deps, e, ⟨-, he⟩, h⟩ := h
  rw [he] at h
  rcases deps with _ | ⟨v, _ | ⟨w, rest⟩⟩
  · cases h
    exact ⟨hd, .refl _⟩
  · simp only [build_bind_ok, ask_ok, bind_ok] at h
    obtain ⟨out, f, ⟨⟨i, hi, x, hx, hout⟩, hf⟩, readers, g, ⟨⟨b, hb, hpure⟩, hg⟩, h⟩ := h
    rw [hf] at hb hg
    rw [hg] at h
    cases hpure
    have output : IsRegisterOutput d out :=
      ⟨l, lp, c, reg, i, x, hl, hk, hc, hr, hreg, require_ok.mp hi, exit_ok hx, require_ok.mp hout⟩
    refine relocateAll_moved hd (.refl d) (fun i hi v hv => ?_) h
    obtain ⟨w, hw, hs⟩ := hd.readers.holds (bus_ok hb) i hi
    rw [show d.dep? i = some w from hw] at hv; cases hv
    rw [Option.some.inj hs]
    exact output
  · cases h
    exact ⟨hd, .refl _⟩

theorem bypassAll_moved {lp : Operation} (we : WellFormed e) (he : Moved d e)
    (hl : d.op? l = some lp) (hk : lp.kind = .loop) {cs : List OpId} (hcs : ∀ c ∈ cs, c ∈ lp.children) {u : PUnit}
    (h : (cs.forM fun c => do
      let o ← ask (·.op c)
      if o.kind == Kind.reg then bypass o) e = .ok (u, d')) : WellFormed d' ∧ Moved d d' := by
  induction cs generalizing e with
  | nil =>
    cases h
    exact ⟨we, he⟩
  | cons c cs ih =>
    rw [List.forall_mem_cons] at hcs
    obtain ⟨_, f, hc, rest⟩ := build_bind_ok.mp h
    obtain ⟨o, g, ho, hb⟩ := build_bind_ok.mp hc
    obtain ⟨ho, hg⟩ := ask_ok.mp ho
    rw [hg] at hb
    have step : WellFormed f ∧ Moved e f := by
      split at hb
      next hreg =>
        obtain ⟨b, hl'⟩ := he.op hl
        exact bypass_moved we hl' hk hcs.1 (op_ok ho) (beq_iff_eq.mp hreg) hb
      next =>
        cases hb
        exact ⟨we, .refl _⟩
    exact ih step.1 (he.trans step.2) hcs.2 rest

theorem removeRegisters_moved {lp : Operation} (hd : WellFormed d) (hl : d.op? l = some lp)
    (hk : lp.kind = .loop) (h : removeRegisters l d = .ok (u, d')) : WellFormed d' ∧ Moved d d' := by
  simp only [removeRegisters, build_bind_ok, ask_ok] at h
  obtain ⟨lp', e, ⟨hlp, he⟩, _, f, hf, h⟩ := h
  rw [he] at hf
  rw [show d.op? l = some lp' from op_ok hlp] at hl; cases hl
  have kept : Keeps 0 (changeOp l fun o => { o with flopNeeded := false }) := keeps_changeOp l fun _ => rfl
  have wf := (kept.run hd (Int.natCast_nonneg _) hf).1
  have moved : Moved d f := ⟨.changeOp hf, by obtain ⟨-, rfl⟩ := changeOp_ok hf; rfl⟩
  exact bypassAll_moved wf moved (op_ok hlp) hk (fun _ h => h) h

/-! ## One loop -/

inductive Decides (o : Options) (l : OpId) (d d' : Design) : Nat → Prop where
  -- nothing stands in the way
  | clean {lp : Operation} {report : FlopReport} (hl : d.op? l = some lp)
      (hr : (analyze d lp.body o.failFast).run = .ok (.ok report)) (hclean : report.removable = true)
      (h : removeRegisters l d = .ok ((), d')) : Decides o l d d' 0
  -- the accesses that stand in the way are delayed
  | delayed {lp : Operation} {report : FlopReport} {cs : ConflictSet} {count : Nat} {e : Design}
      (hl : d.op? l = some lp) (hr : (analyze d lp.body o.failFast).run = .ok (.ok report))
      (hana : report.analyzable = true) (hne : report.conflicts ≠ []) (hf : o.failFast = false)
      (hcs : ConflictSet.make o.policy report.all = .ok cs) (hres : cs.resolves = true)
      (hdel : cs.resolve (identity d) d = .ok ((count, none), e)) (h : removeRegisters l e = .ok ((), d')) :
      Decides o l d d' count

theorem decideOn_eq (h : o.failFast = true ∨ o.policy = .fixNone) (loop : OpId) (report : FlopReport) :
    decideOn o loop report =
      if report.removable then (do Pass.ofBuild (removeRegisters loop); return some 0) else return none := by
  unfold decideOn FlopReport.removable
  cases report.needed <;> cases report.analyzable <;> cases report.conflicts.isEmpty
  all_goals simp
  -- a conflict was found
  intro full
  rcases h with h | h
  · cases h.symm.trans full
  · rw [h]
    rfl

theorem removeFrom_ok (h : (removeFrom o l).run d = .ok (.ok count, d')) :
    count = none ∧ d' = d ∨ ∃ n, count = some n ∧ Decides o l d d' n := by
  simp only [removeFrom, step_bind_ok, look_ok, passQuery_ok] at h
  obtain ⟨lp, e, ⟨hl, he⟩, report, f, ⟨hr, hf⟩, h⟩ := h
  rw [he] at hr hf
  rw [hf] at h
  unfold decideOn at h
  split at h
  next =>
    cases h
    exact .inl ⟨rfl, rfl⟩
  next hneed =>
    split at h
    next hempty =>
      simp only [step_bind_ok, ofBuild_ok] at h
      obtain ⟨_, g, hg, rfl, rfl⟩ := h
      refine .inr ⟨0, rfl, .clean (op_ok hl) hr ?_ hg⟩
      simp only [FlopReport.removable]
      simp_all
    next hne =>
      split at h
      next =>
        cases h
        exact .inl ⟨rfl, rfl⟩
      next hfast =>
        simp only [step_bind_ok, Pass.ofExcept, passQuery_ok] at h
        obtain ⟨cs, g, ⟨hcs, hg⟩, h⟩ := h
        rw [hg] at h
        split at h
        next =>
          cases h
          exact .inl ⟨rfl, rfl⟩
        next hres =>
          simp only [step_bind_ok, step_get_ok, ofBuild_ok] at h
          obtain ⟨d1, d2, ⟨hd1, hd2⟩, ⟨n, error⟩, d3, hdel, h⟩ := h
          rw [hd1, hd2] at hdel
          cases error with
          | some e => cases h
          | none =>
            simp only [step_bind_ok, ofBuild_ok] at h
            obtain ⟨_, g, hg, rfl, rfl⟩ := h
            refine .inr ⟨n, rfl, .delayed (op_ok hl) hr ?_ ?_ ?_ ?_ ?_ hdel hg⟩
            · simp only [Bool.or_eq_true, Bool.not_eq_true', not_or, Bool.not_eq_false] at hneed
              exact hneed.2
            · simpa using hne
            · simpa using hfast
            · exact Except.ok.inj hcs
            · simpa using hres

theorem Decides.rerouted {lp : Operation} (h : Decides o l d d' n)
    (hd : WellFormed d) (hl : d.op? l = some lp) (hk : lp.kind = .loop) : WellFormed d' ∧ Rerouted d d' := by
  cases h with
  | clean _ _ _ h =>
    obtain ⟨wf, moved⟩ := removeRegisters_moved hd hl hk h
    exact ⟨wf, moved.toRerouted⟩
  | delayed _ _ _ _ _ _ _ hdel h =>
    have we := (keeps_delayAll ..).kept hd hdel
    have he := (Rerouted.balances.delayAll ..).run hdel
    obtain ⟨b, hl'⟩ := he.op hl
    obtain ⟨wf, moved⟩ := removeRegisters_moved we hl' hk h
    exact ⟨wf, he.trans moved.toRerouted⟩

/-! ## All loops -/

structure Removed (o : Options) (d d' : Design) (l : OpId) : Prop where
  decided : ∃ e f lp n, WellFormed e ∧ Rerouted d e ∧ e.op? l = some lp ∧ lp.kind = .loop ∧ Decides o l e f n ∧
    Rerouted e f ∧ Rerouted f d'

theorem carriesFlop_loop (h : carriesFlop d l = .ok true) : ∃ lp, d.op? l = some lp ∧ lp.kind = .loop := by
  simp only [carriesFlop, bind_ok] at h
  obtain ⟨lp, hl, h⟩ := h
  refine ⟨lp, op_ok hl, ?_⟩
  by_cases hk : lp.kind = .loop
  · exact hk
  · simp [hk] at h
    cases h

theorem removeNext_ok (h : (removeNext o r l).run d = .ok (.ok r', d')) :
    r' = r ∧ d' = d ∨ ∃ n lp, r' = ⟨r.removed ++ [l], r.fixed + n⟩ ∧ d.op? l = some lp ∧ lp.kind = .loop ∧
      Decides o l d d' n := by
  simp only [removeNext, step_bind_ok, look_ok] at h
  obtain ⟨b, e, ⟨hb, he⟩, h⟩ := h
  rw [he] at h
  cases b with
  | false =>
    cases h
    exact .inl ⟨rfl, rfl⟩
  | true =>
    obtain ⟨count, f, hf, h⟩ := step_bind_ok.mp h
    obtain ⟨lp, hl, hk⟩ := carriesFlop_loop hb
    rcases removeFrom_ok hf with ⟨rfl, hfd⟩ | ⟨n, rfl, decides⟩
    · cases h
      exact .inl ⟨rfl, hfd⟩
    · cases h
      exact .inr ⟨n, lp, rfl, hl, hk, decides⟩

theorem removeAll_ok {d0 : Design} {ids : List OpId} (hd : WellFormed d) (h0 : Rerouted d0 d)
    (hr : ∀ l ∈ r.removed, Removed o d0 d l) (h : (ids.foldlM (removeNext o) r).run d = .ok (.ok r', d')) :
    WellFormed d' ∧ Rerouted d0 d' ∧ ∀ l ∈ r'.removed, Removed o d0 d' l := by
  induction ids generalizing d r with
  | nil =>
    cases h
    exact ⟨hd, h0, hr⟩
  | cons id ids ih =>
    obtain ⟨r1, e, hstep, rest⟩ := step_bind_ok.mp h
    rcases removeNext_ok hstep with ⟨rfl, rfl⟩ | ⟨n, lp, rfl, hl, hk, decides⟩
    · exact ih hd h0 hr rest
    · obtain ⟨we, he⟩ := decides.rerouted hd hl hk
      refine ih we (h0.trans he) (fun k hm => ?_) rest
      rcases List.mem_append.mp hm with hm | hm
      · obtain ⟨a, b, lp', m, wa, ha, hla, hka, dec, hab, hb⟩ := (hr k hm).decided
        exact ⟨a, b, lp', m, wa, ha, hla, hka, dec, hab, hb.trans he⟩
      · obtain rfl := List.mem_singleton.mp hm
        exact ⟨d, e, lp, n, hd, h0, hl, hk, decides, he, .refl e⟩

theorem removeFlops_ok (hd : WellFormed d) (h : (removeFlops o).run d = .ok (.ok r, d')) :
    WellFormed d' ∧ Rerouted d d' ∧ ∀ l ∈ r.removed, Removed o d d' l := by
  unfold removeFlops at h
  split at h
  next =>
    cases h
    exact ⟨hd, .refl _, by simp⟩
  next =>
    obtain ⟨e, f, hg, h⟩ := step_bind_ok.mp h
    obtain ⟨he, hf⟩ := step_get_ok.mp hg
    rw [hf] at h
    exact removeAll_ok hd (.refl d) (by simp) h

end Loop

end Datapath
