import Datapath.Proofs.Commands
import Datapath.Proofs.LoopLocality
import Mathlib.Data.List.Basic

/-!
# Hazards after the removal of loop registers

Two accesses of one resource collide if one of them is in the first and the other in the last cycle of
a loop without registers. The removal does not look back: what a later step does inside the block of a
loop can make accesses collide there.
-/

namespace Datapath

open List

section
variable {d e d' : Design}

def Undelayed (d d' : Design) (mod : OpId) : Prop :=
  ∀ ⦃i v e⦄, (d.deps.size : Int) ≤ i → d'.dep? i = some v → d'.entryAt? v.entry = some e → ¬ Nested d mod e.owner

/-- No operation inside the module waits for what a register of a loop holds. -/
def Unregistered (d : Design) (mod : OpId) : Prop :=
  ∀ ⦃c o v⦄, Nested d mod c → d.op? c = some o → v ∈ Timing.forwardDeps d o → ¬ IsRegisterOutput d v.source

def Options.delays (o : Options) : Bool :=
  !o.failFast && match o.policy with
    | .fixFewest | .fixMost | .firstAlways | .lastAlways => true
    | .fixNone | .unnamed _ => false

theorem Rerouted.entry (h : Rerouted d d') (hi : d.entryAt? i = some n) :
    ∃ more, (∀ j ∈ more, (d.deps.size : Int) ≤ j) ∧ d'.entryAt? i = some { n with deps := n.deps ++ more } := by
  obtain ⟨more, new, hm⟩ := h.entries i
  exact ⟨more, new, by rw [hm, hi]; rfl⟩

theorem Undelayed.before (h : Undelayed d d' mod) (he : Rerouted e d') : Undelayed d e mod := by
  intro i v n hi hv hn
  obtain ⟨s, hs, -⟩ := he.deps hv
  obtain ⟨more, -, hm⟩ := he.entry hn
  intro hc
  exact h hi hs hm hc

theorem Undelayed.after (h : Undelayed d d' mod) (he : Rerouted d e) : Undelayed e d' mod := by
  intro i v n hi hv hn hc
  exact h (Int.le_trans (Int.ofNat_le.mpr he.grows) hi) hv hn (he.nestedBack hc)

/-! ## The flow inside a block -/

section
variable (h : Rerouted d d') (hd : WellFormed d)
include h hd

theorem Rerouted.entriesOf (hd' : WellFormed d') (hu : Undelayed d d' mod)
    (hn : Nested d mod c) (ho : d.op? c = some o) : d'.entriesOf o = d.entriesOf o := by
  refine filterMap_congr fun i hi => ?_
  obtain ⟨n, hi, hown⟩ := hd.entries.holds ho i hi
  obtain ⟨more, new, hm⟩ := h.entry hi
  -- what was added belongs to the entry
  have none : more = [] := eq_nil_iff_forall_not_mem.mpr fun j hj => by
    obtain ⟨v, hv, hentry⟩ := hd'.deps.holds hm j (mem_append_right _ hj)
    refine hu (new j hj) hv ((Option.some.inj hentry).symm ▸ hm) ?_
    exact (Option.some.inj hown).symm ▸ hn
  rw [hm, none, append_nil]
  exact hi.symm

theorem Rerouted.depsOf (hi : d.entryAt? i = some n)
    (hr : ∀ v ∈ d.depsOf n, ¬ IsRegisterOutput d v.source) : d'.depsOf n = d.depsOf n := by
  refine filterMap_congr fun j hj => ?_
  obtain ⟨v, hv, -⟩ := hd.deps.holds hi j hj
  obtain ⟨s, hs, same⟩ := h.deps hv
  rw [hs, same (hr v (mem_filterMap.mpr ⟨j, hj, hv⟩))]
  exact hv.symm

theorem Rerouted.forwardDeps (hd' : WellFormed d')
    (hu : Undelayed d d' mod) (hr : Unregistered d mod) (hn : Nested d mod c) (ho : d.op? c = some o) :
    Timing.forwardDeps d' o = Timing.forwardDeps d o := by
  unfold Timing.forwardDeps
  rw [h.entriesOf hd hd' hu hn ho]
  refine flatMap_congr fun n hm => ?_
  obtain ⟨i, -, hi⟩ := mem_filterMap.mp (mem_filter.mp hm).1
  exact h.depsOf hd hi fun v hv => hr hn ho (mem_flatMap.mpr ⟨n, hm, hv⟩)

theorem Rerouted.driven (hd' : WellFormed d') (hu : Undelayed d d' mod) (hn : Nested d mod c)
    (ho : d.op? c = some o) (hq : q.owner = c) : (d'.depsOnPort q).isEmpty = (d.depsOnPort q).isEmpty := by
  obtain ⟨f, ho'⟩ := h.op ho
  have same : d'.entriesOf o = d.entriesOf o := h.entriesOf hd hd' hu hn ho
  unfold Design.depsOnPort
  rw [hq, ho, ho']
  change ((d'.entriesOf o).flatMap _).isEmpty = ((d.entriesOf o).flatMap _).isEmpty
  rw [same, Bool.eq_iff_iff]
  simp only [List.isEmpty_iff, List.flatMap_eq_nil_iff, List.filter_eq_nil_iff]
  -- a dependency that is moved keeps its target
  refine forall₂_congr fun n hm => ?_
  obtain ⟨i, -, hi⟩ := mem_filterMap.mp hm
  constructor
  · intro none v hv
    obtain ⟨j, hj, hv⟩ := mem_filterMap.mp hv
    obtain ⟨s, hs, -⟩ := h.deps hv
    exact none { v with source := s } (mem_filterMap.mpr ⟨j, hj, hs⟩)
  · intro none v' hv'
    obtain ⟨j, hj, hv'⟩ := mem_filterMap.mp hv'
    obtain ⟨v, hv, -⟩ := hd.deps.holds hi j hj
    obtain ⟨s, hs, -⟩ := h.deps hv
    rw [hv'] at hs; cases hs
    exact none v (mem_filterMap.mpr ⟨j, hj, hv⟩)

end

theorem Unregistered.after (h : Unregistered d mod) (he : Rerouted d e) (hd : WellFormed d) (we : WellFormed e)
    (hu : Undelayed d e mod) : Unregistered e mod := by
  intro c o v hn ho hv hreg
  obtain ⟨f, ho'⟩ := he.opBack ho
  have same := he.forwardDeps hd we hu h (he.nestedBack hn) ho'
  exact h (he.nestedBack hn) ho' (same ▸ hv) (he.registerOutput hreg)

theorem Rerouted.sameInside (h : Rerouted d d') (hd : WellFormed d) (hd' : WellFormed d')
    (hu : Undelayed d d' mod) (hr : Unregistered d mod) : SameInside mod d d' where
  toRerouted := h
  forward hn ho := h.forwardDeps hd hd' hu hr hn ho
  driven hn ho hq := h.driven hd hd' hu hn ho hq

theorem IsRegisterOutput.owner (h : IsRegisterOutput d b) (hd : WellFormed d) :
    ∃ k reg, d.busOwner? b = some k ∧ d.op? k = some reg ∧ reg.kind = .reg := by
  obtain ⟨-, -, k, reg, i, x, -, -, -, hreg, hkind, hi, hx, hb⟩ := h
  obtain ⟨x', hx', hown⟩ := hd.exits.holds hreg i (mem_of_head? hi)
  rw [show at? d.exits i = some x from hx] at hx'; cases hx'
  obtain ⟨c, hc, hexit⟩ := hd.buses.holds hx b (mem_cons_of_mem _ (mem_of_head? hb))
  refine ⟨k, reg, ?_, hreg, hkind⟩
  unfold Design.busOwner?
  rw [show d.bus? b = some c from hc]
  change (do let x ← d.exit? c.exit; return x.owner) = _
  rw [Option.some.inj hexit, hx, ← Option.some.inj hown]
  rfl

/-! ## Delays -/

theorem not_undelayed_addDependency (h : addDependency entry kind source target clocks d = .ok (i, d'))
    (hn : d.entryAt? entry = some n) (hc : Nested d mod n.owner) : ¬ Undelayed d d' mod := by
  obtain ⟨more, -, hm⟩ := (Rerouted.addDependency h).entry hn
  obtain ⟨-, -, _, _, _, -, -, -, -, e⟩ := addDependency_ok h
  have hv : d'.dep? d.deps.size = some ⟨d.deps.size, kind, entry, source, target, clocks⟩ := by
    rw [e]
    exact (at?_push ..).trans (if_pos rfl)
  exact fun hu => hu (Int.le_refl _) hv hm hc

namespace Loop

theorem not_undelayed_delayAll {count n : Nat} (hd : WellFormed d) (hn : Nested d mod a)
    (h : delayAll heads (identity d) count (a :: rest) d = .ok ((n, none), d')) : ¬ Undelayed d d' mod := by
  obtain ⟨o, ho⟩ := hn.exists_op hd
  have live : identity d a = some a := by rw [identity, ho]; rfl
  rw [delayAll, live] at h
  obtain ⟨r, e, hr, h⟩ := build_bind_ok.mp h
  cases r with
  | error err =>
    cases h
  | ok u =>
    rcases delay_outcome hd hr with ⟨-, v, -, -, delays, connected⟩ | ⟨-, e, failed, -⟩
    · obtain ⟨n, entry, inside⟩ := delays.nested hd hn
      have he := (Rerouted.balances.delayAll ..).run h
      exact fun hu => not_undelayed_addDependency connected entry inside (hu.before he)
    · cases failed

theorem ConflictSet.make_conflicts {policy : Policy} {conflicts : List Conflict}
    (h : make policy conflicts = .ok cs) :
    cs.conflicts = conflicts ∧ cs.policy = policy ∧ ∀ code, policy ≠ .unnamed code := by
  cases policy with
  | unnamed code => cases h
  | _ => cases h; exact ⟨rfl, rfl, nofun⟩

theorem ConflictSet.delayed_eq_cons {cs : ConflictSet} (hres : cs.resolves = true) (hne : cs.conflicts ≠ []) :
    ∃ c ∈ cs.conflicts, ∃ rest, cs.delayed = cs.side c :: rest := by
  obtain ⟨c, conflicts, hc⟩ := exists_cons_of_ne_nil hne
  refine ⟨c, hc ▸ mem_cons_self, ?_⟩
  rw [delayed, if_pos hres, hc, map_cons, eraseDups_cons]
  exact ⟨_, rfl⟩

/-! ## Loops without registers -/

def RunsBlock (d : Design) (l block : OpId) : Prop :=
  ∃ lp bd, d.op? l = some lp ∧ d.op? lp.body = some bd ∧ bd.body = block

def NoHazard (d : Design) (l : OpId) : Prop :=
  ∃ lp report, d.op? l = some lp ∧ (analyze d lp.body false).run = .ok (.ok report) ∧ report.removable = true

def Hazard (d : Design) (l : OpId) : Prop :=
  ∃ lp report, d.op? l = some lp ∧ (analyze d lp.body false).run = .ok (.ok report) ∧ report.conflicts ≠ []

theorem Decides.runsBlock (h : Decides o l d d' n) : ∃ block, RunsBlock d l block := by
  have analyzed : ∃ lp report, d.op? l = some lp ∧ (analyze d lp.body o.failFast).run = .ok (.ok report) ∧
      report.analyzable = true := by
    cases h with
    | clean hl hr hclean =>
      simp only [FlopReport.removable, Bool.and_eq_true] at hclean
      exact ⟨_, _, hl, hr, hclean.1.2⟩
    | delayed hl hr hana => exact ⟨_, _, hl, hr, hana⟩
  obtain ⟨lp, report, hl, hr, hana⟩ := analyzed
  obtain ⟨block, _, _, walks, -⟩ := analyze_walks hr hana
  obtain ⟨bd, hbd, -, -, hblock⟩ := walks.body
  exact ⟨block, lp, bd, hl, hbd, hblock⟩

theorem RunsBlock.along (h : RunsBlock d l block) (he : Rerouted d e) : RunsBlock e l block := by
  obtain ⟨lp, bd, hl, hbd, hblock⟩ := h
  obtain ⟨f, hl'⟩ := he.op hl
  obtain ⟨g, hbd'⟩ := he.op hbd
  exact ⟨_, _, hl', hbd', hblock⟩

theorem RunsBlock.back (h : RunsBlock e l block) (he : Rerouted d e) : RunsBlock d l block := by
  obtain ⟨lp, bd, hl, hbd, hblock⟩ := h
  obtain ⟨f, hl'⟩ := he.opBack hl
  obtain ⟨g, hbd'⟩ := he.opBack hbd
  exact ⟨_, _, hl', hbd', hblock⟩

section
variable {body : OpId} {report : FlopReport} (h : Walks d body failFast block ended found)
  (hr : report.conflicts = found.conflicts)
include h hr

theorem Walks.side_nested {cs : ConflictSet} {c : Conflict} (hc : c ∈ report.all) : Nested d block (cs.side c) := by
  obtain ⟨p, hp, hc⟩ := mem_flatMap.mp hc
  obtain ⟨head, tail⟩ := h.located.1.conflicts p (hr ▸ hp) c hc
  unfold ConflictSet.side
  split
  · exact head
  · exact tail

theorem Walks.all_ne_nil (hne : report.conflicts ≠ []) : report.all ≠ [] := by
  obtain ⟨p, hp⟩ := exists_mem_of_ne_nil _ hne
  intro none
  exact h.located.1.filled p (hr ▸ hp) (flatMap_eq_nil_iff.mp none p hp)

end

theorem Decides.removable (h : Decides o l d d' n) (hd : WellFormed d)
    (hk : ∃ lp, d.op? l = some lp ∧ lp.kind = .loop) (hb : RunsBlock d l block) (hu : Undelayed d d' block) :
    ∃ lp report, d.op? l = some lp ∧ (analyze d lp.body o.failFast).run = .ok (.ok report) ∧
      report.removable = true := by
  cases h with
  | clean hl hr hclean => exact ⟨_, _, hl, hr, hclean⟩
  | @delayed lp report cs _ e hl hr hana hne _ hcs hres hdel h =>
    -- the first access that is delayed lies inside the block, and its delay stays
    exfalso
    obtain ⟨block', ended, found, walks, conflicts, -⟩ := analyze_walks hr hana
    obtain ⟨lp', bd, hl', hbd, rfl⟩ := hb
    rw [hl] at hl'; cases hl'
    obtain ⟨bd', hbd', -, -, rfl⟩ := walks.body
    rw [hbd] at hbd'; cases hbd'
    obtain ⟨same, -⟩ := ConflictSet.make_conflicts hcs
    obtain ⟨c, hc, rest, hdelayed⟩ := ConflictSet.delayed_eq_cons hres (same ▸ walks.all_ne_nil conflicts hne)
    rw [ConflictSet.resolve, hdelayed] at hdel
    have we := (keeps_delayAll ..).kept hd hdel
    have he := (Rerouted.balances.delayAll ..).run hdel
    obtain ⟨lp', hl', hk⟩ := hk
    obtain ⟨f, hl'⟩ := he.op hl'
    obtain ⟨-, moved⟩ := removeRegisters_moved we hl' hk h
    exact not_undelayed_delayAll hd (walks.side_nested conflicts (same ▸ hc)) hdel (hu.before moved.toRerouted)

theorem Removed.runsBlock (h : Removed o d d' l) : ∃ block, RunsBlock d l block := by
  obtain ⟨e, f, lp, n, -, he, -, -, decides, -, -⟩ := h.decided
  obtain ⟨block, hb⟩ := decides.runsBlock
  exact ⟨block, hb.back he⟩

theorem Removed.noHazard (h : Removed o d d' l) (hd : WellFormed d) (hd' : WellFormed d')
    (hb : RunsBlock d l block) (hr : Unregistered d block) (hu : Undelayed d d' block) : NoHazard d' l := by
  -- the decision fell at `e`, where the flow inside the block was what it is in the end
  obtain ⟨e, f, lp, n, we, he, hl, hk, decides, hef, hf⟩ := h.decided
  have hed' := hef.trans hf
  have hb' := hb.along he
  have hu' := hu.after he
  have inside : SameInside block e d' := hed'.sameInside we hd' hu' (hr.after he hd we (hu.before hed'))
  obtain ⟨lp', report, hl', hreport, hrem⟩ := decides.removable we ⟨lp, hl, hk⟩ hb' (hu'.before hf)
  obtain ⟨lp'', bd, hl'', hbd, rfl⟩ := hb'
  rw [hl'] at hl''; cases hl''
  obtain ⟨report', hreport', hrem'⟩ := removable_same hbd inside we hreport hrem
  obtain ⟨g, hg⟩ := hed'.op hl'
  exact ⟨_, report', hg, hreport', hrem'⟩

/-! ## Options -/

theorem Decides.moved (h : Decides o l d d' n) (hd : WellFormed d)
    (hk : ∃ lp, d.op? l = some lp ∧ lp.kind = .loop) (hdel : o.delays = false) : WellFormed d' ∧ Moved d d' := by
  obtain ⟨lp, hl, hk⟩ := hk
  cases h with
  | clean _ _ _ h => exact removeRegisters_moved hd hl hk h
  | delayed _ _ _ _ hf hcs hres =>
    obtain ⟨-, policy, named⟩ := ConflictSet.make_conflicts hcs
    simp only [ConflictSet.resolves, policy, bne_iff_ne] at hres
    unfold Options.delays at hdel
    rw [hf] at hdel
    cases hp : o.policy with
    | fixNone => exact absurd hp hres
    | unnamed code => exact absurd hp (named code)
    | _ => rw [hp] at hdel; cases hdel

theorem removeAll_moved {ids : List OpId} (hd : WellFormed d) (hdel : o.delays = false)
    (h : (ids.foldlM (removeNext o) r).run d = .ok (.ok r', d')) : Moved d d' := by
  induction ids generalizing d r with
  | nil =>
    cases h
    exact .refl _
  | cons id ids ih =>
    obtain ⟨r1, e, hstep, rest⟩ := step_bind_ok.mp h
    rcases removeNext_ok hstep with ⟨-, rfl⟩ | ⟨n, lp, -, hl, hk, decides⟩
    · exact ih hd rest
    · obtain ⟨we, moved⟩ := decides.moved hd ⟨lp, hl, hk⟩ hdel
      exact moved.trans (ih we rest)

theorem undelayed_of_count (h : d'.deps.size = d.deps.size) (mod : OpId) : Undelayed d d' mod := by
  intro i v n hi hv
  have := (at?_lt hv).2
  omega

theorem removeFlops_count (hd : WellFormed d) (off : o.removeFlop = false ∨ o.delays = false)
    (h : (removeFlops o).run d = .ok (.ok r, d')) : d'.deps.size = d.deps.size := by
  unfold removeFlops at h
  split at h
  next =>
    cases h
    rfl
  next on =>
    obtain ⟨_, _, hg, h⟩ := step_bind_ok.mp h
    obtain ⟨-, hf⟩ := step_get_ok.mp hg
    rw [hf] at h
    rcases off with off | hdel
    · simp [off] at on
    · exact (removeAll_moved hd hdel h).count

theorem undelayed_of_not_delays (hd : WellFormed d) (hdel : o.delays = false)
    (h : (removeFlops o).run d = .ok (.ok r, d')) (mod : OpId) : Undelayed d d' mod :=
  undelayed_of_count (removeFlops_count hd (.inr hdel) h) mod

/-! ## Hazards that are left -/

def readsNoRegister (d : Design) : Bool :=
  d.ops.all fun o => (Timing.forwardDeps d o).all fun v =>
    ((d.busOwner? v.source).bind d.op?).all (·.kind != .reg)

theorem unregistered_of_readsNoRegister (hd : WellFormed d) (h : readsNoRegister d = true) (mod : OpId) :
    Unregistered d mod := by
  intro c o v _ ho hv hreg
  obtain ⟨k, reg, howner, hk, hkind⟩ := hreg.owner hd
  simp only [readsNoRegister, Array.all_eq_true', all_eq_true] at h
  have := h o (mem_of_at? ho) v hv
  rw [howner, Option.bind_some, hk] at this
  simp [hkind] at this

instance (d : Design) (l block : OpId) : Decidable (RunsBlock d l block) :=
  decidable_of_iff (((d.op? l).bind fun lp => d.op? lp.body).map Operation.body = some block) <| by
    simp only [Option.map_eq_some_iff, Option.bind_eq_some_iff]
    exact ⟨fun ⟨bd, ⟨lp, hl, hbd⟩, e⟩ => ⟨lp, bd, hl, hbd, e⟩, fun ⟨lp, bd, hl, hbd, e⟩ => ⟨bd, ⟨lp, hl, hbd⟩, e⟩⟩

theorem RunsBlock.unique (h : RunsBlock d l block) (h' : RunsBlock d l block') : block = block' := by
  obtain ⟨lp, bd, hl, hbd, rfl⟩ := h
  obtain ⟨lp', bd', hl', hbd', rfl⟩ := h'
  rw [hl] at hl'; cases hl'
  rw [hbd] at hbd'; cases hbd'
  rfl

def collides (d : Design) (body : OpId) : Bool :=
  match (analyze d body false).run with
  | .ok (.ok report) => !report.conflicts.isEmpty
  | _ => false

theorem collides_iff :
    collides d body = true ↔ ∃ report, (analyze d body false).run = .ok (.ok report) ∧ report.conflicts ≠ [] := by
  unfold collides
  constructor
  · intro h
    split at h
    next report hr => exact ⟨report, hr, by simpa using h⟩
    next => cases h
  · rintro ⟨report, hr, hne⟩
    rw [hr]
    simpa using hne

instance (d : Design) (l : OpId) : Decidable (Hazard d l) :=
  decidable_of_iff (∃ lp, d.op? l = some lp ∧ collides d lp.body = true) <| by
    simp only [collides_iff]
    exact ⟨fun ⟨lp, hl, report, hr, hne⟩ => ⟨lp, report, hl, hr, hne⟩,
      fun ⟨lp, report, hl, hr, hne⟩ => ⟨lp, hl, report, hr, hne⟩⟩

/-- With these options no loop without registers has a hazard, as long as its block was as required. -/
def Safe (o : Options) (P : Design → OpId → Prop) : Prop :=
  ∀ ⦃d d' r l block⦄, Built d → (removeFlops o).run d = .ok (.ok r, d') → l ∈ r.removed →
    RunsBlock d l block → P d block → NoHazard d' l

def LeavesHazard (o : Options) (P : Design → OpId → Prop) : Prop :=
  ∃ d d' r l block, Built d ∧ (removeFlops o).run d = .ok (.ok r, d') ∧ l ∈ r.removed ∧
    RunsBlock d l block ∧ P d block ∧ Hazard d' l

theorem LeavesHazard.not_safe (h : LeavesHazard o P) : ¬ Safe o P := by
  obtain ⟨d, d', r, l, block, hd, hr, hl, hb, hP, lp, report, hlp, hreport, hne⟩ := h
  intro safe
  obtain ⟨lp', report', hlp', hreport', hrem⟩ := safe hd hr hl hb hP
  rw [hlp] at hlp'; cases hlp'
  rw [hreport] at hreport'; cases hreport'
  simp only [FlopReport.removable, Bool.and_eq_true, List.isEmpty_iff] at hrem
  exact hne hrem.2

theorem leavesHazard_of {test : Design → Bool} (cmds : List Command) (l block : OpId)
    (hP : ∀ {d}, WellFormed d → test d = true → P d block)
    (h : ∃ d, runAll cmds { name := "x" } = some d ∧ RunsBlock d l block ∧ test d = true ∧
      ∃ r d', (removeFlops o).run d = .ok (.ok r, d') ∧ l ∈ r.removed ∧ Hazard d' l) : LeavesHazard o P := by
  obtain ⟨d, hd, hb, ht, r, d', hr, hl, hazard⟩ := h
  have built := (Built.empty "x").runAll hd
  exact ⟨d, d', r, l, block, built, hr, hl, hb, hP built.wellFormed ht, hazard⟩

/-- A loop whose block reads two memories. The accesses `a` and `c` of the first are in the first and in
the last cycle; `b` and `e` of the second are both in the first, and `b` follows `a`. -/
def followedCommands : List Command :=
  [.newResource .memory "x" false, .newResource .memory "y" false, .newLoop absent "l" 0 0 .zero,
   .setLatency 11 .one, .newAccess .memoryRead 11 "a" 0 .zero, .newAccess .memoryRead 11 "b" 1 .zero,
   .newAccess .memoryRead 11 "e" 1 .zero, .newPrimitive .op 11 "p" 0 0 .one,
   .newAccess .memoryRead 11 "c" 0 .zero, .start 16 13, .start 19 19, .finish 11 .done 18]

def secondExitCommands : List Command :=
  [.newResource .memory "x" false, .newLoop absent "l" 0 0 .zero, .setLatency 11 .one,
   .addModuleExit 11 ⟨.returned, ""⟩ .one 0, .newAccess .memoryRead 11 "a" 0 .zero]

def innerRegisterCommands : List Command :=
  [.newResource .memory "x" false, .newLoop absent "l" 0 0 .zero, .setLatency 11 .one, .newLoop 11 "m" 0 0 .zero,
   .setLatency 26 .one, .newPrimitive .op 11 "p" 0 0 .one, .newAccess .memoryRead 11 "b" 0 .zero,
   .newAccess .memoryRead 11 "a" 0 .zero, .start 31 26, .finish 11 .done 31, .addDependency 34 .control 25 37 0]

theorem leavesHazard_balance (balance : Bool) (h : LeavesHazard ⟨policy, true, true, failFast⟩ P) :
    LeavesHazard ⟨policy, balance, true, failFast⟩ P := h

theorem leavesHazard_policy (policy : Policy)
    (h : LeavesHazard ⟨.fixNone, true, true, true⟩ P) : LeavesHazard ⟨policy, true, true, true⟩ P := h

theorem delays_leaveHazard (hrem : o.removeFlop = true) (hdel : o.delays = true) : LeavesHazard o Unregistered := by
  have unregistered : ∀ {d : Design}, WellFormed d → readsNoRegister d = true → Unregistered d 11 :=
    fun hd h => unregistered_of_readsNoRegister hd h 11
  obtain ⟨policy, balance, removeFlop, failFast⟩ := o
  cases hrem
  refine leavesHazard_balance balance ?_
  cases failFast with
  | true => cases hdel
  | false =>
    cases policy with
    | fixNone => cases hdel
    | unnamed code => cases hdel
    | fixFewest => exact leavesHazard_of followedCommands 0 11 unregistered (by decide +kernel)
    | firstAlways => exact leavesHazard_of followedCommands 0 11 unregistered (by decide +kernel)
    | fixMost => exact leavesHazard_of secondExitCommands 0 11 unregistered (by decide +kernel)
    | lastAlways => exact leavesHazard_of secondExitCommands 0 11 unregistered (by decide +kernel)

theorem registers_leaveHazard (hrem : o.removeFlop = true) (hdel : o.delays = false)
    (hvalid : Policy.checked o.policy.code = .ok o.policy) : LeavesHazard o fun _ _ => True := by
  have anything : ∀ {d : Design}, WellFormed d → true = true → True := fun _ _ => trivial
  obtain ⟨policy, balance, removeFlop, failFast⟩ := o
  cases hrem
  refine leavesHazard_balance balance ?_
  cases failFast with
  | true =>
    exact leavesHazard_policy policy (leavesHazard_of innerRegisterCommands 0 11 anything (by decide +kernel))
  | false =>
    cases policy with
    | fixNone => exact leavesHazard_of innerRegisterCommands 0 11 anything (by decide +kernel)
    | unnamed code =>
      unfold Policy.checked at hvalid
      split at hvalid
      next => cases hvalid
      next named => exact absurd (Except.ok.inj hvalid) (named code)
    | _ => cases hdel

theorem LeavesHazard.weaken (h : LeavesHazard o P)
    (hPQ : ∀ {d block}, P d block → Q d block) : LeavesHazard o Q := by
  obtain ⟨d, d', r, l, block, hd, hr, hl, hb, hP, hazard⟩ := h
  exact ⟨d, d', r, l, block, hd, hr, hl, hb, hPQ hP, hazard⟩

theorem removeFlops_off (hrem : o.removeFlop = false)
    (h : (removeFlops o).run d = .ok (.ok r, d')) : r.removed = [] := by
  unfold removeFlops at h
  rw [hrem] at h
  cases h
  rfl

/-- A loop without its registers has a hazard only if a delay was added inside its block, or if something
inside waits for a register. Where nothing waits for registers, exactly the options that never delay
are safe; in general, exactly those that leave all registers in place. -/
theorem hazards_only_from_delays_and_registers (o : Options) :
    (∀ {d d' r}, WellFormed d → (removeFlops o).run d = .ok (.ok r, d') → ∀ l ∈ r.removed, ∃ block,
      RunsBlock d l block ∧ (Unregistered d block → Undelayed d d' block → NoHazard d' l)) ∧
    (Safe o Unregistered ↔ (o.removeFlop && o.delays) = false) ∧
    (Policy.checked o.policy.code = .ok o.policy → (Safe o (fun _ _ => True) ↔ o.removeFlop = false)) := by
  refine ⟨fun hd h l hl => ?_, ⟨fun safe => ?_, fun hdel => ?_⟩, fun hvalid => ⟨fun safe => ?_, fun hrem => ?_⟩⟩
  · obtain ⟨hd', -, removed⟩ := removeFlops_ok hd h
    obtain ⟨block, hb⟩ := (removed l hl).runsBlock
    exact ⟨block, hb, (removed l hl).noHazard hd hd' hb⟩
  · rw [Bool.and_eq_false_iff, ← Bool.not_eq_true, ← Bool.not_eq_true, ← not_and_or]
    exact fun ⟨hrem, hdel⟩ => (delays_leaveHazard hrem hdel).not_safe safe
  · intro d d' r l block hd h hl hb hr
    obtain ⟨hd', -, removed⟩ := removeFlops_ok hd.wellFormed h
    rcases Bool.and_eq_false_iff.mp hdel with hrem | hdel
    · rw [removeFlops_off hrem h] at hl
      cases hl
    · exact (removed l hl).noHazard hd.wellFormed hd' hb hr (undelayed_of_not_delays hd.wellFormed hdel h block)
  · rw [← Bool.not_eq_true]
    intro hrem
    cases hdel : o.delays with
    | true => exact ((delays_leaveHazard hrem hdel).weaken fun _ => trivial).not_safe safe
    | false => exact (registers_leaveHazard hrem hdel hvalid).not_safe safe
  · intro d d' r l block hd h hl
    rw [removeFlops_off hrem h] at hl
    cases hl

def siblingCommands : List Command :=
  [.newResource .memory "x" false, .newLoop absent "l" 0 0 .zero, .setLatency 11 .one,
   .newAccess .memoryRead 11 "a" 0 .zero, .newLoop absent "m" 0 0 .zero, .setLatency 27 .one,
   .newAccess .memoryRead 27 "b" 0 .zero, .newPrimitive .op 27 "p" 0 0 .one, .finish 27 .done 32]

theorem sibling_keeps_no_hazard : ∃ d d' r, runAll siblingCommands { name := "x" } = some d ∧
    (removeFlops { policy := .firstAlways }).run d = .ok (.ok r, d') ∧ r = ⟨[0, 16], 1⟩ ∧ NoHazard d' 16 := by
  obtain ⟨d, hd, hb, hreg, _, d', hr, rfl, hdeps⟩ : ∃ d, runAll siblingCommands { name := "x" } = some d ∧
      RunsBlock d 16 27 ∧ readsNoRegister d = true ∧
      ∃ r d', (removeFlops { policy := .firstAlways }).run d = .ok (.ok r, d') ∧ r = ⟨[0, 16], 1⟩ ∧
      ∀ v ∈ d'.deps, v.id < d.deps.size ∨ (d'.entryAt? v.entry).all (·.owner ≤ 27) = true := by
    decide +kernel
  have wf := ((Built.empty "x").runAll hd).wellFormed
  obtain ⟨block, hblock, safe⟩ := (hazards_only_from_delays_and_registers _).1 wf hr 16 (by simp)
  rw [hblock.unique hb] at safe
  refine ⟨d, d', _, hd, hr, rfl, safe (unregistered_of_readsNoRegister wf hreg 27) ?_⟩
  intro i v n hi hv hn nested
  rcases hdeps v (mem_of_at? hv) with old | owner
  · rw [(removeFlops_ok wf hr).1.depIds i v hv] at old
    exact absurd old (Int.not_lt.mpr hi)
  · rw [hn, Option.all_some, decide_eq_true_eq] at owner
    exact absurd (nested.lt wf) (Int.not_lt.mpr owner)

/-- The access `b` is delayed together with `a`, into the last cycle, while `e` stays in the first. -/
theorem followed_access_collides : ∃ d d' r report, runAll followedCommands { name := "x" } = some d ∧
    (removeFlops { policy := .firstAlways }).run d = .ok (.ok r, d') ∧ r = ⟨[0], 1⟩ ∧
    (analyze d' 3 false).run = .ok (.ok report) ∧ report.all = [⟨17, [11], 16, [11]⟩] := by
  obtain ⟨d, hd, _, d', hr, rfl, report, ha, all⟩ : ∃ d, runAll followedCommands { name := "x" } = some d ∧
      ∃ r d', (removeFlops { policy := .firstAlways }).run d = .ok (.ok r, d') ∧ r = ⟨[0], 1⟩ ∧
      ∃ report, (analyze d' 3 false).run = .ok (.ok report) ∧ report.all = [⟨17, [11], 16, [11]⟩] := by
    decide +kernel
  exact ⟨d, d', _, report, hd, hr, rfl, ha, all⟩

end Loop

end

end Datapath
