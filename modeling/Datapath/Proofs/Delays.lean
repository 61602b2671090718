import Datapath.Proofs.Additions
import Datapath.Proofs.Nested
import Datapath.Proofs.Steps
import Mathlib.Data.List.Forall2

/-!
# Delays of accesses

An access in the first cycle of a loop is delayed by one dependency that makes it start after its owner,
and one in the last cycle by one that makes its owner complete after it. Accesses are delayed one after
the other, up to the first that cannot be delayed.
-/

namespace Datapath

variable {d d' : Design}

def Design.attach (d : Design) (v : Dependency) : Design :=
  { d with
    deps := d.deps.push v
    entries := editAt d.entries v.entry fun e => { e with deps := e.deps ++ [v.id] }
    buses := editAt d.buses v.source fun b => { b with dependents := b.dependents ++ [v.id] } }

theorem connectResource_attaches (hd : WellFormed d) {id : Int}
    (h : connectResource entry source target clocks d = .ok (id, d')) :
    d' = d.attach { id, kind := .resource, entry, source, target, minClocks := clocks } ∧
      Augments d d' [{ id, kind := .resource, entry, source, target, minClocks := clocks }] := by
  refine ⟨?_, gains_addDependency hd h⟩
  obtain ⟨rfl, -, _, _, _, -, -, -, -, rfl⟩ := addDependency_ok h
  rfl

section
variable (d : Design) (v : Dependency)

theorem attach_ownersFrom (n : Nat) (i : OpId) : (d.attach v).ownersFrom n i = d.ownersFrom n i := by
  induction n generalizing i with
  | zero => rfl
  | succ n ih =>
    simp only [Design.ownersFrom, ih]
    rfl

theorem attach_malformed (i : OpId) (reason : Reason) : (d.attach v).malformed i reason = d.malformed i reason := by
  simp only [Design.malformed, Design.site, Design.ownerLabels, Design.owners, attach_ownersFrom]
  rfl

end

theorem attachAll_deps (d : Design) (new : List Dependency) :
    (new.foldl Design.attach d).deps.toList = d.deps.toList ++ new := by
  induction new generalizing d with
  | nil => simp
  | cons v new ih =>
    rw [List.foldl_cons, ih]
    simp [Design.attach]

namespace Loop

/-! ## One access -/

/-- The dependency makes an access in the first cycle start after its owner, or the owner of one in the last
cycle complete after it. -/
inductive Delays (d : Design) : Bool → OpId → Dependency → Prop where
  | start {a : OpId} {o m : Operation} {g : Port} {v : Dependency} (ho : d.op? a = some o)
      (hm : d.op? o.owner = some m) (hg : d.port? m.go = some g) (entry : o.entries.head? = some v.entry)
      (source : v.source = g.peer) (target : v.target = o.go) : Delays d true a v
  | finish {a : OpId} {o m q : Operation} {x y : Exit} {v : Dependency} (ho : d.op? a = some o)
      (hm : d.op? o.owner = some m) (hx : d.mainExit? m = some x) (hy : d.mainExit? o = some y)
      (hq : d.op? x.peer = some q) (entry : q.entries.head? = some v.entry) (source : v.source = y.done)
      (target : v.target = q.go) : Delays d false a v

/-- Why an access cannot be delayed, with the error that says so. -/
inductive Undelayable (d : Design) : Bool → OpId → Error → Prop where
  | unowned {heads : Bool} {a : OpId} {o : Operation} {e : Error} (ho : d.op? a = some o) (none : o.owner = absent)
      (he : d.malformed a .accessWithoutOwner = .ok e) : Undelayable d heads a e
  | ownerExit {a : OpId} {o m : Operation} {e : Error} (ho : d.op? a = some o) (hm : d.op? o.owner = some m)
      (none : d.mainExit? m = none) (he : d.malformed o.owner (.missingExit .done) = .ok e) :
        Undelayable d false a e
  | accessExit {a : OpId} {o : Operation} {e : Error} (ho : d.op? a = some o) (none : d.mainExit? o = none)
      (he : d.malformed a (.missingExit .done) = .ok e) : Undelayable d false a e

def DelayOutcome (d : Design) (heads : Bool) (a : OpId) (r : Except Error Unit) (d' : Design) : Prop :=
  (r = .ok () ∧ ∃ v : Dependency, v.kind = .resource ∧ v.minClocks = 1 ∧ Delays d heads a v ∧
      connectResource v.entry v.source v.target 1 d = .ok (v.id, d')) ∨
    d' = d ∧ ∃ e, r = .error e ∧ Undelayable d heads a e

theorem connected_run {r : Except Error Unit}
    (h : (discard (Pass.ofBuild (connectResource entry source target 1)) : Pass Unit).run d = .ok (r, d')) :
    r = .ok () ∧ ∃ id, connectResource entry source target 1 d = .ok (id, d') := by
  rcases step_bind_run.mp h with ⟨e, failed, -⟩ | ⟨id, u, ran, h⟩
  · obtain ⟨_, -, failed⟩ := bind_ok.mp failed
    cases failed
  · obtain ⟨rfl, rfl⟩ := step_pure_run.mp h
    exact ⟨rfl, id, ofBuild_ok.mp ran⟩

theorem firstEntry_ok {o : Operation} (h : o.firstEntry = .ok entry) : o.entries.head? = some entry :=
  require_ok.mp h

theorem delayFirst_outcome (h : (delayFirst a).run d = .ok (r, d')) : DelayOutcome d true a r d' := by
  obtain ⟨o, ho, h⟩ := look_bind_run.mp h
  rcases guard_run h with ⟨none, same, e, failed, he⟩ | ⟨owned, h⟩
  · exact .inr ⟨same, e, failed, .unowned (op_ok ho) (by simpa using none) he⟩
  obtain ⟨source, hsource, h⟩ := look_bind_run.mp h
  obtain ⟨m, hm, hsource⟩ := bind_ok.mp hsource
  obtain ⟨g, hg, hsource⟩ := bind_ok.mp hsource
  cases hsource
  obtain ⟨entry, hentry, h⟩ := look_bind_run.mp h
  obtain ⟨rfl, id, connected⟩ := connected_run h
  exact .inl ⟨rfl, { id, kind := .resource, entry, source := g.peer, target := o.go, minClocks := 1 }, rfl, rfl,
    .start (op_ok ho) (op_ok hm) (port_ok hg) (firstEntry_ok hentry) rfl rfl, connected⟩

theorem delayLast_outcome (hd : WellFormed d) (h : (delayLast a).run d = .ok (r, d')) :
    DelayOutcome d false a r d' := by
  obtain ⟨o, ho, h⟩ := look_bind_run.mp h
  rcases guard_run h with ⟨none, same, e, failed, he⟩ | ⟨owned, h⟩
  · exact .inr ⟨same, e, failed, .unowned (op_ok ho) (by simpa using none) he⟩
  obtain ⟨mx, hmx, h⟩ := look_bind_run.mp h
  obtain ⟨ax, hax, h⟩ := look_bind_run.mp h
  obtain ⟨m, hm, ⟨rfl, none⟩ | ⟨there, x, hx, found⟩⟩ := mainExit_cases hd hmx
  · rcases guard_run h with ⟨-, same, e, failed, he⟩ | ⟨owned, -⟩
    · exact .inr ⟨same, e, failed, .ownerExit (op_ok ho) hm none he⟩
    · simp at owned
  rcases guard_run h with ⟨none, -⟩ | ⟨-, h⟩
  · exact absurd (by simpa using none) there
  obtain ⟨o', ho', exit⟩ := mainExit_cases hd hax
  cases (op_ok ho).symm.trans ho'
  obtain ⟨rfl, none⟩ | ⟨there', y, hy, found'⟩ := exit
  · rcases guard_run h with ⟨-, same, e, failed, he⟩ | ⟨owned, -⟩
    · exact .inr ⟨same, e, failed, .accessExit (op_ok ho) none he⟩
    · simp at owned
  rcases guard_run h with ⟨none, -⟩ | ⟨-, h⟩
  · exact absurd (by simpa using none) there'
  obtain ⟨q, hq, h⟩ := look_bind_run.mp h
  rw [found] at hq
  obtain ⟨entry, hentry, h⟩ := look_bind_run.mp h
  obtain ⟨source, hsource, h⟩ := look_bind_run.mp h
  rw [found'] at hsource
  cases hsource
  obtain ⟨rfl, id, connected⟩ := connected_run h
  exact .inl ⟨rfl, { id, kind := .resource, entry, source := y.done, target := q.go, minClocks := 1 }, rfl, rfl,
    .finish (op_ok ho) hm hx hy (op_ok hq) (firstEntry_ok hentry) rfl rfl, connected⟩

theorem delay_outcome (hd : WellFormed d) (h : (if heads then delayFirst a else delayLast a).run d = .ok (r, d')) :
    DelayOutcome d heads a r d' := by
  cases heads with
  | true => exact delayFirst_outcome h
  | false => exact delayLast_outcome hd h

theorem Delays.nested (hd : WellFormed d) (h : Delays d heads a v) (hn : Nested d mod a) :
    ∃ e, d.entryAt? v.entry = some e ∧ Nested d mod e.owner := by
  have owned : ∀ {i o}, d.op? i = some o → o.entries.head? = some v.entry → Nested d mod i →
      ∃ e, d.entryAt? v.entry = some e ∧ Nested d mod e.owner := by
    intro i o ho first hi
    obtain ⟨e, he, own⟩ := hd.entries.holds ho v.entry (List.mem_of_head? first)
    exact ⟨e, he, Option.some.inj own ▸ hi⟩
  cases h with
  | start ho _ _ entry => exact owned ho entry hn
  | finish ho hm hx _ hq entry =>
    obtain ⟨q', hq', -, own⟩ := hd.peer hm (mainExit?_mem hx) (ne_absent hq)
    cases hq.symm.trans hq'
    exact owned hq entry (hn.sibling hd ho hq own (own ▸ ne_absent hm))

theorem Delays.of_attach (h : Delays (d.attach w) heads a v) : Delays d heads a v := by
  cases h with
  | start ho hm hg entry source target => exact .start ho hm hg entry source target
  | finish ho hm hx hy hq entry source target => exact .finish ho hm hx hy hq entry source target

theorem Undelayable.of_attach (h : Undelayable (d.attach w) heads a e) : Undelayable d heads a e := by
  cases h with
  | unowned ho none he => exact .unowned ho none (attach_malformed d w _ _ ▸ he)
  | ownerExit ho hm none he => exact .ownerExit ho hm none (attach_malformed d w _ _ ▸ he)
  | accessExit ho none he => exact .accessExit ho none (attach_malformed d w _ _ ▸ he)

/-! ## All accesses -/

def DelaysLive (d : Design) (heads : Bool) (corr : Correlation) (a : OpId) (v : Dependency) : Prop :=
  v.kind = .resource ∧ v.minClocks = 1 ∧ ∃ c, corr a = some c ∧ Delays d heads c v

def Stuck (d : Design) (heads : Bool) (corr : Correlation) (a : OpId) (e : Error) : Prop :=
  corr a = none ∧ d.malformed a .noCorrelation = .ok e ∨ ∃ c, corr a = some c ∧ Undelayable d heads c e

theorem delayAll_attaches (hd : WellFormed d) (h : delayAll heads corr count accesses d = .ok ((n, err), d')) :
    ∃ new, d' = new.foldl Design.attach d ∧ Augments d d' new ∧ n = count + new.length ∧
      List.Forall₂ (DelaysLive d heads corr) (accesses.take new.length) new ∧
      (err = none ∧ new.length = accesses.length ∨ ∃ a e, accesses[new.length]? = some a ∧ err = some e ∧
        Stuck d heads corr a e) := by
  induction accesses generalizing d count with
  | nil =>
    obtain ⟨same, rfl⟩ := build_pure_ok.mp h
    cases same
    exact ⟨[], rfl, .refl _ _, rfl, .nil, .inl ⟨rfl, rfl⟩⟩
  | cons a accesses ih =>
    rw [delayAll] at h
    cases hc : corr a with
    | none =>
      rw [hc] at h
      obtain ⟨e, u, asked, answer⟩ := build_bind_ok.mp h
      obtain ⟨he, rfl⟩ := ask_ok.mp asked
      obtain ⟨same, rfl⟩ := build_pure_ok.mp answer
      cases same
      exact ⟨[], rfl, .refl _ _, rfl, .nil, .inr ⟨a, e, rfl, rfl, .inl ⟨hc, he⟩⟩⟩
    | some c =>
      rw [hc] at h
      obtain ⟨r, u, hr, h⟩ := build_bind_ok.mp h
      rcases delay_outcome hd hr with ⟨rfl, v, kind, clock, delays, connected⟩ | ⟨rfl, e, rfl, undelayable⟩
      · obtain ⟨id, _, entry, source, target, _⟩ := v
        cases kind
        cases clock
        obtain ⟨rfl, one⟩ := connectResource_attaches hd connected
        have wf := (keeps_delayOne heads c).kept hd hr
        obtain ⟨new, rfl, gains, count, each, ended⟩ := ih wf h
        refine ⟨_ :: new, rfl, one.trans gains, ?_, .cons ⟨rfl, rfl, c, hc, delays⟩ ?_, ?_⟩
        · rw [List.length_cons]
          omega
        · exact each.imp fun _ _ ⟨kind, clock, c, hc, delays⟩ => ⟨kind, clock, c, hc, delays.of_attach⟩
        · refine ended.imp (fun h => ⟨h.1, by rw [List.length_cons, h.2, List.length_cons]⟩) ?_
          rintro ⟨a, e, there, some, stuck⟩
          refine ⟨a, e, by simpa using there, some, ?_⟩
          rcases stuck with ⟨hc, he⟩ | ⟨c, hc, undelayable⟩
          · exact .inl ⟨hc, attach_malformed d _ _ _ ▸ he⟩
          · exact .inr ⟨c, hc, undelayable.of_attach⟩
      · obtain ⟨same, rfl⟩ := build_pure_ok.mp h
        cases same
        exact ⟨[], rfl, .refl _ _, rfl, .nil, .inr ⟨a, e, rfl, rfl, .inr ⟨c, hc, undelayable⟩⟩⟩

end Loop

end Datapath
