import Datapath.Proofs.Runs
import Datapath.Proofs.ThroughputWalk

/-!
# The spacing of a task is the least safe one

A task can start again after so many clocks if by then every loop in it has drained, and no two
accesses that must not meet can do so, whatever run the first and the second start take. The spacing
that the analysis records is the least number of clocks with that property.
-/

namespace Datapath

open List

variable {d e' : Design}

/-! ## Safe spacings -/

/-- From when to when a run of the module holds what an access needs: at the start of the access, or
from the start to the end of the outermost loop around it that iterates. -/
inductive Holds (d : Design) (mod : OpId) (r : Run) (a : OpId) : Int → Int → Prop where
  | alone (h : Outermost d (LoopAround d mod a) none) : Holds d mod r a (r.start a) (r.start a)
  | looped {l : OpId} {o : Operation} {x : Exit} (h : Outermost d (LoopAround d mod a) (some l))
      (ho : d.op? l = some o) (hx : d.mainExit? o = some x) : Holds d mod r a (r.start l) (r.busTime d x.done)

/-- Accesses of one resource inside the module of which the second one must be over when the first
one comes in the next run. -/
def MustNotMeet (d : Design) (mod a b : OpId) : Prop :=
  Nested d mod a ∧ Nested d mod b ∧ ∃ o p r, d.op? a = some o ∧ d.op? b = some p ∧ o.kind.isAccess = true ∧
    p.kind.isAccess = true ∧ o.resource = p.resource ∧ d.resource? o.resource = some r ∧
    (o.kind.isRead = true ∧ p.kind.isWrite = true ∨ o.kind.isWrite = true ∧ p.kind.isRead = true ∨
      (o.kind.isRead = true ∧ p.kind.isRead = true ∧ r.parallelReads = false) ∨ r.kind = .memory)

/-- Two starts of the module that are so many clocks apart do not disturb each other. -/
structure SafeSpacing (d : Design) (mod : OpId) (s : Int) : Prop where
  nonneg : 0 ≤ s
  loops : ∀ {l o x}, Nested d mod l → d.isIterative l = .ok true → d.op? l = some o → d.mainExit? o = some x →
    x.latency.max.toInt ≤ s
  apart : ∀ {r r' a b head tail head' tail'}, IsRun d mod .zero r → IsRun d mod .zero r' → MustNotMeet d mod a b →
    Holds d mod r a head tail → Holds d mod r' b head' tail' → tail' ≤ s + head

def ExitsBounded (d : Design) (mod : OpId) : Prop :=
  ∀ {c o x}, Nested d mod c → d.op? c = some o → x ∈ d.exitsOf o → x.latency.Valid ∧ x.latency.isOpen = false

theorem ExitsBounded.flow (h : ExitsBounded d mod) (hx : FlowExit d mod x) :
    x.latency.Valid ∧ x.latency.isOpen = false := by
  obtain ⟨-, c, o, hn, hc, hm⟩ := hx
  exact h hn hc hm

namespace Timing

theorem Timed.closed (hd : WellFormed d) (ht : Timed d mod base t) (hb : base.Valid) (hbc : base.isOpen = false)
    (hx : ExitsBounded d mod) (ho : NoOverflow d mod t) :
    (∀ {c l}, t.input? c = some l → l.isOpen = false) ∧ ∀ {b l}, t.bus? b = some l → l.isOpen = false := by
  obtain ⟨vi, vb⟩ := ht.valid hd hb (fun hf => (hx.flow hf).1) ho
  refine ht.relate (P := fun l _ => l.isOpen = false) hd ⟨fun _ => 0, fun _ => 0⟩ hbc ?_ ?_ ?_
  · intro x input hf hin hl
    rw [Latency.after_isOpen (hx.flow hf).1 (vi hin), (hx.flow hf).2, hl]
    rfl
  · intro c o v l hn hc hv hbus hl
    rw [(arrival_exact (clocks_nonneg hd hv) (vb hbus) (ho.deps hn hc hv hbus)).2.1]
    exact hl
  · intro c o outer f _ _ hl hls
    by_cases hne : forwardDeps d o = []
    · rw [hne]; exact hl
    · rw [(startOf_ends o.kind outer (by simpa using hne)).isOpen, any_eq_false]
      intro l hm
      obtain ⟨v, hv, rfl⟩ := mem_map.mp hm
      simpa using hls v hv

end Timing

namespace Throughput

/-! ## Accesses in a run -/

theorem IsSeen.relate (ha : IsSeen d t mod a) (hd : WellFormed d) {r : Run} {P : Latency → Int → Prop}
    (inputs : ∀ {c l}, t.input? c = some l → P l (r.start c))
    (buses : ∀ {b l}, t.bus? b = some l → P l (r.busTime d b)) {head tail : Int}
    (h : Holds d mod r a.op head tail) : P a.head head ∧ P a.tail tail := by
  obtain ⟨outer, ho, hs⟩ := ha.spans
  cases h with
  | alone h =>
    obtain rfl := ho.unique hd h
    obtain ⟨hin, e⟩ := hs
    rw [e]
    exact ⟨inputs hin, inputs hin⟩
  | looped h ho' hx =>
    obtain rfl := ho.unique hd h
    obtain ⟨hin, o, x, hop, hx', hb⟩ := hs
    rw [ho'] at hop; cases hop
    rw [hx] at hx'; cases hx'
    exact ⟨inputs hin, buses hb⟩

theorem IsSeen.holds (ha : IsSeen d t mod a) (r : Run) : ∃ head tail, Holds d mod r a.op head tail := by
  obtain ⟨outer, ho, hs⟩ := ha.spans
  cases outer with
  | none => exact ⟨_, _, .alone ho⟩
  | some l =>
    obtain ⟨-, o, x, hop, hx, -⟩ := hs
    exact ⟨_, _, .looped ho hop hx⟩

theorem isRead_of_isAccess {k : Kind} (h : k.isAccess = true) : k.isRead = !k.isWrite := by
  cases k <;> simp_all [Kind.isAccess, Kind.isRead, Kind.isWrite]

theorem mustNotMeet_iff (hd : WellFormed d) (ha : IsSeen d t mod a) (hb : IsSeen d t mod b)
    (hna : Nested d mod a.op) (hnb : Nested d mod b.op) : MustNotMeet d mod a.op b.op ↔ a.Meets b := by
  obtain ⟨o, hop, hao, hro, hwo⟩ := ha.access
  obtain ⟨p, hpp, hap, hrp, hwp⟩ := hb.access
  have ido : a.resource.id = o.resource := hd.resourceIds _ _ hro
  have idp : b.resource.id = p.resource := hd.resourceIds _ _ hrp
  unfold Seen.Meets
  rw [ido, idp, hwp]
  constructor
  · rintro ⟨-, -, o', p', r, ho', hp', -, -, same, hr, h⟩
    rw [hop] at ho'; cases ho'
    rw [hpp] at hp'; cases hp'
    rw [isRead_of_isAccess hao, isRead_of_isAccess hap] at h
    cases hw : o.kind.isWrite <;> simp_all
  · rintro ⟨same, h⟩
    refine ⟨hna, hnb, o, p, a.resource, hop, hpp, hao, hap, same, hro, ?_⟩
    rw [isRead_of_isAccess hao, isRead_of_isAccess hap]
    cases hw : o.kind.isWrite <;> simp_all

/-! ## One task -/

theorem Walked.apart_iff (hw : Walked d t mod f as) (hd : WellFormed d) (ht : Timing.Timed d mod .zero t)
    (hx : ExitsBounded d mod) (ho : Timing.NoOverflow d mod t) :
    Apart as s ↔ ∀ {r r' a b head tail head' tail'}, IsRun d mod .zero r → IsRun d mod .zero r' →
      MustNotMeet d mod a b → Holds d mod r a head tail → Holds d mod r' b head' tail' → tail' ≤ s + head := by
  have hv : ∀ {x}, FlowExit d mod x → x.latency.Valid := fun hf => (hx.flow hf).1
  have zero : Latency.zero.Valid := by decide
  constructor
  · intro apart r r' a b head tail head' tail' hr hr' hm h h'
    obtain ⟨hna, hnb, o, p, -, hop, hpp, hao, hap, -⟩ := id hm
    obtain ⟨a, ha, rfl⟩ := hw.all hna hop hao
    obtain ⟨b, hb, rfl⟩ := hw.all hnb hpp hap
    have sa := (hw.seen a ha).2
    have sb := (hw.seen b hb).2
    obtain ⟨inputs, buses⟩ := ht.contains hd zero hv ho hr
    obtain ⟨inputs', buses'⟩ := ht.contains hd zero hv ho hr'
    have first := (sa.relate hd inputs buses h).1
    have last := (sb.relate hd inputs' buses' h').2
    obtain ⟨closedInputs, closedBuses⟩ := ht.closed hd zero (by decide) hx ho
    have closed := (sb.relate (P := fun l _ => l.isOpen = false) hd closedInputs closedBuses h').2
    have := apart a ha b hb ((mustNotMeet_iff hd sa sb hna hnb).mp hm)
    have := first.1
    have := last.2 closed
    omega
  · intro apart a ha b hb hm
    obtain ⟨hna, sa⟩ := hw.seen a ha
    obtain ⟨hnb, sb⟩ := hw.seen b hb
    -- the earliest head and the latest tail belong to two runs
    obtain ⟨r, hr⟩ := ht.exists_earliest hd zero hv
    obtain ⟨r', hr'⟩ := ht.exists_latest hd zero hv 0
    obtain ⟨head, tail, h⟩ := sa.holds r
    obtain ⟨head', tail', h'⟩ := sb.holds r'
    obtain ⟨inputs, buses⟩ := ht.earliest hd zero hv ho hr
    obtain ⟨inputs', buses'⟩ := ht.latest hd zero hv ho hr'
    have first := (sa.relate (P := fun l s => l.min.toInt = s) hd inputs buses h).1
    have last := (sb.relate hd inputs' buses' h').2.2
    obtain ⟨closedInputs, closedBuses⟩ := ht.closed hd zero (by decide) hx ho
    have closed := (sb.relate (P := fun l _ => l.isOpen = false) hd closedInputs closedBuses h').2
    rw [closed, if_neg Bool.false_ne_true] at last
    have := apart hr.toIsRun hr'.toIsRun ((mustNotMeet_iff hd sa sb hna hnb).mpr hm) h h'
    omega

theorem Walked.least (hw : Walked d t mod f as) (hd : WellFormed d) (ht : Timing.Timed d mod .zero t)
    (hx : ExitsBounded d mod) (ho : Timing.NoOverflow d mod t) :
    (f.limits.foldl (fun s l => s.max l.spacing) Spacing.zero).Least (SafeSpacing d mod) := by
  have hv : ∀ {x}, FlowExit d mod x → x.latency.Valid := fun hf => (hx.flow hf).1
  have zero : Latency.zero.Valid := by decide
  obtain ⟨validInputs, validBuses⟩ := ht.valid hd zero hv ho
  obtain ⟨closedInputs, closedBuses⟩ := ht.closed hd zero (by decide) hx ho
  have resources : ∀ a ∈ as, ∀ b ∈ as, a.resource.id = b.resource.id → a.resource = b.resource := by
    intro a ha b hb e
    obtain ⟨o, -, -, hro, -⟩ := (hw.seen a ha).2.access
    obtain ⟨p, -, -, hrp, -⟩ := (hw.seen b hb).2.access
    have same : o.resource = p.resource := (hd.resourceIds _ _ hro).symm.trans (e.trans (hd.resourceIds _ _ hrp))
    rw [same, hrp] at hro
    exact (Option.some.inj hro).symm
  have bounded : ∀ a ∈ as, a.head.Valid ∧ a.tail.Valid ∧ a.tail.isOpen = false := by
    intro a ha
    have sa := (hw.seen a ha).2
    obtain ⟨head, tail, h⟩ := sa.holds ⟨fun _ => 0, fun _ => 0⟩
    have valid := sa.relate (P := fun l _ => l.Valid) hd validInputs validBuses h
    have closed := sa.relate (P := fun l _ => l.isOpen = false) hd closedInputs closedBuses h
    exact ⟨valid.1, valid.2, closed.2⟩
  have loops : ∀ l ∈ f.loops, l.Bounded := by
    intro l hl
    obtain ⟨c, hn, -, o, x, hop, hm, rfl⟩ := (hw.loops l).mp hl
    exact hx hn hop (mainExit?_mem hm)
  refine (hw.accounts.spacing_least resources bounded loops).congr fun s hs =>
    ⟨fun ⟨drained, apart⟩ => ?_, fun safe => ?_⟩
  · refine ⟨hs, fun hn hi hop hm => ?_, (hw.apart_iff hd ht hx ho).mp apart⟩
    exact drained _ ((hw.loops _).mpr ⟨_, hn, hi, _, _, hop, hm, rfl⟩)
  · refine ⟨fun l hl => ?_, (hw.apart_iff hd ht hx ho).mpr safe.apart⟩
    obtain ⟨c, hn, hi, o, x, hop, hm, rfl⟩ := (hw.loops l).mp hl
    exact safe.loops hn hi hop hm

theorem analyzeTask_ok (hb : task.balanced = true) (h : (analyzeTask d task).run = .ok (.ok r)) :
    ∃ t f, (Timing.compute d task.call .zero).run .absolute = .ok (.ok (), t) ∧
      ((visit d t (d.ops.size + 1) task.call none).run {}).run = .ok (.ok ((), f)) ∧
      r.spacing = f.limits.foldl (fun s l => s.max l.spacing) .zero := by
  simp only [analyzeTask, hb, if_true, query_bind_ok, query_lift_ok] at h
  obtain ⟨⟨timed, t⟩, ht, h⟩ := h
  cases timed with
  | error e =>
    cases h
  | ok u =>
    simp only [query_bind_ok, query_pure_ok] at h
    obtain ⟨⟨_, f⟩, hf, rfl⟩ := h
    exact ⟨t, f, ht, hf, rfl⟩

/-! ## Tasks aside

What the analysis of a task finds does not depend on the tasks of the design, so the spacings that are
recorded on the way do not matter. -/

section
variable (d : Design) (ts : Array Task)

theorem ownersFrom_tasks (n : Nat) (c : OpId) :
    ({ d with tasks := ts } : Design).ownersFrom n c = d.ownersFrom n c := by
  induction n generalizing c with
  | zero => rfl
  | succ n ih =>
    simp only [Design.ownersFrom, ih]
    rfl

theorem reject_tasks {α : Type} (c : OpId) (reason : Reason) :
    (({ d with tasks := ts } : Design).reject c reason : Query α) = d.reject c reason := by
  simp only [Design.reject, Design.malformed, Design.site, Design.ownerLabels, Design.owners, ownersFrom_tasks]
  rfl

theorem order_tasks (mod : OpId) : ({ d with tasks := ts } : Design).order mod = d.order mod := by
  simp only [Design.order, Design.orderBy, reject_tasks]
  rfl

theorem timeOne_tasks (ih : Timing.inside { d with tasks := ts } n = Timing.inside d n) (base : Latency) :
    Timing.timeOne { d with tasks := ts } (Timing.inside { d with tasks := ts } n) base =
      Timing.timeOne d (Timing.inside d n) base := by
  funext c
  simp only [Timing.timeOne, Timing.inputOf, reject_tasks, ih]
  rfl

theorem inside_tasks (n : Nat) : Timing.inside { d with tasks := ts } n = Timing.inside d n := by
  induction n with
  | zero => rfl
  | succ n ih =>
    funext mod base
    rw [Timing.inside_succ, Timing.inside_succ, order_tasks, timeOne_tasks d ts ih]

theorem span_tasks (t : Timing) (c : OpId) (outer : Option OpId) :
    span { d with tasks := ts } t c outer = span d t c outer := by
  cases outer with
  | none => simp only [span, reject_tasks]
  | some l =>
    simp only [span, reject_tasks]
    rfl

theorem visitOne_tasks (ih : visit { d with tasks := ts } t n = visit d t n) (outer : Option OpId) :
    visitOne { d with tasks := ts } t (visit { d with tasks := ts } t n) outer = visitOne d t (visit d t n)
      outer := by
  funext c
  simp only [visitOne, loop, access, span_tasks, reject_tasks, ih]
  rfl

theorem visit_tasks (t : Timing) (n : Nat) : visit { d with tasks := ts } t n = visit d t n := by
  induction n with
  | zero => rfl
  | succ n ih =>
    funext mod outer
    rw [visit_succ, visit_succ, order_tasks, visitOne_tasks d ts ih]

theorem analyzeTask_tasks (task : Task) : analyzeTask { d with tasks := ts } task = analyzeTask d task := by
  simp only [analyzeTask, Timing.compute, inside_tasks, visit_tasks, reject_tasks]
  rfl

end

section
variable {tasks : List Task}

/-! ## All tasks -/

theorem record_ok {e : Design} (h : (record task).run e = .ok (.ok r, e')) :
    (analyzeTask e task).run = .ok (.ok r) ∧
    e' = { e with tasks := editAt e.tasks task.id fun t => { t with goSpacing := r.spacing } } := by
  simp only [record, step_bind_ok, within_ok, passQuery_ok, ofBuild_ok] at h
  obtain ⟨r', _, ⟨hr, rfl⟩, _, _, hc, rfl, rfl⟩ := h
  refine ⟨hr, ?_⟩
  simp only [changeTask, StateT.run, bind_ok] at hc
  obtain ⟨_, -, hc⟩ := hc
  cases hc
  rfl

theorem records_ok (nodup : (tasks.map Task.id).Nodup) (here : ∀ task ∈ tasks, at? ts task.id = some task)
    (h : (tasks.mapM record).run { d with tasks := ts } = .ok (.ok rs, e')) :
    ∃ ts', e' = { d with tasks := ts' } ∧ (∀ i, i ∉ tasks.map Task.id → at? ts' i = at? ts i) ∧ ∀ task ∈ tasks,
      ∃ r, (analyzeTask d task).run = .ok (.ok r) ∧
      at? ts' task.id = some { task with goSpacing := r.spacing } := by
  induction tasks generalizing ts rs with
  | nil =>
    rw [mapM_nil, step_pure_ok] at h
    exact ⟨ts, h.2, fun _ _ => rfl, by simp⟩
  | cons task tasks ih =>
    simp only [mapM_cons, step_bind_ok] at h
    obtain ⟨r, e, hr, rs', e'', hrs, -, rfl⟩ := h
    obtain ⟨found, rfl⟩ := record_ok hr
    rw [analyzeTask_tasks] at found
    rw [map_cons, nodup_cons] at nodup
    rw [forall_mem_cons] at here
    -- the tasks to come are as they were
    have other : ∀ i, i ≠ task.id →
        at? (editAt ts task.id fun t => { t with goSpacing := r.spacing }) i = at? ts i := by
      intro i hi
      rw [at?_editAt, if_neg hi]
    obtain ⟨ts', e, rest, all⟩ := ih nodup.2 (fun k hk => by
      rw [other k.id fun e => nodup.1 (e ▸ mem_map_of_mem hk)]
      exact here.2 k hk) hrs
    refine ⟨ts', e, fun i hi => ?_, forall_mem_cons.mpr ⟨⟨r, found, ?_⟩, all⟩⟩
    · rw [map_cons, mem_cons, not_or] at hi
      rw [rest i hi.2, other i hi.1]
    · rw [rest _ nodup.1, at?_editAt, if_pos rfl, here.1]
      rfl

theorem analyze_ok (hd : WellFormed d) {d' : Design} (h : analyze.run d = .ok (.ok rs, d'))
    (hi : at? d.tasks i = some task) : ∃ r, (analyzeTask d task).run = .ok (.ok r) ∧
      at? d'.tasks i = some { task with goSpacing := r.spacing } := by
  obtain ⟨e, e', hg, h⟩ := step_bind_ok.mp h
  obtain ⟨rfl, rfl⟩ := step_get_ok.mp hg
  obtain ⟨ts, rfl, -, all⟩ := records_ok hd.taskIds.nodup (fun task hm => hd.taskIds.at?_of_mem hm) h
  obtain rfl := hd.taskIds i task hi
  exact all task (Array.mem_toList_iff.mpr (mem_of_at? hi))

theorem records_total (answers : ∀ task ∈ tasks, ∃ r, (analyzeTask d task).run = .ok (.ok r))
    (here : ∀ task ∈ tasks, ∃ t, at? ts task.id = some t) :
    ∃ rs d', (tasks.mapM record).run { d with tasks := ts } = .ok (.ok rs, d') := by
  induction tasks generalizing ts with
  | nil =>
    exact ⟨[], _, rfl⟩
  | cons task tasks ih =>
    rw [forall_mem_cons] at answers here
    obtain ⟨r, hr⟩ := answers.1
    obtain ⟨t, ht⟩ := here.1
    rw [← analyzeTask_tasks d ts] at hr
    have recorded : (record task).run { d with tasks := ts } =
        .ok (.ok r, { d with tasks := editAt ts task.id fun t => { t with goSpacing := r.spacing } }) := by
      simp only [record, step_bind_ok, within_ok, passQuery_ok, ofBuild_ok, step_pure_ok]
      refine ⟨r, _, ⟨hr, rfl⟩, (), _, ?_, rfl, rfl⟩
      simp only [changeTask, StateT.run, bind_ok]
      exact ⟨t, require_ok.mpr ht, rfl⟩
    have later : ∀ k ∈ tasks, ∃ t, at? (editAt ts task.id fun t => { t with goSpacing := r.spacing })
      k.id = some t := by
      intro k hk
      obtain ⟨t', ht'⟩ := here.2 k hk
      rw [at?_editAt, ht']
      split
      · exact ⟨_, rfl⟩
      · exact ⟨_, rfl⟩
    obtain ⟨rs, d', rest⟩ := ih answers.2 later
    refine ⟨r :: rs, d', ?_⟩
    simp only [mapM_cons, step_bind_ok, step_pure_ok]
    exact ⟨r, _, recorded, rs, d', rest, rfl, rfl⟩

theorem analyze_total (hd : WellFormed d)
    (answers : ∀ task ∈ d.tasks, ∃ r, (analyzeTask d task).run = .ok (.ok r)) :
    ∃ rs d', analyze.run d = .ok (.ok rs, d') := by
  obtain ⟨rs, d', h⟩ := records_total (d := d) (fun task ht => answers task (Array.mem_toList_iff.mp ht))
    fun task ht => ⟨task, hd.taskIds.at?_of_mem ht⟩
  exact ⟨rs, d', step_bind_ok.mpr ⟨d, d, rfl, h⟩⟩

/-- The analysis records the least safe spacing of every balanced task whose exits have bounds. -/
theorem recorded_spacing_least (hd : WellFormed d) {d' : Design} {rs : List Result}
    (h : analyze.run d = .ok (.ok rs, d')) {i : Int} {task : Task} (hi : at? d.tasks i = some task)
    (hb : task.balanced = true) (hx : ExitsBounded d task.call)
    (ho : ∀ t, (Timing.compute d task.call .zero).run .absolute = .ok (.ok (), t) →
      Timing.NoOverflow d task.call t) :
    ∃ g, at? d'.tasks i = some { task with goSpacing := g } ∧ SafeSpacing d task.call g.clocks.toInt ∧
      ∀ s, SafeSpacing d task.call s → g.clocks.toInt ≤ s := by
  obtain ⟨r, hr, e⟩ := analyze_ok hd h hi
  obtain ⟨t, f, ht, hf, spacing⟩ := analyzeTask_ok hb hr
  obtain ⟨as, walked⟩ := visit_walked hd hf
  have least := walked.least hd (Timing.compute_ok hd ht) hx (ho t ht)
  rw [← spacing] at least
  exact ⟨r.spacing, e, ((least _).mp (Int.le_refl _)).2, fun s hs => (least s).mpr ⟨hs.nonneg, hs⟩⟩

/-- A loop that reads a memory in its body and starts after an operation, and a write of the memory
after the loop. -/
def spacingCommands : List Command :=
  [.newResource .memory "m" false, .newTask "t" 0 0 .zero true, .newPrimitive .op 3 "p" 0 0 ⟨1, 2, 0⟩,
   .newLoop 3 "l" 0 0 ⟨2, 5, 0⟩, .newAccess .memoryRead 18 "r" 0 .one, .newAccess .memoryWrite 3 "w" 0 .one,
   .start 7 4, .start 23 6]

theorem loop_spacing_least :
    ∃ d d' rs task, runAll spacingCommands { name := "x" } = some d ∧ analyze.run d = .ok (.ok rs, d') ∧
      at? d.tasks 0 = some task ∧ at? d'.tasks 0 = some { task with goSpacing := ⟨6⟩ } ∧
      SafeSpacing d task.call 6 ∧ ∀ s, SafeSpacing d task.call s → 6 ≤ s := by
  obtain ⟨d, hd, rs, d', ha, task, hi, call, balanced, spacing, ⟨⟩, t, ht, small, bounded⟩ :
      ∃ d, runAll spacingCommands { name := "x" } = some d ∧ ∃ rs d', analyze.run d = .ok (.ok rs, d') ∧
      ∃ task, at? d.tasks 0 = some task ∧ task.call = 0 ∧ task.balanced = true ∧
      at? d'.tasks 0 = some { task with goSpacing := ⟨6⟩ } ∧
      ∃ u t, (Timing.compute d 0 .zero).run .absolute = .ok (.ok u, t) ∧ Timing.isSmall d t = true ∧
      ∀ x ∈ d.exits, x.latency.Valid ∧ x.latency.isOpen = false := by
    set_option synthInstance.maxSize 100000 in decide +kernel
  have wf := ((Built.empty "x").runAll hd).wellFormed
  have hx : ExitsBounded d task.call := fun _ hc hm => bounded _ (mem_of_at? (wf.exitsOf hc hm).2)
  obtain ⟨g, hg, safe, least⟩ := recorded_spacing_least wf ha hi balanced hx fun t' ht' => by
    rw [call, ht] at ht'
    cases ht'
    exact Timing.noOverflow_of_isSmall wf small
  rw [spacing] at hg
  simp only [Option.some.injEq, Task.mk.injEq, true_and] at hg
  have six : g.clocks.toInt = 6 := by rw [← hg]; decide
  rw [six] at safe least
  exact ⟨d, d', rs, task, hd, ha, hi, spacing, safe, least⟩

end

end Throughput

end Datapath
