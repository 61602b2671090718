import Datapath.Proofs.Layout
import Datapath.Proofs.RelativeTiming

/-!
# What the analysis of a loop body covers

An analysis that finds no conflict has compared all accesses it came to. It comes to every access inside
the block that the body runs, unless the access lies in a module that nothing starts. So only accesses
outside the block or in such a module collide unnoticed.
-/

namespace Datapath

open List

variable {d : Design} {start : Latency}

def Kind.isExclusive (k : Kind) : Bool := k.isAccess && k != .registerRead && k != .registerWrite

namespace Loop

/-! ## Walks that end well -/

def Compared (f : Found) : Prop :=
  f.conflicts = [] → ∀ s ∈ f.sightings, ∀ v ∈ f.sightings, s.key = v.key → (s.first && v.last) = false

structure Further (f g : Found) : Prop where
  sightings : ∀ s ∈ f.sightings, s ∈ g.sightings
  conflicts : g.conflicts = [] → f.conflicts = []
  compared : Compared f → Compared g

theorem Further.refl (f : Found) : Further f f := ⟨fun _ h => h, fun h => h, fun h => h⟩

theorem Further.trans (h1 : Further f g) (h2 : Further g k) : Further f k where
  sightings s hs := h2.sightings s (h1.sightings s hs)
  conflicts e := h1.conflicts (h2.conflicts e)
  compared c := h2.compared (h1.compared c)

structure Advances {α : Type} (p : FlopWalk α) : Prop where
  run : ∀ {f a g}, p.run f = .ok (.ok a, g) → Further f g

theorem advances_reading : Reading fun {_} p => Advances p where
  pure a := by
    constructor
    intro f _ g h
    rw [(step_pure_ok.mp h).2]
    exact .refl f
  bind hp hk := by
    constructor
    intro f _ g h
    obtain ⟨a, u, h, h'⟩ := step_bind_ok.mp h
    exact (hp.run h).trans ((hk a).run h')
  lift x := by
    constructor
    intro f _ g h
    rw [(step_lift_ok.mp h).2]
    exact .refl f
  stop why := by
    constructor
    intro f _ g h
    cases h

theorem collide_ok {head tail : Sighting} (h : (collide d failFast head tail).run f = .ok (.ok (), g)) :
    g.sightings = f.sightings ∧ g.conflicts ≠ [] := by
  obtain ⟨_, u, hu, h⟩ := step_bind_ok.mp h
  cases step_modify_ok.mp hu
  split at h
  · obtain ⟨_, _, -, h⟩ := step_bind_ok.mp h
    exact absurd h throw_not_ok
  · rw [(step_pure_ok.mp h).2]
    exact ⟨rfl, addConflict_ne_nil _ _ _⟩

def Sighting.apart (s v : Sighting) : Bool := !(v.first && s.last) && !(s.first && v.last)

theorem confront_ok {vs : List Sighting} (h : (vs.forM fun v => do
      if v.first && s.last then collide d failFast v s
      else if s.first && v.last then collide d failFast s v : FlopWalk PUnit).run f = .ok (.ok (), g)) :
    g.sightings = f.sightings ∧ (g.conflicts = [] → f.conflicts = [] ∧ ∀ v ∈ vs, s.apart v = true) := by
  induction vs generalizing f with
  | nil =>
    rw [(step_pure_ok.mp h).2]
    exact ⟨rfl, fun none => ⟨none, nofun⟩⟩
  | cons v vs ih =>
    obtain ⟨_, u, hu, h⟩ := step_bind_ok.mp h
    obtain ⟨same, clear⟩ := ih h
    rw [same]
    have one : u.sightings = f.sightings ∧ (u.conflicts = [] → f.conflicts = [] ∧ s.apart v = true) := by
      dsimp only at hu
      split at hu
      · obtain ⟨same, some⟩ := collide_ok hu
        exact ⟨same, fun none => absurd none some⟩
      split at hu
      · obtain ⟨same, some⟩ := collide_ok hu
        exact ⟨same, fun none => absurd none some⟩
      next h1 h2 =>
        rw [(step_pure_ok.mp hu).2]
        exact ⟨rfl, fun none => ⟨none, by simp [Sighting.apart, h1, h2]⟩⟩
    refine ⟨one.1, fun none => ?_⟩
    obtain ⟨none, rest⟩ := clear none
    obtain ⟨none, first⟩ := one.2 none
    exact ⟨none, forall_mem_cons.mpr ⟨first, rest⟩⟩

theorem meet_ok (h : (meet d failFast s).run f = .ok (.ok (), g)) : g.sightings = f.sightings ++ [s] ∧
      (g.conflicts = [] → f.conflicts = [] ∧ ∀ v ∈ f.sightings, v.key = s.key → s.apart v = true) := by
  obtain ⟨_, _, hf, rest⟩ := step_bind_ok.mp h
  obtain ⟨rfl, rfl⟩ := step_get_ok.mp hf
  obtain ⟨_, u, hu, join⟩ := step_bind_ok.mp rest
  obtain ⟨same, clear⟩ := confront_ok hu
  cases step_modify_ok.mp join
  refine ⟨by rw [same], fun none => ?_⟩
  obtain ⟨none, all⟩ := clear none
  exact ⟨none, fun v hv key => all v (mem_filter.mpr ⟨hv, by simpa using key⟩)⟩

theorem further_of_joined (joined : g.sightings = f.sightings ++ [s])
    (none : g.conflicts = [] → f.conflicts = [] ∧ ∀ v ∈ g.sightings, v.key = s.key → s.apart v = true) :
    Further f g where
  sightings v hv := by
    rw [joined]
    exact mem_append_left _ hv
  conflicts e := (none e).1
  compared old := by
    intro e v hv w hw key
    obtain ⟨e, apart⟩ := none e
    simp only [Sighting.apart, Bool.and_eq_true, Bool.not_eq_true'] at apart
    have cases : ∀ {v}, v ∈ g.sightings → v ∈ f.sightings ∨ v = s := by
      intro v hv
      rw [joined] at hv
      simpa using hv
    rcases cases hv with hv' | rfl
    · rcases cases hw with hw' | rfl
      · exact old e v hv' w hw' key
      · exact (apart v hv key).1
    · exact (apart w hw key.symm).2

structure Steady {α : Type} (p : FlopWalk α) : Prop where
  run : ∀ {f r g}, p.run f = .ok (r, g) → ∀ f', p.run f' = .ok (r, f')

theorem steady_reading : Reading fun {_} p => Steady p where
  pure a := by
    constructor
    intro f r g h f'
    exact step_pure_run.mpr ⟨(step_pure_run.mp h).1, rfl⟩
  bind hp hk := by
    constructor
    intro f r g h f'
    rcases step_bind_run.mp h with ⟨e, he, rfl⟩ | ⟨a, u, ha, rest⟩
    · exact step_bind_run.mpr (.inl ⟨e, hp.run he f', rfl⟩)
    · exact step_bind_run.mpr (.inr ⟨a, f', hp.run ha f', (hk a).run rest f'⟩)
  lift x := by
    constructor
    intro f r g h f'
    obtain ⟨a, ha, hr, -⟩ := step_lift_run.mp h
    exact step_lift_run.mpr ⟨a, ha, hr, rfl⟩
  stop why := by
    constructor
    intro f r g h f'
    exact step_throw_run.mpr ⟨(step_throw_run.mp h).1, rfl⟩

/-- A walk has noted the operation if that is in the first or in the last cycle. -/
def Marks (d : Design) (t : Timing) (c : OpId) (key : Key) (early late start : Latency) (path : List OpId)
    (f : Found) : Prop :=
  ∃ last, (isLast d t path.reverse c late).run {} = .ok (.ok last, {}) ∧
    ((early.after start).min = 0 ∨ last = true →
    { key, access := c, path, first := (early.after start).min == 0, last } ∈ f.sightings)

theorem Marks.further (h : Marks d t c key early late start path f) (on : Further f g) :
    Marks d t c key early late start path g := by
  obtain ⟨last, hl, noted⟩ := h
  exact ⟨last, hl, fun either => on.sightings _ (noted either)⟩

theorem mark_ok (h : (mark d t failFast c key early late start path).run f = .ok (.ok (), g)) :
    Further f g ∧ Marks d t c key early late start path g := by
  obtain ⟨last, u, hl, rest⟩ := step_bind_ok.mp h
  obtain rfl := (still_reading.isLast _ _ _).run hl
  suffices Further u g ∧ ((early.after start).min = 0 ∨ last = true →
      { key, access := c, path, first := (early.after start).min == 0, last } ∈ g.sightings) from
    ⟨this.1, last, (steady_reading.isLast _ _ _).run hl {}, this.2⟩
  generalize hs : ({ key, access := c, path, first := (early.after start).min == 0, last } : Sighting) = s at rest
  have first : (early.after start).min = 0 ↔ s.first = true := by rw [← hs]; simp
  have last : last = s.last := by rw [← hs]
  rw [first, last]
  dsimp only at rest
  split at rest
  next neither =>
    rw [(step_pure_ok.mp rest).2]
    simp only [Bool.and_eq_true, Bool.not_eq_true'] at neither
    exact ⟨.refl u, fun either => by simp [neither] at either⟩
  split at rest
  next both =>
    obtain ⟨_, w, hw, join⟩ := step_bind_ok.mp rest
    obtain ⟨-, clash⟩ := collide_ok hw
    obtain ⟨joined, clear⟩ := meet_ok join
    rw [(collide_ok hw).1] at joined
    refine ⟨further_of_joined joined fun e => absurd (clear e).1 clash, fun _ => ?_⟩
    rw [joined]
    simp
  next one =>
    obtain ⟨joined, clear⟩ := meet_ok rest
    refine ⟨further_of_joined joined fun e => ⟨(clear e).1, ?_⟩, fun _ => by rw [joined]; simp⟩
    intro v hv key
    rw [joined, mem_append, mem_singleton] at hv
    rcases hv with hv | rfl
    · exact (clear e).2 v hv key
    · simp [Sighting.apart, one]

section
variable {visit : FlopVisit} (hv : ∀ c start path, Advances (visit c start path))
include hv

theorem advances_dive (m : OpId) (start : Latency) (path : List OpId) : Advances (dive d t visit m start path) := by
  apply advances_reading.bind (advances_reading.lift _)
  intro p
  apply advances_reading.bind (advances_reading.lift _)
  intro deps
  split
  · exact advances_reading.pure _
  · exact advances_reading.bind (advances_reading.inputAt m) fun _ => advances_reading.forM (fun c => hv c _ _) _

theorem advances_component (c : OpId)
    (start : Latency) (path : List OpId) : Advances (flopComponent d t failFast visit c start path) := by
  have mark : ∀ {key early late}, Advances (mark d t failFast c key early late start path) :=
    ⟨fun h => (mark_ok h).1⟩
  have stop : ∀ k : Option Label → Cause, Advances (liftM (d.label c) >>= fun l =>
      throw (.notAnalyzable (k l)) : FlopWalk Unit) :=
    fun _ => advances_reading.bind (advances_reading.lift _) fun _ => advances_reading.stop _
  apply advances_reading.bind (advances_reading.lift _)
  intro o
  split
  iterate 2 exact advances_reading.bind (advances_reading.inputAt c) fun _ => mark
  iterate 4
    apply advances_reading.bind (advances_reading.inputAt c)
    exact fun _ => advances_reading.bind (advances_reading.doneAt c) fun _ => mark
  iterate 2 exact advances_reading.pure _
  · apply advances_reading.bind (advances_reading.inputAt c)
    intro early
    apply advances_reading.bind (advances_reading.doneAt c)
    exact fun late => advances_reading.bind mark fun _ => advances_dive hv ..
  · exact stop .taskCall
  · split
    · exact advances_dive hv ..
    split
    · exact stop .unexpected
    · exact advances_reading.pure _

end

theorem advances_visit (n : Nat) (c : OpId) (start : Latency) (path : List OpId) :
    Advances (flopVisit d t failFast n c start path) := by
  induction n generalizing c start path with
  | zero => exact ⟨nofun⟩
  | succ n ih => exact advances_component ih c start path

/-! ## Every access on the way is seen -/

theorem forM_visits {cs : List OpId}
    (h : (cs.forM fun c => flopVisit d t failFast n c start path : FlopWalk PUnit).run f = .ok (.ok (), g))
    (hc : c ∈ cs) :
    ∃ f' g', (flopVisit d t failFast n c start path).run f' = .ok (.ok (), g') ∧ Further g' g := by
  induction cs generalizing f with
  | nil => cases hc
  | cons a cs ih =>
    obtain ⟨_, u, hu, rest⟩ := step_bind_ok.mp h
    rcases mem_cons.mp hc with rfl | hc
    · exact ⟨f, u, hu, (advances_reading.forM (fun c => advances_visit n c start path) cs).run rest⟩
    · exact ih rest hc

theorem dive_ok (h : (dive d t visit m start path).run f = .ok (.ok (), g)) (hm : d.op? m = some p)
    (driven : d.portDeps p.go ≠ .ok []) (hi : t.input? m = some input) :
    (p.children.forM fun c => visit c (input.after start) (path ++ [m]) : FlopWalk PUnit).run f =
      .ok (.ok (), g) := by
  simp only [dive, step_bind_ok, step_lift_ok] at h
  obtain ⟨p', _, ⟨hp', rfl⟩, deps, _, ⟨hdeps, rfl⟩, h⟩ := h
  cases hm.symm.trans (op_ok hp')
  split at h
  next none =>
    rw [List.isEmpty_iff] at none
    exact absurd (none ▸ hdeps) driven
  · unfold inputAt at h
    rw [hi] at h
    exact h

theorem component_dives
    (h : (flopComponent d t failFast visit m start path).run f = .ok (.ok (), g)) (hm : d.op? m = some p)
    (inline : p.kind.isInlineModule = true) : ∃ f', (dive d t visit m start path).run f' = .ok (.ok (), g) := by
  obtain ⟨p', u, hp', h⟩ := step_bind_ok.mp h
  cases hm.symm.trans (op_ok (step_lift_ok.mp hp').1)
  split at h
  case h_9 =>
    simp only [step_bind_ok] at h
    obtain ⟨-, -, -, -, -, -, -, v, -, h⟩ := h
    exact ⟨v, h⟩
  case h_11 =>
    rw [if_pos (Bool.and_eq_true_iff.mp inline).1] at h
    exact ⟨u, h⟩
  all_goals simp_all [Kind.isInlineModule, Kind.isModule]

/-- When an access starts and when it is over. One of a memory takes the clock in which it starts, and one of
a fifo or a pin those up to its completion. -/
structure Spans (d : Design) (t : Timing) (c : OpId) (o : Operation) (early late : Latency) : Prop where
  access : o.kind.isExclusive = true
  input : t.input? c = some early
  ends : if o.kind = .memoryRead ∨ o.kind = .memoryWrite then late = early else t.done? d c = .ok (some late)

theorem late_unique {t : Timing} {o : Operation}
    (h : if o.kind = .memoryRead ∨ o.kind = .memoryWrite then late = early else t.done? d c = .ok (some late))
    (h' : if o.kind = .memoryRead ∨ o.kind = .memoryWrite then late' = early else t.done? d c = .ok (some late')) :
    late = late' := by
  by_cases memory : o.kind = .memoryRead ∨ o.kind = .memoryWrite
  · rw [if_pos memory] at h h'
    rw [h, h']
  · rw [if_neg memory] at h h'
    exact Option.some.inj (Except.ok.inj (h.symm.trans h'))

theorem Spans.unique (h : Spans d t c o early late)
    (h' : Spans d t c o early' late') : early = early' ∧ late = late' := by
  obtain rfl := Option.some.inj (h.input.symm.trans h'.input)
  exact ⟨rfl, late_unique h.ends h'.ends⟩

theorem inputAt_ok (h : (inputAt d t c).run f = .ok (.ok l, g)) : t.input? c = some l ∧ g = f := by
  unfold inputAt at h
  split at h
  next hl =>
    cases h
    exact ⟨hl, rfl⟩
  · exact absurd h throw_not_ok

theorem doneAt_ok (h : (doneAt d t c).run f = .ok (.ok l, g)) : t.done? d c = .ok (some l) ∧ g = f := by
  simp only [doneAt, step_bind_ok, step_lift_ok] at h
  obtain ⟨done, _, ⟨hdone, rfl⟩, h⟩ := h
  split at h
  · cases h
    exact ⟨hdone, rfl⟩
  · exact absurd h throw_not_ok

theorem component_marks
    (h : (flopComponent d t failFast visit c start path).run f = .ok (.ok (), g)) (ho : d.op? c = some o)
    (access : o.kind.isExclusive = true) : ∃ early late, Spans d t c o early late ∧
      (mark d t failFast c (.resource o.resource) early late start path).run f = .ok (.ok (), g) := by
  simp only [flopComponent, step_bind_ok, step_lift_ok] at h
  obtain ⟨o', _, ⟨ho', rfl⟩, h⟩ := h
  cases ho.symm.trans (op_ok ho')
  split at h
  case h_1 hk | h_2 hk =>
    obtain ⟨early, u, start, marked⟩ := step_bind_ok.mp h
    obtain ⟨input, rfl⟩ := inputAt_ok start
    exact ⟨early, early, ⟨access, input, by simp [hk]⟩, marked⟩
  case h_3 hk | h_4 hk | h_5 hk | h_6 hk =>
    obtain ⟨early, u, start, rest⟩ := step_bind_ok.mp h
    obtain ⟨input, rfl⟩ := inputAt_ok start
    obtain ⟨late, v, stop, marked⟩ := step_bind_ok.mp rest
    obtain ⟨done, rfl⟩ := doneAt_ok stop
    exact ⟨early, late, ⟨access, input, by simpa [hk] using done⟩, marked⟩
  all_goals simp_all [Kind.isExclusive, Kind.isAccess, Kind.isRead, Kind.isWrite]

theorem Visited.run (hb : d.op? block = some b)
    (walk : (b.children.forM fun c => flopVisit d t failFast n c .zero [block] : FlopWalk PUnit).run f =
        .ok (.ok (), k)) (h : Visited d t block c start path) :
    ∃ n f g, (flopVisit d t failFast n c start path).run f = .ok (.ok (), g) ∧ Further g k := by
  induction h with
  | child hb' hc =>
    cases hb.symm.trans hb'
    exact ⟨n, forM_visits walk hc⟩
  | deeper _ hm inline driven hi hc ih =>
    obtain ⟨n, f, g, visit, kept⟩ := ih
    cases n with
    | zero => cases visit
    | succ n =>
      obtain ⟨f', dive⟩ := component_dives visit hm inline
      obtain ⟨f', g', visit, kept'⟩ := forM_visits (dive_ok dive hm driven hi) hc
      exact ⟨n, f', g', visit, kept'.trans kept⟩

theorem Visited.seen (hb : d.op? block = some b)
    (walk : (b.children.forM fun c => flopVisit d t failFast n c .zero [block] : FlopWalk PUnit).run f =
        .ok (.ok (), k)) (h : Visited d t block c start path) (ho : d.op? c = some o)
    (access : o.kind.isExclusive = true) :
    ∃ early late, Spans d t c o early late ∧ Marks d t c (.resource o.resource) early late start path k := by
  obtain ⟨n, f, g, visit, kept⟩ := h.run hb walk
  cases n with
  | zero => cases visit
  | succ n =>
    obtain ⟨early, late, spans, marked⟩ := component_marks visit ho access
    exact ⟨early, late, spans, (mark_ok marked).2.further kept⟩

/-! ## Where the walk comes to -/

/-- The modules around an operation of a block, from the block to the innermost. -/
inductive Around (d : Design) (block : OpId) : OpId → List OpId → Prop where
  | child {b : Operation} {c : OpId} (hb : d.op? block = some b) (hc : c ∈ b.children) : Around d block c [block]
  | deeper {m c : OpId} {p : Operation} {path : List OpId} (h : Around d block m path) (hm : d.op? m = some p)
      (inline : p.kind.isInlineModule = true) (hc : c ∈ p.children) : Around d block c (path ++ [m])

def Dormant (d : Design) (block c : OpId) : Prop :=
  ∃ m p, Nested d block m ∧ d.op? m = some p ∧ Nested d m c ∧ d.portDeps p.go = .ok []

def isAround (d : Design) (block : OpId) : List OpId → OpId → Bool
  | [], _ => false
  | m :: rest, c => (d.op? m).any fun p => p.children.contains c &&
      (rest.isEmpty && m == block || p.kind.isInlineModule && isAround d block rest m)

theorem around_of_isAround (h : isAround d block path c = true) : Around d block c path.reverse := by
  induction path generalizing c with
  | nil => cases h
  | cons m rest ih =>
    simp only [isAround, Option.any_eq_true, Bool.and_eq_true, contains_eq_mem, decide_eq_true_eq,
      Bool.or_eq_true, List.isEmpty_iff, beq_iff_eq] at h
    obtain ⟨p, hp, hc, ⟨rfl, rfl⟩ | ⟨inline, around⟩⟩ := h
    · exact .child hp hc
    · rw [reverse_cons]
      exact (ih around).deeper hp inline hc

theorem Around.nested (h : Around d block c path) : Nested d block c := by
  induction h with
  | child hb hc => exact .child hb hc
  | deeper _ hm inline hc ih => exact .deeper ih hm inline hc

theorem around_of_nested (h : Nested d block c) : ∃ path, Around d block c path := by
  induction h with
  | child hb hc => exact ⟨[block], .child hb hc⟩
  | deeper _ hm inline hc ih =>
    obtain ⟨path, around⟩ := ih
    exact ⟨_, around.deeper hm inline hc⟩

theorem not_dormant_of_child (hd : WellFormed d) (hb : d.op? block = some b)
    (hc : c ∈ b.children) : ¬ Dormant d block c := by
  rintro ⟨m, p, hm, -, inside, -⟩
  obtain ⟨o, ho, rfl⟩ := hd.child hb hc
  rcases inside.owner hd ho with e | ⟨outside, -⟩
  · exact Int.lt_irrefl _ (e ▸ hm.lt hd)
  · exact Int.lt_asymm (hm.lt hd) (outside.lt hd)

theorem Around.visited_or_dormant (timed : ∀ m, Nested d block m → ∃ l, t.input? m = some l)
    (h : Around d block c path) : (∃ start, Visited d t block c start path) ∨ Dormant d block c := by
  induction h with
  | child hb hc => exact .inl ⟨.zero, .child hb hc⟩
  | @deeper m c p path around hm inline hc ih =>
    rcases ih with ⟨start, visited⟩ | ⟨k, q, hk, hq, inside, none⟩
    · by_cases driven : d.portDeps p.go = .ok []
      · exact .inr ⟨m, p, around.nested, hm, .child hm hc, driven⟩
      · obtain ⟨input, hi⟩ := timed m around.nested
        exact .inl ⟨_, visited.deeper hm inline driven hi hc⟩
    · exact .inr ⟨k, q, hk, hq, inside.deeper hm inline hc, none⟩

end Loop

/-! ## Runs seen from inside -/

theorem CanStart.sub {s : Int} (h : CanStart kind outer arrivals s) (n : Int) :
    CanStart kind (outer - n) (arrivals.map (· - n)) (s - n) := by
  unfold CanStart at h ⊢
  simp only [map_eq_nil_iff]
  split
  next none =>
    rw [if_pos none] at h
    rw [h]
  next some =>
    rw [if_neg some] at h
    split
    next mux =>
      rw [if_pos mux] at h
      exact mem_map_of_mem h
    next other =>
      rw [if_neg other] at h
      refine ⟨mem_map_of_mem h.1, ?_⟩
      rintro a ha
      obtain ⟨b, hb, rfl⟩ := mem_map.mp ha
      exact Int.sub_le_sub_right (h.2 b hb) n

def Run.since (r : Run) (n : Int) : Run := ⟨fun c => r.start c - n, r.delay⟩

namespace Timing

theorem arrival_since (r : Run) (n : Int) (hg : Timed d outer base g) (hn : Nested d outer c)
    (hd : WellFormed d) (ho : d.op? c = some o) :
    (forwardDeps d o).map ((r.since n).arrival d) = ((forwardDeps d o).map (r.arrival d)).map (· - n) := by
  rw [map_map]
  apply map_congr_left
  intro v hv
  obtain ⟨l, hl⟩ := hg.input (.inr hn)
  rcases hg.trace.start_of_mem (mem_of_lookup hl) with ⟨rfl, -⟩ | ⟨o', _, _, -, ho', -, driven, -⟩
  · exact absurd (hn.lt hd) (Int.lt_irrefl _)
  cases ho.symm.trans ho'
  obtain ⟨bus, x, _, hb, hx, -⟩ := driven v hv
  simp only [Run.arrival, Run.busTime, hb, hx, Run.since, Function.comp_apply]
  omega

/-- In the earliest run of a module, everything inside an inner module is as early as it can be, counted from the
start of that one. -/
theorem IsEarliest.since {outer inner : OpId} (hd : WellFormed d) (hg : Timed d outer base g)
  (hr : IsEarliest d outer base r)
    (hn : Nested d outer inner) (hm : d.op? inner = some m) (inline : m.kind.isInlineModule = true) :
    IsEarliest d inner .zero (r.since (r.start inner)) := by
  have exits : ∀ {x}, FlowExit d inner x → FlowExit d outer x := by
    rintro x ⟨flow, c, o, hc, ho, hx⟩
    exact ⟨flow, c, o, hn.trans hm inline hc, ho, hx⟩
  have zero : (r.since (r.start inner)).start inner = Latency.zero.min.toInt := Int.sub_self _
  refine ⟨⟨?_, fun hx => hr.delays (exits hx), ?_⟩, zero, fun hx => hr.delay_eq (exits hx), ?_⟩
  · rw [zero]
    exact ⟨Int.le_refl _, fun _ => by decide⟩
  · intro c o hc ho
    have hc := hn.trans hm inline hc
    rw [arrival_since r _ hg hc hd ho]
    exact (hr.starts hc ho).sub _
  · intro c o hc ho mux a ha
    have hc := hn.trans hm inline hc
    rw [arrival_since r _ hg hc hd ho] at ha
    obtain ⟨b, hb, rfl⟩ := mem_map.mp ha
    exact Int.sub_le_sub_right (hr.mux hc ho mux b hb) _

theorem Timed.starts_inner {outer inner : OpId} (hd : WellFormed d) (hx : ∀ x ∈ d.exits, x.latency.Valid)
  (hg : Timed d outer .zero g)
    (hu : Timed d inner .zero u) (og : NoOverflow d outer g) (ou : NoOverflow d inner u) (hn : Nested d outer inner)
    (hp : d.op? inner = some p) (inline : p.kind.isInlineModule = true)
    (hl : g.input? c = some l) (hk : u.input? c = some k) (zero : l.min = 0) : k.min = 0 := by
  have valid : ∀ {mod x}, FlowExit d mod x → x.latency.Valid := fun flow => hx _ (mem_of_at? (flow.exit hd).2)
  obtain ⟨r, hr⟩ := hg.exists_earliest hd (by decide) valid
  obtain ⟨outside, -⟩ := hg.earliest hd (by decide) valid og hr
  have inside := (hu.earliest hd (by decide) valid ou (hr.since hd hg hn hp inline)).1 hk
  have later : k.min.toInt = r.start c - r.start inner := inside
  obtain ⟨m, hm⟩ := hg.input (.inr hn)
  have := outside hl
  have := outside hm
  have := ((hg.valid hd (by decide) valid og).1 hm).1
  have := ((hu.valid hd (by decide) valid ou).1 hk).1
  have : l.min.toInt = 0 := by rw [zero]; rfl
  exact Int64.toInt_inj.mp (show k.min.toInt = 0 by omega)

/-- No sum in a timing of the module is larger than a word, wherever it counts from. -/
def Exact (d : Design) (mod : OpId) : Prop :=
  ∀ init ∈ [relative, absolute], ∀ t, (compute d mod .zero).run init = .ok (.ok (), t) → NoOverflow d mod t

def isExact (d : Design) (mod : OpId) : Bool :=
  [relative, absolute].all fun init => match (compute d mod .zero).run init with
    | .ok (.ok (), t) => isSmall d t
    | _ => true

theorem exact_of_isExact (hd : WellFormed d) (h : isExact d mod = true) : Exact d mod := by
  intro init hi t ht
  have small := all_eq_true.mp h init hi
  rw [ht] at small
  exact noOverflow_of_isSmall hd small

end Timing

namespace Loop

open Timing

structure InFirstCycle (d : Design) (g : Timing) (body : OpId) (r : ResId) (c : OpId) : Prop where
  inside : Nested d body c
  starts : ∃ l, g.input? c = some l ∧ l.min = 0
  access : ∃ o, d.op? c = some o ∧ o.resource = r ∧ o.kind.isExclusive = true

def InLastCycle (d : Design) (t : Timing) (block : OpId) (r : ResId) (c : OpId) : Prop :=
  ∃ o path early late, Around d block c path ∧ d.op? c = some o ∧ o.resource = r ∧ Spans d t c o early late ∧
    (isLast d t path.reverse c late).run {} = .ok (.ok true, {})

theorem not_both_visited {head tail : OpId} (hb : d.op? block = some b)
    (walk : (b.children.forM fun c => flopVisit d t failFast n c .zero [block] : FlopWalk PUnit).run {} =
      .ok (.ok (), found)) (none : found.conflicts = [])

    (hh : Visited d t block head start path) (ht : Visited d t block tail start' path') (ho : d.op? head = some o)
    (hq : d.op? tail = some q) (same : o.resource = q.resource) (access : o.kind.isExclusive = true)
    (he : t.input? head = some early) (first : (early.after start).min = 0)
      (spans : Spans d t tail q early' late') :
    (isLast d t path'.reverse tail late').run {} ≠ .ok (.ok true, {}) := by
  intro last
  obtain ⟨_, _, spans1, _, -, noted⟩ := hh.seen hb walk ho access
  obtain ⟨_, _, spans2, last', hl, noted'⟩ := ht.seen hb walk hq spans.access
  cases he.symm.trans spans1.input
  obtain ⟨rfl, rfl⟩ := spans.unique spans2
  cases hl.symm.trans last
  have compared :=
    ((advances_reading.forM (fun c => advances_visit n c .zero [block]) b.children).run walk).compared
    (fun _ s hs => nomatch hs)
  have apart := compared none _ (noted (.inl first)) _ (noted' (.inr rfl)) (by rw [same])
  simp [first] at apart

/-- If the registers of a loop can go, an access that may start with the body and one of the same resource in
the last cycle of the block collide only where the analysis does not come to: the first one lies outside the
block, or one of them in a module that nothing starts. -/
theorem collisions_only_off_the_walk {head tail : OpId} (built : Built d) (flows : FlowsLocally d)
    (hx : ∀ x ∈ d.exits, x.latency.Valid) {body : OpId} {bd : Operation} {failFast : Bool} {report : FlopReport}
    (hbd : d.op? body = some bd) (ran : (analyze d body failFast).run = .ok (.ok report))
    (free : report.removable = true) (hg : (compute d body .zero).run .absolute = .ok (.ok (), g))
    (ht : (compute d bd.body .zero).run .relative = .ok (.ok (), t)) (eb : Exact d body) (ec : Exact d bd.body)
    {r : ResId} (first : InFirstCycle d g body r head) (last : InLastCycle d t bd.body r tail) :
    ¬ Nested d bd.body head ∨ Dormant d bd.body head ∨ Dormant d bd.body tail := by
  have hd := built.wellFormed
  by_contra all
  simp only [not_or, not_not] at all
  obtain ⟨inside, awake, awake'⟩ := all
  obtain ⟨block, found, walks, none⟩ := walks_of_removable ran free
  obtain ⟨⟨bd', hbd', loop, ne, rfl⟩, b, x, t', hb, -, -, ht', walk⟩ := walks
  cases hbd.symm.trans hbd'
  cases ht.symm.trans ht'
  -- the block lies in the body, and its accesses start by so much later as it does
  obtain ⟨b', hb', place⟩ := view_some.mp (built.laid.body hbd loop ne)
  cases hb.symm.trans hb'
  have kind : b.kind = .block := congrArg Prod.fst place
  have owner : b.owner = body := congrArg Prod.snd place
  obtain ⟨bd'', hbd'', child⟩ := hd.mem_children hb (owner ▸ ne_absent hbd)
  rw [owner] at hbd''
  cases hbd.symm.trans hbd''
  obtain ⟨u, hu⟩ := (compute_abreast hd hb).succeeds_iff.mp ⟨t, ht⟩
  have eu : NoOverflow d bd.body u := ec _ (by simp) u hu
  have eg : NoOverflow d body g := eb _ (by simp) g hg
  have comparable := comparable_of_computed hd flows hx hb (by decide) ht hu (ec _ (by simp) t ht) eu
  have timed : ∀ m, Nested d bd.body m → ∃ l, t.input? m = some l := by
    intro m hm
    obtain ⟨o, ho⟩ := hm.exists_op hd
    obtain ⟨-, k, -, -, hk, -⟩ := comparable.input hm ho
    exact ⟨k, hk⟩
  obtain ⟨q, path', early', late', around, hq, rfl, spans, ends⟩ := last
  obtain ⟨path, around'⟩ := around_of_nested inside
  obtain ⟨start, visited⟩ := (around'.visited_or_dormant timed).resolve_right awake
  obtain ⟨start', visited'⟩ := (around.visited_or_dormant timed).resolve_right awake'
  obtain ⟨o, ho, same, access⟩ := first.access
  obtain ⟨l, hl, zero⟩ := first.starts
  obtain ⟨early, k, he, hk, sum⟩ := visited.early_eq comparable
  have early_zero : (early.after start).min = 0 := by
    rw [sum]
    exact (compute_ok hd hg).starts_inner hd hx comparable.timed eg eu (.child hbd child) hb (by rw [kind]; rfl)
      hl hk zero
  exact not_both_visited hb walk none visited visited' ho hq same access he early_zero spans ends

def Unnoticed (d : Design) (body block head tail : OpId) : Prop :=
  ∃ report g t r, (analyze d body false).run = .ok (.ok report) ∧ report.removable = true ∧
    (compute d body .zero).run .absolute = .ok (.ok (), g) ∧
    (compute d block .zero).run .relative = .ok (.ok (), t) ∧ InFirstCycle d g body r head ∧
    InLastCycle d t block r tail

/-- Two reads of a memory that collide without being noticed. The paths lead from the reads to the body and
to its block. -/
def Overlooked (d : Design) (body block head tail : OpId) (headPath tailPath : List OpId) : Prop :=
  ∃ report, (analyze d body false).run = .ok (.ok report) ∧ report.removable = true ∧
    ∃ u g, (compute d body .zero).run .absolute = .ok (.ok u, g) ∧
    ∃ u t, (compute d block .zero).run .relative = .ok (.ok u, t) ∧
    isAround d body headPath head = true ∧ isAround d block tailPath tail = true ∧
    ∃ o, d.op? head = some o ∧ o.kind = .memoryRead ∧ ∃ q, d.op? tail = some q ∧ q.kind = .memoryRead ∧
    o.resource = q.resource ∧ (∃ l, g.input? head = some l ∧ l.min = 0) ∧ ∃ late, t.input? tail = some late ∧
    ∃ last found, (isLast d t tailPath tail late).run {} = .ok (.ok last, found) ∧ last = true

set_option synthInstance.maxSize 500 in
instance {head tail : OpId} {headPath tailPath : List OpId} :
  Decidable (Overlooked d body block head tail headPath tailPath) := by
  unfold Overlooked
  infer_instance

theorem Overlooked.unnoticed {head tail : OpId}
    (h : Overlooked d body block head tail headPath tailPath) : Unnoticed d body block head tail := by
  obtain ⟨report, ran, free, _, g, hg, _, t, ht, around, around', o, ho, ok, q, hq, qk, same, ⟨l, hl, zero⟩, late,
    hlate, _, _, last, rfl⟩ := h
  obtain rfl := (still_reading.isLast _ _ _).run last
  refine ⟨report, g, t, q.resource, ran, free, hg, ht, ⟨(around_of_isAround around).nested, ⟨l, hl, zero⟩, o, ho,
    same, by rw [ok]; rfl⟩, q, _, late, late, around_of_isAround around', hq, rfl,
    ⟨by rw [qk]; rfl, hlate, by simp [qk]⟩, ?_⟩
  rw [reverse_reverse]
  exact last

def decisionCommands : List Command :=
  [.newResource .memory "x" false, .newLoop absent "l" 0 0 .zero, .setLatency 11 .one,
   .newAccess .memoryRead 7 "a" 0 .zero, .newPrimitive .op 11 "p" 0 0 .one, .newAccess .memoryRead 11 "c" 0 .zero,
   .start 17 15, .finish 11 .done 17]

def dormantCommands : List Command :=
  [.newResource .memory "x" false, .newLoop absent "l" 0 0 .zero, .setLatency 11 .one, .newBlock 11 "n" 0 0 .zero,
   .newAccess .memoryRead 15 "a" 0 .zero, .newPrimitive .op 11 "p" 0 0 .one, .newAccess .memoryRead 11 "c" 0 .zero,
   .start 20 17, .finish 11 .done 20]

/-- The analysis takes no notice of accesses in the decision and in modules that nothing starts. -/
theorem first_cycle_unnoticed :
    (∃ d, runAll decisionCommands { name := "x" } = some d ∧ Unnoticed d 3 11 15 17 ∧ Nested d 7 15) ∧
    ∃ d, runAll dormantCommands { name := "x" } = some d ∧ Unnoticed d 3 11 18 20 ∧ Nested d 15 18 ∧
      ∃ o, d.op? 15 = some o ∧ d.portDeps o.go = .ok [] := by
  obtain ⟨d, hd, collide, inside⟩ : ∃ d, runAll decisionCommands { name := "x" } = some d ∧
      Overlooked d 3 11 15 17 [7, 3] [11] ∧ isAround d 7 [7] 15 = true := by
    decide +kernel
  obtain ⟨e, he, collide', inside', none⟩ : ∃ d, runAll dormantCommands { name := "x" } = some d ∧
      Overlooked d 3 11 18 20 [15, 11, 3] [11] ∧ isAround d 15 [15] 18 = true ∧ ∃ o, d.op? 15 = some o ∧
      d.portDeps o.go = .ok [] := by
    decide +kernel
  exact ⟨⟨d, hd, collide.unnoticed, (around_of_isAround inside).nested⟩,
    e, he, collide'.unnoticed, (around_of_isAround inside').nested, none⟩

def dormantTailCommands : List Command :=
  [.newResource .memory "x" false, .newLoop absent "l" 0 0 .zero, .setLatency 11 .one,
   .newAccess .memoryRead 11 "a" 0 .zero, .newBlock 11 "n" 0 0 .one, .newAccess .memoryRead 16 "c" 0 .zero,
   .newPrimitive .op 11 "p" 0 0 .one, .finish 11 .done 20]

theorem last_cycle_off_the_walk : ∃ d, runAll dormantTailCommands { name := "x" } = some d ∧
    Unnoticed d 3 11 15 19 ∧ Dormant d 11 19 := by
  obtain ⟨d, hd, collide, flows, valid, eb, ec, bd, hbd, body, b, hb, child⟩ :
      ∃ d, runAll dormantTailCommands { name := "x" } = some d ∧ Overlooked d 3 11 15 19 [11, 3] [16, 11] ∧
      FlowsLocally d ∧ (∀ x ∈ d.exits, x.latency.Valid) ∧ isExact d 3 = true ∧ isExact d 11 = true ∧ ∃ bd,
      d.op? 3 = some bd ∧ bd.body = 11 ∧ ∃ b, d.op? 11 = some b ∧ 15 ∈ b.children := by
    decide +kernel
  have built := (Built.empty "x").runAll hd
  have unnoticed := collide.unnoticed
  obtain ⟨report, g, t, r, ran, free, hg, ht, first, last⟩ := unnoticed
  rw [← body] at ht last
  have off :=
    collisions_only_off_the_walk built flows valid hbd ran free hg ht (exact_of_isExact built.wellFormed eb)
    (body ▸ exact_of_isExact built.wellFormed ec) first last
  rw [body] at off
  refine ⟨d, hd, collide.unnoticed, ?_⟩
  rcases off with outside | dormant | dormant
  · exact absurd (.child hb child) outside
  · exact absurd dormant (not_dormant_of_child built.wellFormed hb child)
  · exact dormant

end Loop

end Datapath
