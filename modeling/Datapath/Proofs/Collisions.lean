import Datapath.Proofs.Tally
import Datapath.Proofs.Trails
import Mathlib.Data.List.Chain

/-!
# What a walk over a loop body reports

The walk comes once to every operation that it can reach, and notes those accesses and nested loops that
are in the first or in the last cycle. What it reports at the end is the tally of these notes.
-/

namespace Datapath.Loop

open List

open Timing Region

def contended (c : OpId) (o : Operation) : Option Key :=
  if o.kind.isExclusive then some (.resource o.resource) else if o.kind = .loop then some (.loop c) else none

/-- When an operation starts and when it gives back what it needs for itself alone. -/
structure Occupies (d : Design) (t : Timing) (c : OpId) (o : Operation) (key : Key) (early late : Latency) :
    Prop where
  op : d.op? c = some o
  key : contended c o = some key
  input : t.input? c = some early
  ends : if o.kind = .memoryRead ∨ o.kind = .memoryWrite then late = early else t.done? d c = .ok (some late)

def StartsFirst (d : Design) (t : Timing) (block : OpId) (key : Key) (c : OpId) : Prop :=
  ∃ o start path early, Visited d t block c start path ∧ d.op? c = some o ∧ contended c o = some key ∧
    t.input? c = some early ∧ (early.after start).min = 0

def EndsLast (d : Design) (t : Timing) (block : OpId) (key : Key) (c : OpId) : Prop :=
  ∃ o start path early late, Visited d t block c start path ∧ Occupies d t c o key early late ∧
    (isLast d t path.reverse c late).run {} = .ok (.ok true, {})

/-- The path leads from a block to the owner of an operation, each of them the owner of the next. -/
structure OwnerPath (d : Design) (block : OpId) (path : List OpId) (c : OpId) : Prop where
  starts : path.head? = some block
  owners : (path ++ [c]).IsChain fun m k => Owned d.ops k m

section
variable {d : Design} {start : Latency}

theorem Occupies.unique {key : Key} (h : Occupies d t c o key early late)
    (h' : Occupies d t c o key early' late') : early = early' ∧ late = late' := by
  obtain rfl := Option.some.inj (h.input.symm.trans h'.input)
  exact ⟨rfl, late_unique h.ends h'.ends⟩

theorem contended_of_exclusive (h : o.kind.isExclusive = true) : contended c o = some (.resource o.resource) :=
  if_pos h

theorem contended_loop (h : o.kind = .loop) : contended c o = some (.loop c) := by
  simp [contended, h, Kind.isExclusive, Kind.isAccess, Kind.isRead, Kind.isWrite]

theorem Visited.ownerPath (hd : WellFormed d) (h : Visited d t block c start path) : OwnerPath d block path c := by
  induction h with
  | child hb hc =>
    have owned : Owned d.ops _ block := hd.child hb hc
    exact ⟨rfl, by simpa using owned⟩
  | deeper _ hm _ _ _ hc ih =>
    refine ⟨by simp [ih.starts], ?_⟩
    rw [append_assoc]
    exact isChain_append_cons_cons.mpr ⟨ih.owners, hd.child hm hc, by simp⟩

/-! ## What a visit does -/

def Unstopped {α : Type} (r : Except Stop α) : Prop := ∀ why, r ≠ .error (.conflict why)

theorem unstopped_ok {α : Type} (a : α) : Unstopped (.ok a) := fun _ h => nomatch h

theorem unstopped_notAnalyzable {α : Type} (why : Cause) :
    Unstopped (.error (.notAnalyzable why) : Except Stop α) :=
  fun _ h => nomatch h

theorem Unstopped.cast {α β : Type} (h : Unstopped (.error e : Except Stop α)) :
    Unstopped (.error e : Except Stop β) :=
  fun why same => h why (by cases same; rfl)

structure Calm {α : Type} (p : FlopWalk α) : Prop where
  run : ∀ {f r g}, p.run f = .ok (r, g) → Unstopped r ∧ g = f

theorem calm_reading : Reading fun {_} p => Calm p where
  pure a := by
    constructor
    intro f r g h
    obtain ⟨rfl, rfl⟩ := step_pure_run.mp h
    exact ⟨unstopped_ok _, rfl⟩
  bind hp hk := by
    constructor
    intro f r g h
    rcases step_bind_run.mp h with ⟨e, failed, rfl⟩ | ⟨a, u, ran, rest⟩
    · exact ⟨(hp.run failed).1.cast, (hp.run failed).2⟩
    · obtain rfl := (hp.run ran).2
      exact (hk a).run rest
  lift x := by
    constructor
    intro f r g h
    obtain ⟨a, -, rfl, rfl⟩ := step_lift_run.mp h
    exact ⟨unstopped_ok _, rfl⟩
  stop why := by
    constructor
    intro f r g h
    obtain ⟨rfl, rfl⟩ := step_throw_run.mp h
    exact ⟨unstopped_notAnalyzable why, rfl⟩

theorem Calm.bind_run {α β : Type} {p : FlopWalk α} {k : α → FlopWalk β} {r : Except Stop β} (calm : Calm p)
    (h : (p >>= k).run f = .ok (r, g)) :
    ((∀ b, r ≠ .ok b) ∧ Unstopped r ∧ g = f) ∨ ∃ a, p.run f = .ok (.ok a, f) ∧ (k a).run f = .ok (r, g) := by
  rcases step_bind_run.mp h with ⟨e, failed, rfl⟩ | ⟨a, u, ran, rest⟩
  · obtain ⟨unstopped, rfl⟩ := calm.run failed
    exact .inl ⟨(fun _ same => nomatch same), unstopped.cast, rfl⟩
  · obtain rfl := (calm.run ran).2
    exact .inr ⟨a, ran, rest⟩

inductive Toured (d : Design) (t : Timing) (failFast : Bool) (visit : FlopVisit) (c : OpId) (o : Operation)
    (start : Latency) (path : List OpId) (f : Found) : Except Stop Unit → Found → Prop where
  | passed {r : Except Stop Unit} (unstopped : Unstopped r) (free : r = .ok () → contended c o = none) :
      Toured d t failFast visit c o start path f r f
  | noted {key : Key} {early late : Latency} {r : Except Stop Unit} {g : Found}
      (occupies : Occupies d t c o key early late)
      (ran : (mark d t failFast c key early late start path).run f = .ok (r, g)) :
      Toured d t failFast visit c o start path f r g
  | entered {r : Except Stop Unit} {g : Found} (inline : o.kind.isInlineModule = true) (free : contended c o = none)
      (ran : (dive d t visit c start path).run f = .ok (r, g)) : Toured d t failFast visit c o start path f r g
  | both {key : Key} {early late : Latency} {r : Except Stop Unit} {e g : Found}
      (occupies : Occupies d t c o key early late)
      (inline : o.kind.isInlineModule = true)
        (ran : (mark d t failFast c key early late start path).run f = .ok (.ok (), e))
      (inner : (dive d t visit c start path).run e = .ok (r, g)) : Toured d t failFast visit c o start path f r g

section
variable {visit : FlopVisit}

theorem Toured.failed (h : (∀ u, r ≠ .ok u) ∧ Unstopped r ∧ g = f) :
    Toured d t failFast visit c o start path f r g := by
  obtain ⟨failed, unstopped, rfl⟩ := h
  exact .passed unstopped fun e => absurd e (failed ())

section
variable (ho : d.op? c = some o) (hk : contended c o = some key)
include ho hk

theorem Toured.atOnce (memory : o.kind = .memoryRead ∨ o.kind = .memoryWrite)
    (h : (inputAt d t c >>= fun l => mark d t failFast c key l l start path).run f = .ok (r, g)) :
    Toured d t failFast visit c o start path f r g := by
  rcases (calm_reading.inputAt c).bind_run h with h | ⟨l, input, h⟩
  · exact .failed h
  · exact .noted ⟨ho, hk, (inputAt_ok input).1, by simp [memory]⟩ h

theorem Toured.spanning
    (other : ¬ (o.kind = .memoryRead ∨ o.kind = .memoryWrite)) {k : Latency → Latency → FlopWalk Unit}
    (h : (inputAt d t c >>= fun early => doneAt d t c >>= fun late => k early late).run f = .ok (r, g)) :
    Toured d t failFast visit c o start path f r g ∨
      ∃ early late, Occupies d t c o key early late ∧ (k early late).run f = .ok (r, g) := by
  rcases (calm_reading.inputAt c).bind_run h with h | ⟨early, input, h⟩
  · exact .inl (.failed h)
  rcases (calm_reading.doneAt c).bind_run h with h | ⟨late, done, h⟩
  · exact .inl (.failed h)
  · refine .inr ⟨early, late, ⟨ho, hk, (inputAt_ok input).1, ?_⟩, h⟩
    rw [if_neg other]
    exact (doneAt_ok done).1

end

theorem Toured.stopped {k : Option Label → Cause}
    (h : (liftM (d.label c) >>= fun l => throw (.notAnalyzable (k l)) : FlopWalk Unit).run f = .ok (r, g)) :
    Toured d t failFast visit c o start path f r g := by
  rcases (calm_reading.lift _).bind_run h with h | ⟨l, -, h⟩
  · exact .failed h
  · obtain ⟨rfl, rfl⟩ := step_throw_run.mp h
    exact .passed (unstopped_notAnalyzable _) nofun

theorem component_toured (ho : d.op? c = some o)
    (h : (flopComponent d t failFast visit c start path).run f = .ok (r, g)) :
    Toured d t failFast visit c o start path f r g := by
  rcases (calm_reading.lift (d.op c)).bind_run h with h | ⟨o', ho', h⟩
  · exact .failed h
  cases ho.symm.trans (op_ok (step_lift_ok.mp ho').1)
  split at h
  case h_1 hk | h_2 hk => exact .atOnce ho (contended_of_exclusive (by rw [hk]; rfl)) (by simp [hk]) h
  case h_3 hk | h_4 hk | h_5 hk | h_6 hk =>
    rcases Toured.spanning ho (contended_of_exclusive (by rw [hk]; rfl)) (by simp [hk]) h with
      done | ⟨early, late, occupies, h⟩
    · exact done
    · exact .noted occupies h
  case h_7 hk | h_8 hk =>
    obtain ⟨rfl, rfl⟩ := step_pure_run.mp h
    exact .passed (unstopped_ok _) fun _ => by simp [contended, hk, Kind.isExclusive]
  case h_9 hk =>
    rcases Toured.spanning ho (contended_loop hk) (by simp [hk]) h with done | ⟨early, late, occupies, h⟩
    · exact done
    rcases step_bind_run.mp h with ⟨e, unmarked, rfl⟩ | ⟨⟨⟩, u, marked, h⟩
    · exact .noted occupies unmarked
    · exact .both occupies (by rw [hk]; rfl) marked h
  case h_10 => exact .stopped h
  case h_11 =>
    have free : contended c o = none := by
      simp_all [contended, Kind.isExclusive, Kind.isAccess, Kind.isRead, Kind.isWrite]
    split at h
    · exact .entered (by simp_all [Kind.isInlineModule]) free h
    split at h
    · exact .stopped h
    · obtain ⟨rfl, rfl⟩ := step_pure_run.mp h
      exact .passed (unstopped_ok _) fun _ => free

end

theorem dive_run {visit : FlopVisit} (ho : d.op? c = some o)
    (h : (dive d t visit c start path).run f = .ok (r, g)) : Unstopped r ∧ g = f ∨ ∃ input,
      d.portDeps o.go ≠ .ok [] ∧ t.input? c = some input ∧
      (o.children.forM fun k => visit k (input.after start) (path ++ [c]) : FlopWalk PUnit).run f = .ok (r, g) := by
  rcases (calm_reading.lift (d.op c)).bind_run h with ⟨-, failed⟩ | ⟨o', ho', h⟩
  · exact .inl failed
  cases ho.symm.trans (op_ok (step_lift_ok.mp ho').1)
  rcases (calm_reading.lift (d.portDeps o.go)).bind_run h with ⟨-, failed⟩ | ⟨deps, hdeps, h⟩
  · exact .inl failed
  split at h
  · obtain ⟨rfl, rfl⟩ := step_pure_run.mp h
    exact .inl ⟨unstopped_ok _, rfl⟩
  next some =>
    rcases (calm_reading.inputAt c).bind_run h with ⟨-, failed⟩ | ⟨input, hi, h⟩
    · exact .inl failed
    · refine .inr ⟨input, fun none => some ?_, (inputAt_ok hi).1, h⟩
      rw [(step_lift_ok.mp hdeps).1] at none
      cases none
      rfl

/-! ## Notes -/

theorem confront_run (s : Sighting) {vs : List Sighting} (same : ∀ v ∈ vs, v.key = s.key) (f : Found) :
    (vs.forM fun v => do
      if v.first && s.last then collide d false v s
      else if s.first && v.last then collide d false s v : FlopWalk PUnit).run f =
      .ok (.ok (), { f with conflicts := (vs.filterMap s.against).foldl (addConflict · s.key ·) f.conflicts }) := by
  induction vs generalizing f with
  | nil => rfl
  | cons v vs ih =>
    have key := same v mem_cons_self
    have ih := ih fun w hw => same w (mem_cons_of_mem _ hw)
    refine step_bind_run.mpr (.inr ⟨(), { f with
      conflicts := (s.against v).toList.foldl (addConflict · s.key ·) f.conflicts }, ?_, ?_⟩)
    · dsimp only
      unfold Sighting.against
      by_cases one : (v.first && s.last) = true
      · rw [if_pos one, if_pos one, ← key]
        rfl
      by_cases other : (s.first && v.last) = true
      · rw [if_neg one, if_neg one, if_pos other, if_pos other]
        rfl
      · rw [if_neg one, if_neg one, if_neg other, if_neg other]
        rfl
    · rw [ih]
      cases h : s.against v <;> simp [h]

theorem mark_run (h : (mark d t false c key early late start path).run f = .ok (r, g)) :
    Unstopped r ∧ (g = f ∨ ∃ last, (isLast d t path.reverse c late).run {} = .ok (.ok last, {}) ∧
      g = f.noted { key, access := c, path, first := (early.after start).min == 0, last }) := by
  rcases (calm_reading.isLast path.reverse c late).bind_run h with ⟨-, unstopped, rfl⟩ | ⟨last, hl, h⟩
  · exact ⟨unstopped, .inl rfl⟩
  replace hl := (steady_reading.isLast _ _ _).run hl {}
  generalize hs : ({ key, access := c, path, first := (early.after start).min == 0, last } : Sighting) = s at h
  dsimp only at h
  split at h
  · obtain ⟨rfl, rfl⟩ := step_pure_run.mp h
    exact ⟨unstopped_ok _, .inl rfl⟩
  have meets : ∀ e : Found, (meet d false s).run e = .ok (.ok (), {
      sightings := e.sightings ++ [s]
      conflicts := ((e.sightings.filter (·.key == s.key)).filterMap s.against).foldl (addConflict · s.key ·)
        e.conflicts }) := by
    intro e
    refine step_bind_run.mpr (.inr ⟨e, e, rfl, ?_⟩)
    exact step_bind_run.mpr (.inr ⟨(), _, confront_run s (by simp) e, rfl⟩)
  suffices Unstopped r ∧ g = f.noted s from ⟨this.1, .inr ⟨last, hl, hs ▸ this.2⟩⟩
  rw [Found.noted, fresh]
  split at h
  next both =>
    rw [if_pos both]
    rcases step_bind_run.mp h with ⟨e, failed, -⟩ | ⟨⟨⟩, u, collided, h⟩
    · cases failed
    · cases collided
      rw [meets] at h
      cases h
      exact ⟨unstopped_ok _, by simp [clash]⟩
  next one =>
    rw [if_neg one]
    rw [meets] at h
    cases h
    exact ⟨unstopped_ok _, rfl⟩

def Sighted (d : Design) (t : Timing) (block : OpId) (s : Sighting) : Prop :=
  ∃ o start early late, Visited d t block s.access start s.path ∧ Occupies d t s.access o s.key early late ∧
    s.first = ((early.after start).min == 0) ∧
    (isLast d t s.path.reverse s.access late).run {} = .ok (.ok s.last, {})

structure Chronicle (d : Design) (t : Timing) (block : OpId) (ids : List OpId) (ss : List Sighting) : Prop where
  sighted : ∀ s ∈ ss, Sighted d t block s
  inside : ∀ s ∈ ss, ∃ c ∈ ids, Lies d.ops s.access c
  nodup : (ss.map Sighting.access).Nodup

namespace Chronicle

theorem nil : Chronicle d t block ids [] := ⟨nofun, nofun, nodup_nil⟩

theorem single (sighted : Sighted d t block s) (hs : s.access ∈ ids) : Chronicle d t block ids [s] :=
  ⟨by simpa using sighted, by simpa using ⟨s.access, hs, .refl⟩, by simp⟩

section
variable (h : Chronicle d t block ids ss)
include h

theorem widen (sub : ids ⊆ cs) : Chronicle d t block cs ss :=
  ⟨h.sighted, fun s hs => (h.inside s hs).imp fun _ hc => ⟨sub hc.1, hc.2⟩, h.nodup⟩

theorem append (h' : Chronicle d t block cs ss')
    (apart : ∀ s ∈ ss, ∀ v ∈ ss', s.access ≠ v.access) : Chronicle d t block (ids ++ cs) (ss ++ ss') where
  sighted s hs := (mem_append.mp hs).elim (h.sighted s) (h'.sighted s)
  inside s hs := (mem_append.mp hs).elim ((h.widen (by simp)).inside s) ((h'.widen (by simp)).inside s)
  nodup := by
    rw [map_append, nodup_append]
    refine ⟨h.nodup, h'.nodup, ?_⟩
    simpa using apart

theorem module (owned : ∀ k ∈ ids, Owned d.ops k c) : Chronicle d t block [c] ss where
  sighted := h.sighted
  inside s hs := by
    obtain ⟨k, hk, lies⟩ := h.inside s hs
    exact ⟨c, mem_singleton_self c, lies.tail (owned k hk)⟩
  nodup := h.nodup

end

end Chronicle

structure Records {α : Type} (d : Design) (t : Timing) (block : OpId) (ids : List OpId) (p : FlopWalk α) :
    Prop where
  run : ∀ {f r g}, p.run f = .ok (r, g) →
    Unstopped r ∧ ∃ ss, Chronicle d t block ids ss ∧ g = ss.foldl Found.noted f

theorem records_forM (hd : WellFormed d) {visit : OpId → FlopWalk PUnit} (sib : Siblings d.ops m cs)
    (hv : ∀ c ∈ cs, Records d t block [c] (visit c)) : Records d t block cs (cs.forM visit) := by
  induction cs with
  | nil =>
    constructor
    intro f r g h
    obtain ⟨rfl, rfl⟩ := step_pure_run.mp h
    exact ⟨unstopped_ok _, [], .nil, rfl⟩
  | cons c cs ih =>
    have ih := ih sib.tail fun k hk => hv k (mem_cons_of_mem _ hk)
    constructor
    intro f r g h
    rcases step_bind_run.mp h with ⟨e, failed, rfl⟩ | ⟨⟨⟩, u, ran, rest⟩
    · obtain ⟨unstopped, ss, chronicle, rfl⟩ := (hv c mem_cons_self).run failed
      exact ⟨unstopped, ss, chronicle.widen (by simp), rfl⟩
    · obtain ⟨-, ss, chronicle, rfl⟩ := (hv c mem_cons_self).run ran
      obtain ⟨unstopped, ss', chronicle', rfl⟩ := ih.run rest
      refine ⟨unstopped, ss ++ ss', chronicle.append chronicle' ?_, by rw [foldl_append]⟩
      intro s hs v hv same
      obtain ⟨k, hk, lies⟩ := chronicle.inside s hs
      obtain ⟨k', hk', lies'⟩ := chronicle'.inside v hv
      cases mem_singleton.mp hk
      have := Lies.sibling hd.nesting (sib.owned c mem_cons_self) (sib.owned k' (mem_cons_of_mem _ hk')) lies
        (same ▸ lies')
      exact (nodup_cons.mp sib.nodup).1 (this ▸ hk')

theorem records_dive (hd : WellFormed d) {visit : FlopVisit} (hv : ∀ c start path, Visited d t block c start path →
      Records d t block [c] (visit c start path)) (h : Visited d t block c start path) (ho : d.op? c = some o)
    (inline : o.kind.isInlineModule = true) : Records d t block o.children (dive d t visit c start path) := by
  constructor
  intro f r g ran
  rcases dive_run ho ran with ⟨unstopped, rfl⟩ | ⟨input, driven, hi, ran⟩
  · exact ⟨unstopped, [], .nil, rfl⟩
  · have sib : Siblings d.ops c o.children := ⟨hd.children_nodup ho, fun k hk => hd.child ho hk⟩
    exact (records_forM hd sib fun k hk => hv k _ _ (h.deeper ho inline driven hi hk)).run ran

theorem mark_recorded (h : Visited d t block c start path) (occupies : Occupies d t c o key early late)
    (ran : (mark d t false c key early late start path).run f = .ok (r, g)) :
    Unstopped r ∧ ∃ ss, Chronicle d t block [c] ss ∧ (∀ s ∈ ss, s.access = c) ∧ g = ss.foldl Found.noted f := by
  obtain ⟨unstopped, rfl | ⟨last, hl, rfl⟩⟩ := mark_run ran
  · exact ⟨unstopped, [], .nil, nofun, rfl⟩
  · exact ⟨unstopped, _, .single ⟨o, start, early, late, h, occupies, rfl, hl⟩ (by simp), by simp, rfl⟩

theorem records_visit (hd : WellFormed d) (n : Nat) (h : Visited d t block c start path) :
    Records d t block [c] (flopVisit d t false n c start path) := by
  induction n generalizing c start path with
  | zero => exact ⟨fun ran => nomatch ran⟩
  | succ n ih =>
    obtain ⟨o, ho⟩ := h.nested.exists_op hd
    have owned : ∀ k ∈ o.children, Owned d.ops k c := fun k hk => hd.child ho hk
    have ih : ∀ c start path, Visited d t block c start path → Records d t block [c]
      (flopVisit d t false n c start path) :=
      fun c start path h => ih h
    constructor
    intro f r g ran
    cases component_toured ho ran with
    | passed unstopped => exact ⟨unstopped, [], .nil, rfl⟩
    | noted occupies ran =>
      obtain ⟨unstopped, ss, chronicle, -, rfl⟩ := mark_recorded h occupies ran
      exact ⟨unstopped, ss, chronicle, rfl⟩
    | entered inline _ ran =>
      obtain ⟨unstopped, ss, chronicle, rfl⟩ := (records_dive hd ih h ho inline).run ran
      exact ⟨unstopped, ss, chronicle.module owned, rfl⟩
    | both occupies inline ran inner =>
      obtain ⟨-, ss, chronicle, self, rfl⟩ := mark_recorded h occupies ran
      obtain ⟨unstopped, ss', chronicle', rfl⟩ := (records_dive hd ih h ho inline).run inner
      refine ⟨unstopped, ss ++ ss', (chronicle.append (chronicle'.module owned) ?_).widen (by simp),
        by rw [foldl_append]⟩
      intro s hs v hv same
      obtain ⟨k, hk, lies⟩ := chronicle'.inside v hv
      have below : c < v.access := Int.lt_of_lt_of_le ((owned k hk).lt hd.nesting) (Lies.le hd.nesting lies)
      exact Int.lt_irrefl _ (same ▸ self s hs ▸ below)

theorem Walks.tallied {body : OpId} (hd : WellFormed d) (h : Walks d body false block ended f)
    (ht : (compute d block .zero).run .relative = .ok (.ok (), t)) :
    Unstopped ended ∧ ∃ ids ss, Chronicle d t block ids ss ∧ f = tally ss := by
  obtain ⟨-, b, x, t', hb, -, -, ht', hw⟩ := h
  cases ht.symm.trans ht'
  have sib : Siblings d.ops block b.children := ⟨hd.children_nodup hb, fun k hk => hd.child hb hk⟩
  obtain ⟨unstopped, ss, chronicle, rfl⟩ :=
    (records_forM hd sib fun c hc => records_visit hd _ (.child hb hc)).run hw
  exact ⟨unstopped, b.children, ss, chronicle, rfl⟩

/-! ## First and last -/

theorem Sighted.startsFirst (h : Sighted d t block s) (first : s.first = true) :
    StartsFirst d t block s.key s.access := by
  obtain ⟨o, start, early, late, visited, occupies, same, -⟩ := h
  exact ⟨o, start, s.path, early, visited, occupies.op, occupies.key, occupies.input, by simpa [first] using same⟩

theorem Sighted.endsLast (h : Sighted d t block s) (last : s.last = true) : EndsLast d t block s.key s.access := by
  obtain ⟨o, start, early, late, visited, occupies, -, same⟩ := h
  exact ⟨o, start, s.path, early, late, visited, occupies, last ▸ same⟩

theorem Chronicle.sound (hd : WellFormed d) (h : Chronicle d t block ids ss)
    (hk : k ∈ conflictsOn (tally ss).conflicts key) :
    StartsFirst d t block key k.headAccess ∧ EndsLast d t block key k.tailAccess ∧
      OwnerPath d block k.headPath k.headAccess ∧ OwnerPath d block k.tailPath k.tailAccess := by
  obtain ⟨head, hh, tail, ht, rfl, key', first, last, rfl⟩ := clash_of_mem hk
  have sh := h.sighted head hh
  have st := h.sighted tail ht
  refine ⟨sh.startsFirst first, key' ▸ st.endsLast last, ?_, ?_⟩
  · obtain ⟨_, _, _, _, visited, -⟩ := sh
    exact visited.ownerPath hd
  · obtain ⟨_, _, _, _, visited, -⟩ := st
    exact visited.ownerPath hd

theorem analyze_sound (hd : WellFormed d) (ran : (analyze d body false).run = .ok (.ok report))
    (hk : k ∈ report.all) : ∃ bd t key, d.op? body = some bd ∧ bd.kind.isLoopBody = true ∧ bd.body ≠ absent ∧
      (compute d bd.body .zero).run .relative = .ok (.ok (), t) ∧ StartsFirst d t bd.body key k.headAccess ∧
      EndsLast d t bd.body key k.tailAccess ∧ OwnerPath d bd.body k.headPath k.headAccess ∧
      OwnerPath d bd.body k.tailPath k.tailAccess := by
  rw [FlopReport.all] at hk
  rcases analyze_found ran with ⟨-, none⟩ | ⟨block, ended, found, walks, same, -⟩
  · rw [none] at hk
    cases hk
  obtain ⟨⟨bd, hbd, loop, there, rfl⟩, _, _, t, -, -, -, ht, -⟩ := id walks
  obtain ⟨-, ids, ss, chronicle, rfl⟩ := walks.tallied hd ht
  rw [same, mem_all_tally] at hk
  obtain ⟨key, hk⟩ := hk
  exact ⟨bd, t, key, hbd, loop, there, ht, chronicle.sound hd hk⟩

theorem Visited.noted {k : Found} (hb : d.op? block = some b)
    (walk : (b.children.forM fun c => flopVisit d t false n c .zero [block] : FlopWalk PUnit).run f =
      .ok (.ok (), k)) (h : Visited d t block c start path) (ho : d.op? c = some o) (hk : contended c o = some key) :
    ∃ early late, Occupies d t c o key early late ∧ Marks d t c key early late start path k := by
  obtain ⟨n, f, g, visit, kept⟩ := h.run hb walk
  cases n with
  | zero => cases visit
  | succ n =>
    have marked : ∀ {early late key' e}, Occupies d t c o key' early late →
        (mark d t false c key' early late start path).run f = .ok (.ok (), e) → Further e k →
        ∃ early late, Occupies d t c o key early late ∧ Marks d t c key early late start path k := by
      intro early late key' e occupies ran kept
      cases hk.symm.trans occupies.key
      exact ⟨early, late, occupies, (mark_ok ran).2.further kept⟩
    cases component_toured ho visit with
    | passed _ free => simp [hk] at free
    | noted occupies ran => exact marked occupies ran kept
    | entered _ free _ => simp [hk] at free
    | both occupies _ ran inner =>
      exact marked occupies ran (((advances_dive (fun _ _ _ => advances_visit ..) _ _ _).run inner).trans kept)

end

def FlopReport.about (r : FlopReport) (key : Key) : List Conflict := conflictsOn r.conflicts key

/-- An analysis that comes to its end reports as heads just what starts first and as tails just what ends
last, for every key for which there are both, and nothing for any other key. No two of them are paired twice
in the same order, and the paths are those of the owners. -/
theorem conflicts_pair_first_with_last {d : Design} (hd : WellFormed d) {body : OpId} {report : FlopReport}
    (ran : (analyze d body false).run = .ok (.ok report)) (analyzable : report.analyzable = true) :
    ∃ bd t, d.op? body = some bd ∧ (compute d bd.body .zero).run .relative = .ok (.ok (), t) ∧
      (∀ key,
        ((∃ c, StartsFirst d t bd.body key c) → (∃ c, EndsLast d t bd.body key c) →
          (∀ c, c ∈ (report.about key).map Conflict.headAccess ↔ StartsFirst d t bd.body key c) ∧
          ∀ c, c ∈ (report.about key).map Conflict.tailAccess ↔ EndsLast d t bd.body key c) ∧
        (¬ ((∃ c, StartsFirst d t bd.body key c) ∧ ∃ c, EndsLast d t bd.body key c) → report.about key = []) ∧
        ∀ k ∈ report.about key, StartsFirst d t bd.body key k.headAccess ∧ EndsLast d t bd.body key k.tailAccess ∧
          OwnerPath d bd.body k.headPath k.headAccess ∧ OwnerPath d bd.body k.tailPath k.tailAccess) ∧
      (∀ k, k ∈ report.all ↔ ∃ key, k ∈ report.about key) ∧ (report.all.map Conflict.pair).Nodup := by
  obtain ⟨block, ended, found, walks, same, ended'⟩ := analyze_walks ran analyzable
  obtain ⟨⟨bd, hbd, -, -, rfl⟩, b, x, t, hb, -, -, ht, hw⟩ := id walks
  obtain ⟨unstopped, ids, ss, chronicle, rfl⟩ := walks.tallied hd ht
  obtain rfl : ended = .ok () := ended'.resolve_right fun ⟨why, stopped⟩ => unstopped why stopped
  have about : ∀ key, report.about key = conflictsOn (tally ss).conflicts key := fun key => by
    rw [FlopReport.about, same]
  have first : ∀ {key c}, StartsFirst d t bd.body key c → ∃ s ∈ ss, s.access = c ∧ s.key = key ∧
    s.first = true := by
    rintro key c ⟨o, start, path, early, visited, ho, hk, input, zero⟩
    obtain ⟨early', late, occupies, last, -, noted⟩ := visited.noted hb hw ho hk
    cases input.symm.trans occupies.input
    exact ⟨_, sightings_tally ss ▸ noted (.inl zero), rfl, rfl, by simpa using zero⟩
  have last : ∀ {key c}, EndsLast d t bd.body key c → ∃ s ∈ ss, s.access = c ∧ s.key = key ∧ s.last = true := by
    rintro key c ⟨o, start, path, early, late, visited, occupies, ends⟩
    obtain ⟨early', late', occupies', last, ends', noted⟩ := visited.noted hb hw occupies.op occupies.key
    obtain ⟨rfl, rfl⟩ := occupies.unique occupies'
    cases ends.symm.trans ends'
    exact ⟨_, sightings_tally ss ▸ noted (.inr rfl), rfl, rfl, rfl⟩
  have sound : ∀ {key k}, k ∈ report.about key → StartsFirst d t bd.body key k.headAccess ∧
      EndsLast d t bd.body key k.tailAccess ∧ OwnerPath d bd.body k.headPath k.headAccess ∧
      OwnerPath d bd.body k.tailPath k.tailAccess := fun hk => chronicle.sound hd (about _ ▸ hk)
  refine ⟨bd, t, hbd, ht, fun key => ⟨?_, ?_, fun k hk => sound hk⟩, ?_, ?_⟩
  · rintro ⟨c₁, h₁⟩ ⟨c₂, h₂⟩
    simp only [mem_map]
    refine ⟨fun c => ⟨?_, fun h => ?_⟩, fun c => ⟨?_, fun h => ?_⟩⟩
    · rintro ⟨k, hk, rfl⟩
      exact (sound hk).1
    · obtain ⟨head, hh, rfl, rfl, one⟩ := first h
      obtain ⟨tail, ht, -, key', two⟩ := last h₂
      obtain ⟨⟨v, hv⟩, -⟩ := head_and_tail_recorded hh ht key'.symm one two
      exact ⟨_, about _ ▸ hv, rfl⟩
    · rintro ⟨k, hk, rfl⟩
      exact (sound hk).2.1
    · obtain ⟨tail, ht, rfl, rfl, two⟩ := last h
      obtain ⟨head, hh, -, key', one⟩ := first h₁
      obtain ⟨-, v, hv⟩ := head_and_tail_recorded hh ht key' one two
      exact ⟨_, about _ ▸ key' ▸ hv, rfl⟩
  · intro none
    refine eq_nil_iff_forall_not_mem.mpr fun k hk => none ⟨⟨_, (sound hk).1⟩, _, (sound hk).2.1⟩
  · intro k
    rw [FlopReport.all, same, mem_all_tally]
    simp only [about]
  · rw [FlopReport.all, same]
    exact all_pairs_nodup chronicle.nodup

def rereadCommands : List Command :=
  [.newResource .memory "x" false, .newLoop absent "l" 0 0 .zero, .setLatency 11 .one, .newBlock 11 "n" 0 0 .zero,
   .start 15 9, .newAccess .memoryRead 15 "a" 0 .zero, .newPrimitive .op 11 "p" 0 0 .one,
   .newAccess .memoryRead 11 "c" 0 .zero, .start 20 17, .finish 11 .done 20]

/-- The inner read is the only one that starts first, and the other one the only one that ends last. -/
theorem inner_read_collides : ∃ d report bd t, runAll rereadCommands { name := "x" } = some d ∧
    (analyze d 3 false).run = .ok (.ok report) ∧ report.about (.resource 0) = [⟨18, [11, 15], 20, [11]⟩] ∧
    d.op? 3 = some bd ∧ (compute d bd.body .zero).run .relative = .ok (.ok (), t) ∧
    (∀ c, StartsFirst d t bd.body (.resource 0) c ↔ c = 18) ∧ (∀ c, EndsLast d t bd.body (.resource 0) c ↔ c = 20) ∧
    OwnerPath d bd.body [11, 15] 18 := by
  obtain ⟨d, hd, report, ran, analyzable, about⟩ : ∃ d, runAll rereadCommands { name := "x" } = some d ∧
      ∃ report, (analyze d 3 false).run = .ok (.ok report) ∧ report.analyzable = true ∧
      report.about (.resource 0) = [⟨18, [11, 15], 20, [11]⟩] := by
    decide +kernel
  obtain ⟨bd, t, hbd, ht, each, -, -⟩ :=
    conflicts_pair_first_with_last ((Built.empty "x").runAll hd).wellFormed ran analyzable
  obtain ⟨both, -, sound⟩ := each (.resource 0)
  rw [about] at both sound
  obtain ⟨first, last, path, -⟩ := sound _ (mem_singleton_self _)
  obtain ⟨heads, tails⟩ := both ⟨_, first⟩ ⟨_, last⟩
  refine ⟨d, report, bd, t, hd, ran, about, hbd, ht, fun c => ?_, fun c => ?_, path⟩
  · rw [← heads]
    simp
  · rw [← tails]
    simp

end Datapath.Loop
