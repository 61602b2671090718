import Mathlib.Data.List.Induction
import Datapath.Proofs.FreshLoops
import Datapath.Loop.Wiring

/-!
# What feeds are for

The exit that carries the source of a feed tells what the feed is for. Sorting a list of feeds keeps
their order; of several initial values for a port, the last one counts.
-/

namespace Datapath.Loop

open List

inductive Use where
  | initial
  | feedback
  | output
deriving DecidableEq

section
variable (s : Parts) (d : Design)

def Parts.use? (f : Feed) : Option Use :=
  (d.bus? f.source).bind fun b =>
    if b.exit = s.again then some .feedback
    else if b.exit = s.leave then some .output
    else if b.exit = s.input then some .initial
    else none

def Parts.feeds (u : Use) (fs : List Feed) : List Feed := fs.filter (s.use? d · == some u)

end

def targets (fs : List Feed) : List PortId := fs.map Feed.target

/-- The source of the last feed that has the target. -/
def lastSource? (fs : List Feed) (p : PortId) : Option BusId := (fs.reverse.find? (·.target == p)).map Feed.source

/-! ## Links -/

section
variable {l : Links}

theorem has_iff : l.has p = true ↔ p ∈ l.map Prod.fst := by
  simp [Links.has]

theorem put_fresh (h : p ∉ l.map Prod.fst) : l.put p b = l ++ [(p, b)] := if_neg fun e => h (has_iff.mp e)

theorem put_known (h : p ∈ l.map Prod.fst) : l.put p b = l.map fun k => if k.1 == p then (p, b) else k :=
  if_pos (has_iff.mpr h)

theorem keys_put :
    (l.put p b).map Prod.fst = if p ∈ l.map Prod.fst then l.map Prod.fst else l.map Prod.fst ++ [p] := by
  by_cases h : p ∈ l.map Prod.fst
  · rw [if_pos h, put_known h, map_map]
    apply map_congr_left
    intro k hk
    by_cases e : k.1 = p
    · simp [e]
    · simp [e]
  · rw [if_neg h, put_fresh h, map_append]
    rfl

theorem nodup_put (h : (l.map Prod.fst).Nodup) : ((l.put p b).map Prod.fst).Nodup := by
  rw [keys_put]
  split
  · exact h
  · next hp =>
    rw [nodup_append]
    refine ⟨h, by simp, ?_⟩
    intro a ha a' ha' e
    rw [mem_singleton.mp ha'] at e
    exact hp (e ▸ ha)

theorem mem_put : (q, c) ∈ l.put p b ↔ if q = p then c = b else (q, c) ∈ l := by
  by_cases hp : p ∈ l.map Prod.fst
  · rw [put_known hp, mem_map]
    obtain ⟨k, hk, rfl⟩ := mem_map.mp hp
    by_cases hq : q = k.1
    · subst hq
      rw [if_pos rfl]
      constructor
      · intro ⟨m, hm, e⟩
        by_cases hm' : m.1 = k.1
        · simp [hm'] at e
          exact e.symm
        · simp [hm'] at e
          exact absurd (congrArg Prod.fst e) hm'
      · rintro rfl
        exact ⟨k, hk, by simp⟩
    · rw [if_neg hq]
      constructor
      · intro ⟨m, hm, e⟩
        by_cases hm' : m.1 = k.1
        · simp [hm'] at e
          exact absurd e.1.symm hq
        · simp [hm'] at e
          exact e ▸ hm
      · intro hm
        refine ⟨(q, c), hm, ?_⟩
        simp [hq]
  · rw [put_fresh hp, mem_append, mem_singleton, Prod.mk.injEq]
    by_cases hq : q = p
    · subst hq
      rw [if_pos rfl]
      constructor
      · rintro (hm | hm)
        · exact absurd (mem_map_of_mem hm) hp
        · exact hm.2
      · exact fun e => .inr ⟨rfl, e⟩
    · rw [if_neg hq]
      exact ⟨fun h => h.resolve_right fun h => hq h.1, .inl⟩

/-! ## Initial values -/

def links (fs : List Feed) : Links := fs.foldl (fun l f => l.put f.target f.source) []

theorem links_append : links (fs ++ [f]) = (links fs).put f.target f.source := by
  simp [links]

theorem links_nodup : ((links fs).map Prod.fst).Nodup := by
  induction fs using reverseRecOn with
  | nil => exact nodup_nil
  | append_singleton fs f ih =>
    rw [links_append]
    exact nodup_put ih

theorem mem_links : (p, b) ∈ links fs ↔ lastSource? fs p = some b := by
  induction fs using reverseRecOn with
  | nil => simp [links, lastSource?]
  | append_singleton fs f ih =>
    rw [links_append, mem_put, ih]
    by_cases h : f.target = p
    · simp [lastSource?, h, eq_comm]
    · simp [lastSource?, h, Ne.symm h]

theorem lastSource?_mem (h : lastSource? fs p = some b) : ⟨b, p⟩ ∈ fs := by
  obtain ⟨f, hf, rfl⟩ := Option.map_eq_some_iff.mp h
  have target : f.target = p := by simpa using find?_some hf
  rw [← target]
  exact mem_reverse.mp (mem_of_find?_eq_some hf)

theorem lastSource?_target : (∃ b, lastSource? fs p = some b) ↔ p ∈ targets fs := by
  constructor
  · rintro ⟨b, h⟩
    exact mem_map.mpr ⟨_, lastSource?_mem h, rfl⟩
  · intro h
    obtain ⟨f, hf, rfl⟩ := mem_map.mp h
    have found : (fs.reverse.find? (·.target == f.target)).isSome :=
      find?_isSome.mpr ⟨f, mem_reverse.mpr hf, beq_self_eq_true _⟩
    obtain ⟨g, hg⟩ := Option.isSome_iff_exists.mp found
    exact ⟨g.source, Option.map_eq_some_iff.mpr ⟨g, hg, rfl⟩⟩

theorem keys_links : p ∈ (links fs).map Prod.fst ↔ p ∈ targets fs := by
  rw [← lastSource?_target, mem_map]
  constructor
  · rintro ⟨⟨_, b⟩, h, rfl⟩
    exact ⟨b, mem_links.mp h⟩
  · rintro ⟨b, h⟩
    exact ⟨(p, b), mem_links.mpr h, rfl⟩

end

/-! ## Sorting -/

def Classes.takes (c : Classes) (f : Feed) : Use → Option Classes
  | .initial => some { c with initial := c.initial.put f.target f.source }
  | .feedback =>
    if c.feedback.has f.target then none else some { c with feedback := c.feedback.put f.target f.source }
  | .output => if c.output.has f.target then none else some { c with output := c.output.put f.target f.source }

def Parts.sorted (s : Parts) (d : Design) (fs : List Feed) : Classes where
  initial := links (s.feeds d .initial fs)
  feedback := (s.feeds d .feedback fs).map fun f => (f.target, f.source)
  output := (s.feeds d .output fs).map fun f => (f.target, f.source)

section
variable {s : Parts} {d : Design} {f : Feed}

theorem taken_ok {taken : Bool} {g : String → Reason} : (do
      if taken then d.reject body (g (← d.port f.target).name)
      return c : Query Classes).run = .ok (.ok c') ↔ (if taken then none else some c) = some c' := by
  cases taken with
  | true =>
    simp only [if_true, query_bind_ok, reject_ok, false_and, and_false, exists_false]
    exact ⟨False.elim, nofun⟩
  | false =>
    simp only [Bool.false_eq_true, if_false, query_pure_ok, Option.some.injEq]
    exact eq_comm

theorem classify_ok : (classify d body ⟨s.again, s.leave, s.input⟩ c f).run = .ok (.ok c') ↔
    (s.use? d f).bind (c.takes f) = some c' := by
  unfold classify Parts.use?
  cases hb : d.bus? f.source with
  | none =>
    simp only [query_bind_ok, query_lift_ok, Design.bus, require_ok, hb, reduceCtorEq, false_and, exists_false,
      Option.bind_none]
  | some b =>
    simp only [query_bind_ok, query_lift_ok, Design.bus, require_ok, hb, Option.some.injEq, exists_eq_left',
      Option.bind_some, beq_iff_eq]
    by_cases h1 : b.exit = s.again
    · rw [if_pos h1, if_pos h1]
      exact taken_ok
    by_cases h2 : b.exit = s.leave
    · rw [if_neg h1, if_neg h1, if_pos h2, if_pos h2]
      exact taken_ok
    by_cases h3 : b.exit = s.input
    · rw [if_neg h1, if_neg h1, if_neg h2, if_neg h2, if_pos h3, if_pos h3, query_pure_ok]
      exact eq_comm.trans Option.some_inj.symm
    · rw [if_neg h1, if_neg h1, if_neg h2, if_neg h2, if_neg h3, if_neg h3]
      simp only [query_bind_ok, reject_ok, and_false, exists_false, Option.bind_none, reduceCtorEq]

theorem feeds_append : s.feeds d u (fs ++ [f]) = s.feeds d u fs ++ if s.use? d f = some u then [f] else [] := by
  rw [Parts.feeds, Parts.feeds]
  by_cases h : s.use? d f = some u
  · simp [h]
  · simp [h]

theorem nodup_targets_append : (targets (fs ++ [f])).Nodup ↔ (targets fs).Nodup ∧ f.target ∉ targets fs := by
  rw [targets, map_append, nodup_append]
  simp only [map_cons, map_nil, mem_singleton, forall_eq, nodup_cons, not_mem_nil,
    not_false_eq_true, nodup_nil, true_and]
  exact and_congr_right fun _ => ⟨fun h hf => h _ hf rfl, fun h a ha e => h (e ▸ ha)⟩

theorem has_link : Links.has (fs.map fun f => (f.target, f.source)) p = true ↔ p ∈ targets fs := by
  rw [has_iff, map_map]
  rfl

theorem put_link (h : f.target ∉ targets fs) : Links.put (fs.map fun f => (f.target, f.source)) f.target f.source =
    (fs ++ [f]).map fun f => (f.target, f.source) := by
  rw [put_fresh, map_append]
  · rfl
  · rwa [map_map]

/-- Every feed is for something, and no port takes two values from the feedback or two results. -/
structure Parts.Sortable (s : Parts) (d : Design) (fs : List Feed) : Prop where
  known : ∀ f ∈ fs, (s.use? d f).isSome
  feedback : (targets (s.feeds d .feedback fs)).Nodup
  output : (targets (s.feeds d .output fs)).Nodup

theorem nodup_feeds_append : (targets (s.feeds d u (fs ++ [f]))).Nodup ↔
    (targets (s.feeds d u fs)).Nodup ∧ (s.use? d f = some u → f.target ∉ targets (s.feeds d u fs)) := by
  rw [feeds_append]
  by_cases h : s.use? d f = some u
  · rw [if_pos h, nodup_targets_append]
    simp [h]
  · simp [h]

theorem sortable_append : s.Sortable d (fs ++ [f]) ↔ s.Sortable d fs ∧ ∃ u, s.use? d f = some u ∧
    (u ≠ .initial → f.target ∉ targets (s.feeds d u fs)) := by
  constructor
  · intro h
    obtain ⟨hf, newf⟩ := nodup_feeds_append.mp h.feedback
    obtain ⟨ho, newo⟩ := nodup_feeds_append.mp h.output
    obtain ⟨u, hu⟩ := Option.isSome_iff_exists.mp (h.known f (by simp))
    refine ⟨⟨fun g hg => h.known g (mem_append_left _ hg), hf, ho⟩, u, hu, fun hne => ?_⟩
    cases u with
    | initial => exact absurd rfl hne
    | feedback => exact newf hu
    | output => exact newo hu
  · rintro ⟨h, u, hu, free⟩
    refine ⟨fun g hg => ?_, nodup_feeds_append.mpr ⟨h.feedback, fun hf => ?_⟩,
      nodup_feeds_append.mpr ⟨h.output, fun ho => ?_⟩⟩
    · rcases mem_append.mp hg with hg | hg
      · exact h.known g hg
      · rw [mem_singleton.mp hg, hu]
        rfl
    · cases hu.symm.trans hf
      exact free nofun
    · cases hu.symm.trans ho
      exact free nofun

theorem takes_sorted (h : s.use? d f = some u) : (s.sorted d fs).takes f u = some c ↔
    (u ≠ .initial → f.target ∉ targets (s.feeds d u fs)) ∧ c = s.sorted d (fs ++ [f]) := by
  rw [eq_comm (a := c)]
  cases u with
  | initial => simp [Classes.takes, Parts.sorted, feeds_append, h, links_append]
  | feedback =>
    by_cases hf : f.target ∈ targets (s.feeds d .feedback fs)
    · simp [Classes.takes, Parts.sorted, has_link, hf]
    · simp [Classes.takes, Parts.sorted, feeds_append, h, has_link, put_link hf]
  | output =>
    by_cases hf : f.target ∈ targets (s.feeds d .output fs)
    · simp [Classes.takes, Parts.sorted, has_link, hf]
    · simp [Classes.takes, Parts.sorted, feeds_append, h, has_link, put_link hf]

theorem classify_all : (fs.foldlM (classify d body ⟨s.again, s.leave, s.input⟩) {}).run = .ok (.ok c) ↔
    s.Sortable d fs ∧ c = s.sorted d fs := by
  induction fs using reverseRecOn generalizing c with
  | nil =>
    rw [foldlM_nil, query_pure_ok]
    exact ⟨fun h => ⟨⟨nofun, nodup_nil, nodup_nil⟩, h⟩, fun h => h.2⟩
  | append_singleton fs f ih =>
    rw [foldlM_append, query_bind_ok, sortable_append]
    simp only [ih, foldlM_cons, foldlM_nil, bind_pure, classify_ok]
    constructor
    · rintro ⟨_, ⟨sortable, rfl⟩, h⟩
      obtain ⟨u, hu, h⟩ := Option.bind_eq_some_iff.mp h
      obtain ⟨free, rfl⟩ := (takes_sorted hu).mp h
      exact ⟨⟨sortable, u, hu, free⟩, rfl⟩
    · rintro ⟨⟨sortable, u, hu, free⟩, rfl⟩
      exact ⟨_, ⟨sortable, rfl⟩, Option.bind_eq_some_iff.mpr ⟨u, hu, (takes_sorted hu).mpr ⟨free, rfl⟩⟩⟩

end

end Datapath.Loop
