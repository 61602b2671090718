import Datapath.Proofs.Coverage
import Datapath.Proofs.FailFast
import Mathlib.Data.List.Induction
import Mathlib.Data.List.Nodup

/-!
# Which of the noted accesses collide

An access that is noted is compared with itself and with those noted before it. Still every access in the
first cycle is the head of a conflict and every one in the last cycle a tail, as soon as there is one of
each.
-/

namespace Datapath.Loop

open List

open Timing

def clash (head tail : Sighting) : Conflict := ⟨head.access, head.path, tail.access, tail.path⟩

def Conflict.pair (k : Conflict) : OpId × OpId := (k.headAccess, k.tailAccess)

def Sighting.against (s v : Sighting) : Option Conflict :=
  if v.first && s.last then some (clash v s)
  else if s.first && v.last then some (clash s v)
  else none

def fresh (before : List Sighting) (s : Sighting) : List Conflict :=
  (if s.first && s.last then [clash s s] else []) ++ (before.filter (·.key == s.key)).filterMap s.against

def Found.noted (f : Found) (s : Sighting) : Found where
  sightings := f.sightings ++ [s]
  conflicts := (fresh f.sightings s).foldl (addConflict · s.key ·) f.conflicts

def tally (ss : List Sighting) : Found := ss.foldl Found.noted {}

def conflictsOn (table : List (Key × List Conflict)) (key : Key) : List Conflict := (table.lookup key).getD []

/-! ## Tables -/

theorem lookup_addConflict (table : List (Key × List Conflict)) (key : Key) (k : Conflict) (key' : Key) :
    (table.map fun p => if p.1 == key then (key, p.2 ++ [k]) else p).lookup key' =
      (table.lookup key').map fun cs => if key' = key then cs ++ [k] else cs := by
  induction table with
  | nil => rfl
  | cons p table ih =>
    obtain ⟨a, cs⟩ := p
    by_cases ha : a = key
    · subst ha
      by_cases e : key' = a
      · simp [e]
      · simpa [lookup_cons, beq_false_of_ne e] using ih
    · by_cases e : key' = a
      · simp [ha, e]
      · simpa [lookup_cons, ha, beq_false_of_ne e] using ih

theorem conflictsOn_addConflict (table : List (Key × List Conflict)) (key : Key) (k : Conflict) (key' : Key) :
    conflictsOn (addConflict table key k) key' = conflictsOn table key' ++ if key' = key then [k] else [] := by
  unfold addConflict conflictsOn
  by_cases known : table.any (·.1 == key) = true
  · rw [if_pos known, lookup_addConflict]
    by_cases e : key' = key
    · have : key ∈ table.map Prod.fst := by simpa using known
      obtain ⟨cs, hcs⟩ := lookup_of_mem_keys this
      simp [e, hcs]
    · simp [e]
  · have none : table.lookup key = none := by
      rw [lookup_eq_none_iff]
      intro p hp
      simp only [any_eq_true, not_exists, not_and, beq_iff_eq] at known
      simpa using Ne.symm (known p hp)
    rw [if_neg known, lookup_append]
    by_cases e : key' = key
    · simp [e, none]
    · simp [e, beq_false_of_ne e, lookup_cons]

theorem conflictsOn_addAll (table : List (Key × List Conflict)) (key : Key) (ks : List Conflict) (key' : Key) :
    conflictsOn (ks.foldl (addConflict · key ·) table) key' =
      conflictsOn table key' ++ if key' = key then ks else [] := by
  induction ks generalizing table with
  | nil => simp
  | cons k ks ih =>
    rw [foldl_cons, ih, conflictsOn_addConflict]
    by_cases e : key' = key <;> simp [e]

theorem keys_addConflict (nodup : (table.map Prod.fst).Nodup) (key : Key) (k : Conflict) :
    ((addConflict table key k).map Prod.fst).Nodup := by
  unfold addConflict
  by_cases known : table.any (·.1 == key) = true
  · have same : (table.map fun p => if p.1 == key then (key, p.2 ++ [k]) else p).map Prod.fst = table.map
      Prod.fst := by
      rw [map_map]
      apply map_congr_left
      intro p _
      by_cases e : p.1 = key <;> simp [e]
    rwa [if_pos known, same]
  · have new : key ∉ table.map Prod.fst := by simpa using known
    rw [if_neg known, map_append]
    exact nodup_append.mpr ⟨nodup, by simp, fun a ha b hb e => new (by simp_all)⟩

theorem keys_addAll (nodup : (table.map Prod.fst).Nodup) (key : Key) (ks : List Conflict) :
    ((ks.foldl (addConflict · key ·) table).map Prod.fst).Nodup := by
  induction ks generalizing table with
  | nil => exact nodup
  | cons k ks ih => exact ih (keys_addConflict nodup key k)

/-! ## Tallies -/

theorem tally_snoc (ss : List Sighting) (s : Sighting) : tally (ss ++ [s]) = (tally ss).noted s := by
  simp [tally]

@[simp] theorem sightings_tally (ss : List Sighting) : (tally ss).sightings = ss := by
  induction ss using List.reverseRecOn with
  | nil => rfl
  | append_singleton ss s ih => rw [tally_snoc, Found.noted, ih]

theorem conflictsOn_snoc (ss : List Sighting) (s : Sighting) (key : Key) :
    conflictsOn (tally (ss ++ [s])).conflicts key =
      conflictsOn (tally ss).conflicts key ++ if key = s.key then fresh ss s else [] := by
  rw [tally_snoc, Found.noted, sightings_tally, conflictsOn_addAll]

theorem keys_tally (ss : List Sighting) : ((tally ss).conflicts.map Prod.fst).Nodup := by
  induction ss using reverseRecOn with
  | nil => exact nodup_nil
  | append_singleton ss s ih =>
    rw [tally_snoc]
    exact keys_addAll ih _ _

theorem mem_tally (ss : List Sighting) (hp : p ∈ (tally ss).conflicts) :
    p.2 = conflictsOn (tally ss).conflicts p.1 := by
  rw [conflictsOn, lookup_of_mem (keys_tally ss) hp]
  rfl

theorem mem_all_tally (ss : List Sighting) :
    k ∈ (tally ss).conflicts.flatMap Prod.snd ↔ ∃ key, k ∈ conflictsOn (tally ss).conflicts key := by
  rw [mem_flatMap]
  constructor
  · rintro ⟨p, hp, hk⟩
    exact ⟨p.1, mem_tally ss hp ▸ hk⟩
  · rintro ⟨key, hk⟩
    rw [conflictsOn] at hk
    cases hl : (tally ss).conflicts.lookup key with
    | none =>
      rw [hl] at hk
      cases hk
    | some ks =>
      rw [hl] at hk
      exact ⟨(key, ks), mem_of_lookup hl, hk⟩

/-! ## Heads and tails -/

theorem mem_fresh : k ∈ fresh before s ↔ (s.first = true ∧ s.last = true ∧ k = clash s s) ∨
    ∃ v ∈ before, v.key = s.key ∧ s.against v = some k := by
  simp only [fresh, mem_append, mem_filterMap, mem_filter, and_assoc]
  by_cases both : (s.first && s.last) = true
  · simp [Bool.and_eq_true_iff.mp both]
  · rw [if_neg both]
    have : ¬ (s.first = true ∧ s.last = true ∧ k = clash s s) := fun h => both (by simp [h.1, h.2.1])
    simp [this]

theorem against_eq_some (h : s.against v = some k) :
    v.first = true ∧ s.last = true ∧ k = clash v s ∨ s.first = true ∧ v.last = true ∧ k = clash s v := by
  unfold Sighting.against at h
  split at h
  next one =>
    exact .inl ⟨(Bool.and_eq_true_iff.mp one).1, (Bool.and_eq_true_iff.mp one).2, (Option.some.inj h).symm⟩
  split at h
  next other =>
    exact .inr ⟨(Bool.and_eq_true_iff.mp other).1, (Bool.and_eq_true_iff.mp other).2, (Option.some.inj h).symm⟩
  · cases h

theorem clash_of_mem (h : k ∈ conflictsOn (tally ss).conflicts key) : ∃ head ∈ ss, ∃ tail ∈ ss,
    head.key = key ∧ tail.key = key ∧ head.first = true ∧ tail.last = true ∧ k = clash head tail := by
  induction ss using reverseRecOn with
  | nil => cases h
  | append_singleton ss s ih =>
    have old : ∀ {v}, v ∈ ss → v ∈ ss ++ [s] := fun hv => mem_append_left _ hv
    have new : s ∈ ss ++ [s] := by simp
    rw [conflictsOn_snoc, mem_append] at h
    rcases h with h | h
    · obtain ⟨head, hh, tail, ht, rest⟩ := ih h
      exact ⟨head, old hh, tail, old ht, rest⟩
    · by_cases e : key = s.key
      · rw [if_pos e, mem_fresh] at h
        rcases h with ⟨first, last, rfl⟩ | ⟨v, hv, same, h⟩
        · exact ⟨s, new, s, new, e.symm, e.symm, first, last, rfl⟩
        · rcases against_eq_some h with ⟨first, last, rfl⟩ | ⟨first, last, rfl⟩
          · exact ⟨v, old hv, s, new, same.trans e.symm, e.symm, first, last, rfl⟩
          · exact ⟨s, new, v, old hv, e.symm, same.trans e.symm, first, last, rfl⟩
      · simp [e] at h

theorem head_and_tail_recorded {head tail : Sighting} (hh : head ∈ ss) (ht : tail ∈ ss) (same : head.key = tail.key)
    (first : head.first = true) (last : tail.last = true) :
    (∃ v, clash head v ∈ conflictsOn (tally ss).conflicts head.key) ∧
      ∃ v, clash v tail ∈ conflictsOn (tally ss).conflicts head.key := by
  induction ss using reverseRecOn generalizing head tail with
  | nil => cases hh
  | append_singleton ss s ih =>
    simp only [conflictsOn_snoc, mem_append]
    have meets : ∀ {k}, head.key = s.key → k ∈ fresh ss s → k ∈ if head.key = s.key then fresh ss s else [] := by
      intro k e hk
      rwa [if_pos e]
    rcases mem_append.mp hh with hh | hh <;> rcases mem_append.mp ht with ht | ht
    · obtain ⟨⟨v, hv⟩, w, hw⟩ := ih hh ht same first last
      exact ⟨⟨v, .inl hv⟩, w, .inl hw⟩
    · -- the head was noted before the tail
      cases mem_singleton.mp ht
      have met : clash head s ∈ fresh ss s := by
        refine mem_fresh.mpr (.inr ⟨head, hh, same, ?_⟩)
        simp [Sighting.against, first, last]
      exact ⟨⟨s, .inr (meets same met)⟩, head, .inr (meets same met)⟩
    · -- the tail was noted before the head
      cases mem_singleton.mp hh
      by_cases both : tail.first = true ∧ s.last = true
      · -- only the order with the tail as head is recorded, but both have collided with themselves
        have self : clash s s ∈ fresh ss s := mem_fresh.mpr (.inl ⟨first, both.2, rfl⟩)
        obtain ⟨-, v, hv⟩ := ih ht ht rfl both.1 last
        exact ⟨⟨s, .inr (meets rfl self)⟩, v, .inl (same ▸ hv)⟩
      · have met : clash s tail ∈ fresh ss s := by
          refine mem_fresh.mpr (.inr ⟨tail, ht, same.symm, ?_⟩)
          simp [Sighting.against, first, last, both]
        exact ⟨⟨tail, .inr (meets rfl met)⟩, s, .inr (meets rfl met)⟩
    · cases mem_singleton.mp hh
      cases mem_singleton.mp ht
      have self : clash s s ∈ fresh ss s := mem_fresh.mpr (.inl ⟨first, last, rfl⟩)
      exact ⟨⟨s, .inr (meets rfl self)⟩, s, .inr (meets rfl self)⟩

/-! ## Pairs -/

theorem pair_of_against {s : Sighting} (h : s.against v = some k) :
    k.pair = (v.access, s.access) ∨ k.pair = (s.access, v.access) := by
  rcases against_eq_some h with ⟨-, -, rfl⟩ | ⟨-, -, rfl⟩
  · exact .inl rfl
  · exact .inr rfl

theorem fresh_pairs_nodup (nodup : (before.map Sighting.access).Nodup)
    (new : s.access ∉ before.map Sighting.access) : ((fresh before s).map Conflict.pair).Nodup := by
  have other : ∀ v ∈ before, v.access ≠ s.access := fun v hv e => new (e ▸ mem_map_of_mem hv)
  have apart : before.Pairwise fun v w => ∀ k ∈ s.against v, ∀ l ∈ s.against w, k.pair ≠ l.pair := by
    refine (pairwise_map.mp nodup).imp_of_mem fun {v w} hv hw ne k hk l hl e => ?_
    rcases pair_of_against hk with hk | hk <;> rcases pair_of_against hl with hl | hl <;>
      simp_all
  unfold fresh
  rw [map_append, nodup_append]
  refine ⟨?_, ?_, ?_⟩
  · split <;> simp
  · refine pairwise_map.mpr (pairwise_filterMap.mpr ?_)
    exact (apart.filter _).imp fun h k hk l hl => h k hk l hl
  · intro p hp q hq e
    obtain ⟨k, hk, rfl⟩ := mem_map.mp hq
    obtain ⟨v, hv, hk⟩ := mem_filterMap.mp hk
    have ne := other v (mem_filter.mp hv).1
    split at hp
    · cases mem_singleton.mp hp
      rcases pair_of_against hk with hk | hk
      · exact ne (congrArg Prod.fst (e.trans hk)).symm
      · exact ne (congrArg Prod.snd (e.trans hk)).symm
    · cases hp

theorem pairs_nodup (nodup : (ss.map Sighting.access).Nodup) (key : Key) :
    ((conflictsOn (tally ss).conflicts key).map Conflict.pair).Nodup := by
  induction ss using reverseRecOn with
  | nil => exact nodup_nil
  | append_singleton ss s ih =>
    simp only [map_append, map_cons, map_nil, nodup_append, mem_singleton] at nodup
    obtain ⟨nodup, -, apart⟩ := nodup
    have new : s.access ∉ ss.map Sighting.access := fun hs => apart _ hs _ rfl rfl
    rw [conflictsOn_snoc, map_append, nodup_append]
    refine ⟨ih nodup, ?_, ?_⟩
    · split
      · exact fresh_pairs_nodup nodup new
      · exact nodup_nil
    · -- those from before do not name the new access
      intro p hp q hq e
      obtain ⟨k, hk, rfl⟩ := mem_map.mp hp
      obtain ⟨head, hh, tail, ht, -, -, -, -, rfl⟩ := clash_of_mem hk
      split at hq
      · obtain ⟨l, hl, rfl⟩ := mem_map.mp hq
        rcases mem_fresh.mp hl with ⟨-, -, rfl⟩ | ⟨v, -, -, hl⟩
        · simp_all [Conflict.pair, clash]
        · rcases pair_of_against hl with hl | hl <;> simp_all [Conflict.pair, clash]
      · cases hq

theorem all_pairs_nodup (nodup : (ss.map Sighting.access).Nodup) :
    (((tally ss).conflicts.flatMap Prod.snd).map Conflict.pair).Nodup := by
  rw [map_flatMap, nodup_flatMap]
  constructor
  · intro p hp
    rw [mem_tally ss hp]
    exact pairs_nodup nodup p.1
  · refine (pairwise_map.mp (keys_tally ss)).imp_of_mem fun {p q} hp hq ne => ?_
    intro e he he'
    obtain ⟨k, hk, rfl⟩ := mem_map.mp he
    obtain ⟨l, hl, same⟩ := mem_map.mp he'
    obtain ⟨head, hh, tail, -, key, -, -, -, rfl⟩ := clash_of_mem (mem_tally ss hp ▸ hk)
    obtain ⟨head', hh', tail', -, key', -, -, -, rfl⟩ := clash_of_mem (mem_tally ss hq ▸ hl)
    have one : head' = head := inj_on_of_nodup_map nodup hh' hh (congrArg Prod.fst same)
    exact ne (key.symm.trans (one ▸ key'))

end Datapath.Loop
