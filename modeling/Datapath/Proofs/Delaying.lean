import Datapath.Proofs.Hazards
import Datapath.Proofs.RegionWalk
import Mathlib.Data.Finset.Card
import Mathlib.Order.Lattice

/-!
# What resolving conflicts adds to a design

Conflicts are resolved on one side, where each access is delayed once. A delay is one dependency of one
clock. Resolving stops at the first access that cannot be delayed, and counts those before it.
-/

namespace Datapath

open List

/-! ## Distinct elements -/

section
variable {α : Type} [DecidableEq α]

/-- The elements of a list, each once, in the order of their first occurrences. -/
structure Firsts (l firsts : List α) : Prop where
  nodup : firsts.Nodup
  mem : ∀ a, a ∈ firsts ↔ a ∈ l
  order : firsts.Pairwise fun a b => l.idxOf a < l.idxOf b

theorem idxOf_lt_of_filter {p : α → Bool} {l : List α} {a b : α} (ha : p a = true) (hb : p b = true) (ne : a ≠ b)
    (h : (l.filter p).idxOf a < (l.filter p).idxOf b) : l.idxOf a < l.idxOf b := by
  induction l with
  | nil => simp at h
  | cons c l ih =>
    by_cases e : c = a
    · subst e
      simp [ne]
    by_cases e' : c = b
    · subst e'
      simp [hb] at h
    have h : (l.filter p).idxOf a < (l.filter p).idxOf b := by
      by_cases hc : p c = true
      · simpa [hc, e, e'] using h
      · simpa [hc] using h
    simpa [e, e'] using ih h

theorem eraseDups_pairwise_idxOf (l : List α) : l.eraseDups.Pairwise fun a b => l.idxOf a < l.idxOf b := by
  cases l with
  | nil => exact .nil
  | cons c l =>
    have other : ∀ {b}, b ∈ (l.filter fun b => !b == c).eraseDups → b ≠ c := by
      intro b hb
      simpa using (mem_filter.mp (mem_eraseDups.mp hb)).2
    rw [eraseDups_cons]
    constructor
    · intro b hb
      simp [(other hb).symm]
    · refine (eraseDups_pairwise_idxOf (l.filter fun b => !b == c)).imp_of_mem fun {a b} ha hb lt => ?_
      have ne : a ≠ b := fun e => Nat.lt_irrefl _ (e ▸ lt)
      have := idxOf_lt_of_filter (by simpa using other ha) (by simpa using other hb) ne lt
      simpa [(other ha).symm, (other hb).symm] using this
termination_by l.length
decreasing_by exact Nat.lt_succ_of_le (length_filter_le ..)

end

theorem firsts_eraseDups (l : List OpId) : Firsts l l.eraseDups :=
  ⟨nodup_eraseDups l, fun _ => mem_eraseDups, eraseDups_pairwise_idxOf l⟩

namespace Loop

theorem countDistinct_eq (ids : List OpId) : ConflictSet.countDistinct ids = ids.toFinset.card := by
  rw [ConflictSet.countDistinct, ← toFinset_card_of_nodup (nodup_eraseDups ids)]
  congr 1
  ext a
  simp

/-! ## Policies -/

def delayCount (heads tails : Nat) : Policy → Nat
  | .fixNone | .unnamed _ => 0
  | .firstAlways => heads
  | .lastAlways => tails
  | .fixFewest => min heads tails
  | .fixMost => max heads tails

section
variable {cs : ConflictSet}

theorem ConflictSet.side_heads (h : cs.delaysHeads = true) : cs.side = Conflict.headAccess := by
  funext k
  simp [ConflictSet.side, h]

theorem ConflictSet.side_tails (h : cs.delaysHeads = false) : cs.side = Conflict.tailAccess := by
  funext k
  simp [ConflictSet.side, h]

section
variable (made : ConflictSet.make policy conflicts = .ok cs)
include made

theorem firsts_delayed : Firsts (if policy = .fixNone then [] else conflicts.map cs.side) cs.delayed := by
  obtain ⟨rfl, rfl, -⟩ := ConflictSet.make_conflicts made
  by_cases none : cs.policy = .fixNone
  · simp only [ConflictSet.delayed, ConflictSet.resolves, none]
    exact firsts_eraseDups []
  · simp only [ConflictSet.delayed, ConflictSet.resolves, none, bne_iff_ne, ne_eq, not_false_eq_true, if_false]
    exact firsts_eraseDups _

theorem length_delayed : cs.delayed.length = delayCount (conflicts.map Conflict.headAccess).toFinset.card
      (conflicts.map Conflict.tailAccess).toFinset.card policy := by
  have length : cs.delayed.length = (if policy = .fixNone then [] else conflicts.map cs.side).toFinset.card := by
    have firsts := firsts_delayed made
    rw [← toFinset_card_of_nodup firsts.nodup]
    congr 1
    ext a
    rw [mem_toFinset, mem_toFinset, firsts.mem]
  rw [length]
  cases policy with
  | unnamed code => cases made
  | fixNone => simp [delayCount]
  | firstAlways =>
    rw [if_neg (by simp), ConflictSet.side_heads (by cases made; rfl), delayCount]
  | lastAlways =>
    rw [if_neg (by simp), ConflictSet.side_tails (by cases made; rfl), delayCount]
  | fixFewest =>
    have chosen : cs.delaysHeads = decide ((conflicts.map Conflict.headAccess).toFinset.card ≤
        (conflicts.map Conflict.tailAccess).toFinset.card) := by
      cases made
      simp only [countDistinct_eq]
    rw [if_neg (by simp), delayCount]
    by_cases le :
      (conflicts.map Conflict.headAccess).toFinset.card ≤ (conflicts.map Conflict.tailAccess).toFinset.card
    · rw [ConflictSet.side_heads (by simpa [le] using chosen), Nat.min_eq_left le]
    · rw [ConflictSet.side_tails (by simpa [le] using chosen), Nat.min_eq_right (by omega)]
  | fixMost =>
    have chosen : cs.delaysHeads = decide ((conflicts.map Conflict.tailAccess).toFinset.card <
        (conflicts.map Conflict.headAccess).toFinset.card) := by
      cases made
      simp only [countDistinct_eq]
    rw [if_neg (by simp), delayCount]
    by_cases lt :
      (conflicts.map Conflict.tailAccess).toFinset.card < (conflicts.map Conflict.headAccess).toFinset.card
    · rw [ConflictSet.side_heads (by simpa [lt] using chosen), Nat.max_eq_left (by omega)]
    · rw [ConflictSet.side_tails (by simpa [lt] using chosen), Nat.max_eq_right (by omega)]

end

end

theorem opposite_sides (conflicts : List Conflict) : ∃ few many, ConflictSet.make .fixFewest conflicts = .ok few ∧
    ConflictSet.make .fixMost conflicts = .ok many ∧ few.delaysHeads = !many.delaysHeads := by
  refine ⟨_, _, rfl, rfl, ?_⟩
  simp [← decide_not]

/-- Resolving adds one dependency of one clock for each access that it counts: for the distinct accesses of the
delayed side in the order in which they first occur, up to the first that has no correlation, owner or exit.
How many there are depends on the policy, and the policies for the fewest and for the most choose opposite sides. -/
theorem resolve_appends_counted {policy : Policy} {conflicts : List Conflict} {cs : ConflictSet}
    {corr : Correlation} {d d' : Design} {n : Nat} {err : Option Error} (hd : WellFormed d)
    (made : ConflictSet.make policy conflicts = .ok cs) (ran : cs.resolve corr d = .ok ((n, err), d')) :
    (∃ new, d' = new.foldl Design.attach d ∧ d'.deps.toList = d.deps.toList ++ new ∧ new.length = n ∧
      (∀ v ∈ new, v.kind = .resource ∧ v.minClocks = 1) ∧ List.Forall₂ (fun a v => ∃ c, corr a = some c ∧
        Delays d cs.delaysHeads c v) (cs.delayed.take n) new) ∧
      Firsts (if policy = .fixNone then [] else conflicts.map cs.side) cs.delayed ∧
    (∀ e, err = some e → ∃ a, cs.delayed[n]? = some a ∧ Stuck d cs.delaysHeads corr a e) ∧
    (err = none → n = cs.delayed.length ∧
      n = delayCount (conflicts.map Conflict.headAccess).toFinset.card
      (conflicts.map Conflict.tailAccess).toFinset.card policy) ∧ ∃ few many,
      ConflictSet.make .fixFewest conflicts = .ok few ∧ ConflictSet.make .fixMost conflicts = .ok many ∧
    few.delaysHeads = !many.delaysHeads := by
  obtain ⟨new, rfl, -, count, each, ended⟩ := delayAll_attaches hd ran
  rw [Nat.zero_add] at count
  subst count
  refine ⟨⟨new, rfl, attachAll_deps d new, rfl, ?_, ?_⟩, ?_, ?_, ?_, opposite_sides conflicts⟩
  · intro v hv
    obtain ⟨a, -, kind, clock, -⟩ := forall₂_right each _ hv
    exact ⟨kind, clock⟩
  · exact each.imp fun _ _ h => h.2.2
  · exact firsts_delayed made
  · rintro e rfl
    rcases ended with ⟨none, -⟩ | ⟨a, e', there, some, stuck⟩
    · cases none
    · cases some
      exact ⟨a, there, stuck⟩
  · rintro rfl
    rcases ended with ⟨-, all⟩ | ⟨_, _, -, some, -⟩
    · exact ⟨all, all.trans (length_delayed made)⟩
    · cases some

def sharedConflicts : List Conflict :=
  [⟨15, [11], 19, [11]⟩, ⟨16, [11], 19, [11]⟩, ⟨15, [11], 17, [11]⟩, ⟨17, [11], 19, [11]⟩]

/-- The policy for the most delays every head once. Where the last of them has no correlation, it
delays the others. -/
theorem shared_heads_delayed_once : ∃ d d₁ d₂ cs e, runAll followedCommands { name := "x" } = some d ∧
    ConflictSet.make .fixMost sharedConflicts = .ok cs ∧ cs.resolve (identity d) d = .ok ((3, none), d₁) ∧
    cs.resolve (fun a => if a = 17 then none else some a) d = .ok ((2, some e), d₂) ∧
    (∃ new, d₁.deps.toList = d.deps.toList ++ new ∧
      List.Forall₂ (fun a v => ∃ c, identity d a = some c ∧ Delays d true c v) [15, 16, 17] new) ∧
    (∃ new, d₂.deps.toList = d.deps.toList ++ new ∧ new.length = 2) ∧ d.malformed 17 .noCorrelation = .ok e := by
  obtain ⟨d, hd, cs, made, heads, delayed, ⟨_, _⟩, d₁, all, ⟨⟩, ⟨⟩, ⟨_, e⟩, d₂, some, ⟨⟩, failed⟩ :
      ∃ d, runAll followedCommands { name := "x" } = some d ∧ ∃ cs,
      ConflictSet.make .fixMost sharedConflicts = .ok cs ∧ cs.delaysHeads = true ∧ cs.delayed = [15, 16, 17] ∧
      (∃ r d₁, cs.resolve (identity d) d = .ok (r, d₁) ∧ r.1 = 3 ∧ r.2 = none ∧
      ∃ r d₂, cs.resolve (fun a => if a = 17 then none else some a) d = .ok (r, d₂) ∧ r.1 = 2 ∧
      r.2.isSome = true) := by
    decide +kernel
  obtain ⟨e, rfl⟩ := Option.isSome_iff_exists.mp failed
  have wf := ((Built.empty "x").runAll hd).wellFormed
  obtain ⟨⟨new, -, grown, -, -, each⟩, -⟩ := resolve_appends_counted wf made all
  obtain ⟨⟨new', -, grown', two, -⟩, -, stuck, -⟩ := resolve_appends_counted wf made some
  rw [delayed, heads] at each
  obtain ⟨a, third, why⟩ := stuck e rfl
  rw [delayed] at third
  cases third
  refine ⟨d, d₁, d₂, cs, e, hd, made, all, some, ⟨new, grown, each⟩, ⟨new', grown', two⟩, ?_⟩
  rcases why with ⟨-, he⟩ | ⟨c, hc, -⟩
  · exact he
  · cases hc

end Loop

end Datapath
