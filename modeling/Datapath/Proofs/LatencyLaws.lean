import Datapath.Proofs.Intervals
import Datapath.Timing
import Mathlib.Data.List.Induction
import Mathlib.Data.List.Perm.Basic

/-!
# The algebra of latencies

Latencies as they are made are ordered by dominance, and adding them is a monoid with the latency zero
that keeps this order. The scan that collects the latest ones leaves those that nothing dominates
strictly, of equivalent ones the first. Combining the latencies of several inputs depends neither on
their order nor on those that another one dominates.
-/

namespace Datapath.Latency

/-! ## What is left of a list of latencies -/

section
open List

/-- The latency at a place of the list is dominated only by equivalent ones, and by none before it. -/
def Remains (ls : List Latency) (p : Latency × Nat) : Prop :=
  ∀ q ∈ ls.zipIdx, (q.1.dominates p.1 → p.1.dominates q.1) ∧ (q.2 < p.2 → ¬ q.1.dominates p.1)

instance : Decidable (Remains ls p) := inferInstanceAs (Decidable (∀ _ ∈ _, _))

/-- A valid latency that has a key only if it is open. -/
def Formed (l : Latency) : Prop := l.Valid ∧ (l.isOpen = false → l.key = 0)

instance (l : Latency) : Decidable l.Formed := inferInstanceAs (Decidable (_ ∧ _))

/-! ## One more latency -/

theorem latest_append (ls : List Latency) (a : Latency) : latest (ls ++ [a]) = insertLatest (latest ls) a := by
  simp [latest]

theorem zipIdx_snoc (ls : List Latency) (a : Latency) : (ls ++ [a]).zipIdx = ls.zipIdx ++ [(a, ls.length)] := by
  simp [zipIdx_append]

theorem place_lt {ls : List Latency} (hp : p ∈ ls.zipIdx) : p.2 < ls.length := by
  simpa using snd_lt_of_mem_zipIdx hp

theorem exists_place {ls : List Latency} (hl : l ∈ ls) : ∃ i, (l, i) ∈ ls.zipIdx := by
  rw [← zipIdx_map_fst 0 ls] at hl
  obtain ⟨p, hp, rfl⟩ := mem_map.mp hl
  exact ⟨p.2, hp⟩

theorem remains_snoc (hp : p ∈ ls.zipIdx) :
    Remains (ls ++ [a]) p ↔ Remains ls p ∧ (a.dominates p.1 → p.1.dominates a) := by
  have early : ¬ ls.length < p.2 := Nat.not_lt.mpr (Nat.le_of_lt (place_lt hp))
  unfold Remains
  rw [zipIdx_snoc, forall_mem_append]
  simp [early]

theorem remains_last : Remains (ls ++ [a]) (a, ls.length) ↔ ∀ k ∈ ls, ¬ k.dominates a := by
  constructor
  · intro h k hk
    obtain ⟨i, hi⟩ := exists_place hk
    have before := (h (k, i) (by simp [zipIdx_snoc, hi])).2
    exact before (place_lt hi)
  · intro h q hq
    rw [zipIdx_snoc, mem_append, mem_singleton] at hq
    rcases hq with hq | rfl
    · have free := h q.1 (fst_mem_of_mem_zipIdx hq)
      exact ⟨fun hd => absurd hd free, fun _ => free⟩
    · exact ⟨id, fun lt => absurd lt (Nat.lt_irrefl _)⟩

theorem any_latest : (latest ls).any (·.dominates a) = true ↔ ∃ k ∈ ls, k.dominates a = true := by
  obtain ⟨sub, dominated⟩ := latest_dominates ls
  rw [any_eq_true]
  constructor
  · rintro ⟨k, hk, h⟩
    exact ⟨k, sub k hk, h⟩
  · rintro ⟨l, hl, h⟩
    obtain ⟨k, hk, hkl⟩ := dominated l hl
    exact ⟨k, hk, dominates_trans hkl h⟩

/-! ## What stays -/

theorem latest_eq (ls : List Latency) : latest ls = (ls.zipIdx.filter fun p => Remains ls p).map Prod.fst := by
  induction ls using reverseRecOn with
  | nil => rfl
  | append_singleton ls a ih =>
    rw [latest_append, insertLatest, zipIdx_snoc, filter_append]
    by_cases known : ∃ k ∈ ls, k.dominates a = true
    · -- a latency that is dominated strikes out nothing: what dominates it did so before
      obtain ⟨k, hk, hka⟩ := known
      rw [if_pos (any_latest.mpr ⟨k, hk, hka⟩), ih]
      have gone : ¬ Remains (ls ++ [a]) (a, ls.length) := fun h => remains_last.mp h k hk hka
      have same : ∀ p ∈ ls.zipIdx, decide (Remains ls p) = decide (Remains (ls ++ [a]) p) := by
        intro p hp
        rw [decide_eq_decide, remains_snoc hp]
        refine ⟨fun h => ⟨h, fun hap => ?_⟩, And.left⟩
        obtain ⟨i, hi⟩ := exists_place hk
        exact dominates_trans ((h (k, i) hi).1 (dominates_trans hka hap)) hka
      simp [filter_congr same, gone]
    · have free : ∀ k ∈ ls, ¬ k.dominates a := fun k hk h => known ⟨k, hk, h⟩
      rw [if_neg (mt any_latest.mp known), ih, filter_map]
      have same : ∀ p ∈ ls.zipIdx,
          (!a.dominates p.1 && decide (Remains ls p)) = decide (Remains (ls ++ [a]) p) := by
        intro p hp
        have lost := free p.1 (fst_mem_of_mem_zipIdx hp)
        rw [Bool.eq_iff_iff, decide_eq_true_eq, remains_snoc hp]
        simp [lost, and_comm]
      simp [filter_congr same, remains_last.mpr free]

theorem latest_apart (ls : List Latency) : (latest ls).Pairwise fun k l => ¬ k.dominates l ∧ ¬ l.dominates k := by
  have places : ls.zipIdx.Pairwise fun p q => p.2 < q.2 := by
    apply pairwise_map.mp
    rw [zipIdx_map_snd]
    exact pairwise_lt_range'
  rw [latest_eq, pairwise_map, pairwise_filter]
  refine places.imp_of_mem fun {p q} hp hq lt stays stays' => ?_
  have earlier : ¬ p.1.dominates q.1 := ((of_decide_eq_true stays') p hp).2 lt
  exact ⟨earlier, fun h => earlier (((of_decide_eq_true stays) q hq).1 h)⟩

theorem latest_of_apart (h : ls.Pairwise fun k l => ¬ k.dominates l ∧ ¬ l.dominates k) : latest ls = ls := by
  induction ls using reverseRecOn with
  | nil => rfl
  | append_singleton ls a ih =>
    rw [pairwise_append] at h
    obtain ⟨apart, -, across⟩ := h
    have none : ls.any (·.dominates a) = false := by
      simpa using fun k hk => (across k hk a (mem_singleton_self a)).1
    have all : ls.filter (fun k => !a.dominates k) = ls := by
      simpa using fun k hk => (across k hk a (mem_singleton_self a)).2
    simp [latest_append, ih apart, insertLatest, none, all]

/-! ## Latencies as they are made -/

theorem Formed.antisymm {l : Latency} (hk : k.Formed) (hl : l.Formed) (h : k.dominates l) (h' : l.dominates k) :
    k = l := by
  obtain ⟨cover, keys⟩ := dominates_iff.mp h
  obtain ⟨cover', -⟩ := dominates_iff.mp h'
  have same : k.isOpen = l.isOpen := Bool.eq_iff_iff.mpr ⟨cover'.isOpen, cover.isOpen⟩
  have min : k.min = l.min := Int64.toInt_inj.mp (Int.le_antisymm cover'.1 cover.1)
  cases hopen : k.isOpen with
  | true =>
    have hopen' := same ▸ hopen
    have max := (max_of_isOpen hopen).trans (max_of_isOpen hopen').symm
    cases k; simp_all
  | false =>
    have hopen' := same ▸ hopen
    have max : k.max = l.max := Int64.toInt_inj.mp (Int.le_antisymm (cover'.max_le hopen') (cover.max_le hopen))
    have key := (hk.2 hopen).trans (hl.2 hopen').symm
    cases k; simp_all

theorem mem_latest (formed : ∀ l ∈ ls, l.Formed) : l ∈ latest ls ↔ l ∈ ls ∧ ∀ k ∈ ls, k.dominates l → k = l := by
  constructor
  · intro hl
    rw [latest_eq] at hl
    obtain ⟨p, hp, rfl⟩ := mem_map.mp hl
    obtain ⟨hp, stays⟩ := mem_filter.mp hp
    have mem := fst_mem_of_mem_zipIdx hp
    refine ⟨mem, fun k hk h => ?_⟩
    obtain ⟨i, hi⟩ := exists_place hk
    exact (formed k hk).antisymm (formed _ mem) h (((of_decide_eq_true stays) (k, i) hi).1 h)
  · rintro ⟨hl, only⟩
    obtain ⟨sub, dominated⟩ := latest_dominates ls
    obtain ⟨k, hk, h⟩ := dominated l hl
    exact only k (sub k hk) h ▸ hk

theorem latest_nodup (ls : List Latency) : (latest ls).Nodup := by
  refine (latest_apart ls).imp ?_
  rintro k _ ⟨apart, -⟩ rfl
  exact apart (dominates_refl k)

theorem latest_perm (formed : ∀ l ∈ ls, l.Formed) (h : ls'.Perm ls) : (latest ls').Perm (latest ls) := by
  have formed' : ∀ l ∈ ls', l.Formed := fun l hl => formed l (h.mem_iff.mp hl)
  refine (perm_ext_iff_of_nodup (latest_nodup ls') (latest_nodup ls)).mpr fun l => ?_
  simp only [mem_latest formed, mem_latest formed', h.mem_iff]

/-- The latest latencies are those that nothing dominates strictly and nothing before them dominates, in
their order. They dominate all others and none of themselves, and collecting them again changes nothing.
Another order of a list of latencies as they are made gives the same ones in another order. -/
theorem latest_keeps_undominated (ls : List Latency) :
    latest ls = (ls.zipIdx.filter fun p => Remains ls p).map Prod.fst ∧
      (∀ l ∈ ls, ∃ k ∈ latest ls, k.dominates l) ∧
      (latest ls).Pairwise (fun k l => ¬ k.dominates l ∧ ¬ l.dominates k) ∧
      latest (latest ls) = latest ls ∧
      ((∀ l ∈ ls, l.Formed) → ∀ ls', ls'.Perm ls → (latest ls').Perm (latest ls)) :=
  ⟨latest_eq ls, (latest_dominates ls).2, latest_apart ls, latest_of_apart (latest_apart ls),
    fun formed _ h => latest_perm formed h⟩

def mixed : List Latency := [⟨1, 2, 0⟩, ⟨0, unknown, 5⟩, ⟨3, 3, 0⟩, ⟨2, unknown, 7⟩, ⟨1, unknown, 5⟩, ⟨3, 3, 0⟩]

theorem mixed_latest : latest mixed = [⟨3, 3, 0⟩, ⟨2, unknown, 7⟩, ⟨1, unknown, 5⟩] ∧
    (∀ l ∈ mixed, l.Formed) ∧ (latest mixed.reverse).Perm (latest mixed) := by
  have formed : ∀ l ∈ mixed, l.Formed := by decide
  exact ⟨by decide, formed, (latest_keeps_undominated mixed).2.2.2.2 formed _ (reverse_perm mixed)⟩

/-- Latencies that are not made so can be equivalent; then the first one stays. -/
example : latest [⟨5, 2, 1⟩, ⟨5, 2, 0⟩] = [⟨5, 2, 1⟩] ∧ latest [⟨5, 2, 0⟩, ⟨5, 2, 1⟩] = [⟨5, 2, 0⟩] := by decide

end

open List

/-! ## Sums -/

theorem after_assoc {a : Latency} (ha : a.Valid) (hb : b.Valid) (hc : c.Valid) : (a.after b).after c = a.after
  (b.after c) := by
  have ab := after_isOpen ha hb
  have bc := after_isOpen hb hc
  have sides : (a.after b).after c = ⟨a.min + b.min + c.min,
      if a.isOpen || b.isOpen || c.isOpen then unknown else (a.after b).max + c.max,
      if a.isOpen || b.isOpen then (a.after b).key else c.key⟩ := by rw [← ab]; rfl
  have sides' : a.after (b.after c) = ⟨a.min + (b.min + c.min),
      if a.isOpen || (b.isOpen || c.isOpen) then unknown else a.max + (b.after c).max,
      if a.isOpen then a.key else (b.after c).key⟩ := by rw [← bc]; rfl
  rw [sides, sides', Int64.add_assoc]
  cases ao : a.isOpen <;> cases bo : b.isOpen <;> cases co : c.isOpen <;> simp [after, ao, bo, co, Int64.add_assoc]

theorem zero_after (a : Latency) : zero.after a = a := by
  have closed : zero.isOpen = false := rfl
  simp only [after, closed, Bool.false_or]
  cases ao : a.isOpen with
  | true => simp [zero, ← max_of_isOpen ao]
  | false => simp [zero]

theorem Formed.after_zero {a : Latency} (h : a.Formed) : a.after zero = a := by
  have closed : zero.isOpen = false := rfl
  simp only [Latency.after, closed, Bool.or_false]
  cases ao : a.isOpen with
  | true => simp [zero, ← max_of_isOpen ao]
  | false =>
    simp [zero]
    rw [← h.2 ao]

theorem Formed.after {a : Latency} (ha : a.Formed) (hb : b.Formed) (fits : a.Adds b) : (a.after b).Formed := by
  refine ⟨ha.1.after hb.1 fits, fun closed => ?_⟩
  rw [after_isOpen ha.1 hb.1, Bool.or_eq_false_iff] at closed
  simpa [Latency.after, closed.1] using hb.2 closed.2

/-- A later base gives a later sum. Only the sum with the later base has to fit. -/
theorem after_mono {a : Latency} (ha : a.Valid) (hb : b.Valid) (hc : c.Valid) (fits : a.Adds b)
  (h : b.dominates c = true) :
    (a.after b).dominates (a.after c) = true := by
  obtain ⟨cover, keys⟩ := dominates_iff.mp h
  have min : (a.after c).min.toInt = a.min.toInt + c.min.toInt := by
    have := cover.1
    have := fits.1
    exact toInt_add_of_lt ha.1 hc.1 (by omega)
  refine dominates_iff.mpr ⟨covers_iff.mpr ⟨?_, fun closed => ?_⟩, ?_⟩
  · rw [min, after_min ha hb fits]
    have := cover.1
    omega
  · rw [after_isOpen ha hb, Bool.or_eq_false_iff] at closed
    obtain ⟨closed', le⟩ := (covers_iff.mp cover).2 closed.2
    have room := fits.2 closed.1 closed.2
    have max : (a.after c).max.toInt = a.max.toInt + c.max.toInt := by
      simp only [after, closed.1, closed']
      exact toInt_add_of_lt (ha.max_nonneg closed.1) (hc.max_nonneg closed') (by omega)
    rw [after_isOpen ha hc, closed.1, closed', max, after_max ha hb fits closed.1 closed.2]
    exact ⟨rfl, by omega⟩
  · rw [after_isOpen ha hb, after_isOpen ha hc]
    intro sum sum'
    cases ao : a.isOpen with
    | true => simp [after, ao]
    | false =>
      simp only [ao, Bool.false_or] at sum sum'
      simpa [after, ao] using keys sum sum'

/-- Dominance is a preorder, and an order on latencies as they are made. Adding these is associative with
zero as its unit, also where sums wrap around, and an open summand is what makes a sum open. Sums that
fit are again latencies as they are made, and they grow with their base. -/
theorem latency_algebra :
    (∀ a : Latency, a.dominates a) ∧
      (∀ a b c : Latency, a.dominates b → b.dominates c → a.dominates c) ∧
      (∀ a b : Latency, a.Formed → b.Formed → a.dominates b → b.dominates a → a = b) ∧
      (∀ a b c : Latency, a.Formed → b.Formed → c.Formed → (a.after b).after c = a.after (b.after c)) ∧
      (∀ a : Latency, a.Formed → zero.after a = a ∧ a.after zero = a) ∧
      (∀ a b : Latency, a.Formed → b.Formed → a.Adds b → (a.after b).Formed) ∧
      (∀ a b c : Latency, a.Formed → b.Formed → c.Formed → a.Adds b → b.dominates c →
        (a.after b).dominates (a.after c)) ∧
      ∀ a b : Latency, a.Formed → b.Formed → ((a.after b).isOpen ↔ a.isOpen ∨ b.isOpen) :=
  ⟨dominates_refl, fun _ _ _ => dominates_trans, fun _ _ => Formed.antisymm,
    fun _ _ _ ha hb hc => after_assoc ha.1 hb.1 hc.1, fun a ha => ⟨zero_after a, ha.after_zero⟩,
    fun _ _ => Formed.after, fun _ _ _ ha hb hc => after_mono ha.1 hb.1 hc.1,
    fun _ _ ha hb => by rw [after_isOpen ha.1 hb.1, Bool.or_eq_true]⟩

theorem open_sum_grows : Formed ⟨1, unknown, 3⟩ ∧ Formed ⟨2, 5, 0⟩ ∧ Formed ⟨1, 5, 0⟩ ∧
    Adds ⟨1, unknown, 3⟩ ⟨2, 5, 0⟩ ∧ dominates ⟨2, 5, 0⟩ ⟨1, 5, 0⟩ ∧
    (after ⟨1, unknown, 3⟩ ⟨2, 5, 0⟩).dominates (after ⟨1, unknown, 3⟩ ⟨1, 5, 0⟩) := by
  have ha : Formed ⟨1, unknown, 3⟩ := by decide
  have hb : Formed ⟨2, 5, 0⟩ := by decide
  have hc : Formed ⟨1, 5, 0⟩ := by decide
  have fits : Adds ⟨1, unknown, 3⟩ ⟨2, 5, 0⟩ := ⟨by decide, nofun⟩
  obtain ⟨-, -, -, -, -, -, mono, -⟩ := latency_algebra
  exact ⟨ha, hb, hc, fits, by decide, mono _ _ _ ha hb hc fits (by decide)⟩

/-! ## Combinations -/

theorem Ends.max_eq (h : Ends ls l) (h' : Ends ls k) : l.max = k.max := by
  have same : l.isOpen = k.isOpen := h.isOpen.trans h'.isOpen.symm
  cases lo : l.isOpen with
  | true => exact (max_of_isOpen lo).trans (max_of_isOpen (same ▸ lo)).symm
  | false =>
    have ko : k.isOpen = false := same ▸ lo
    obtain ⟨i, hi, e⟩ := h.attained lo
    obtain ⟨j, hj, e'⟩ := h'.attained ko
    have le := h'.upper ko i hi
    have ge := h.upper lo j hj
    rw [e] at le
    rw [e'] at ge
    exact Int64.toInt_inj.mp (Int.le_antisymm le ge)

theorem Ends.perm (h : Ends ls l) (p : ls'.Perm ls) : Ends ls' l where
  isOpen := by rw [h.isOpen, p.any_eq]
  attained closed := (h.attained closed).imp fun _ hk => hk.imp_left p.mem_iff.mpr
  upper closed k hk := h.upper closed k (p.mem_iff.mp hk)

theorem min_unique {ls : List Latency} {R : Int → Int → Prop} (antisymm : ∀ {x y}, R x y → R y x → x = y)
    (hx : (∃ k ∈ ls, k.min = x) ∧ ∀ k ∈ ls, R x.toInt k.min.toInt)
    (hy : (∃ k ∈ ls, k.min = y) ∧ ∀ k ∈ ls, R y.toInt k.min.toInt) : x = y := by
  obtain ⟨⟨i, hi, rfl⟩, best⟩ := hx
  obtain ⟨⟨j, hj, rfl⟩, best'⟩ := hy
  exact Int64.toInt_inj.mp (antisymm (best j hj) (best' i hi))

def bounds (l : Latency) : Int64 × Int64 := (l.min, l.max)

theorem bounds_allOf_latest (ls : List Latency) : (allOf (latest ls)).bounds = (allOf ls).bounds := by
  by_cases none : ls = []
  · rw [none]
    rfl
  · have min :=
      min_unique (R := (· ≥ ·)) (fun h h' => Int.le_antisymm h' h) (allOf_latest_min none) (allOf_min none)
    exact Prod.ext min ((ends_combine (latest_ne_nil none)).of_latest.max_eq (ends_combine none))

theorem bounds_perm (p : ls'.Perm ls) :
    (allOf ls').bounds = (allOf ls).bounds ∧ (anyOf ls').bounds = (anyOf ls).bounds := by
  by_cases none : ls = []
  · rw [none] at p ⊢
    rw [p.eq_nil]
    exact ⟨rfl, rfl⟩
  have none' : ls' ≠ [] := fun e => none (e ▸ p).nil_eq.symm
  have max {pick : Int64 → Int64 → Int64} : (combine pick ls').max = (combine pick ls).max :=
    (ends_combine none').max_eq ((ends_combine none).perm p)
  have last := allOf_min none'
  have first := anyOf_min none'
  simp only [p.mem_iff] at last first
  exact ⟨Prod.ext (min_unique (R := (· ≥ ·)) (fun h h' => Int.le_antisymm h' h) last (allOf_min none)) max,
    Prod.ext (min_unique (R := (· ≤ ·)) Int.le_antisymm first (anyOf_min none)) max⟩

/-- Leaving out what another input dominates changes no bound of the time at which all inputs have
completed, so every operation other than a mux starts as a scoreboard with the same inputs does. The order of
the inputs does not matter either. -/
theorem reduction_keeps_bounds (ls : List Latency) :
    (allOf (latest ls)).bounds = (allOf ls).bounds ∧
      (∀ kind base, kind ≠ .mux →
        (Timing.startOf kind base ls).bounds = (Timing.startOf .scoreboard base ls).bounds) ∧
      ∀ ls', ls'.Perm ls → (allOf ls').bounds = (allOf ls).bounds ∧ (anyOf ls').bounds = (anyOf ls).bounds := by
  refine ⟨bounds_allOf_latest ls, fun kind base ne => ?_, fun ls' => bounds_perm⟩
  cases ls with
  | nil => rfl
  | cons l ls =>
    cases kind with
    | mux => exact absurd rfl ne
    | scoreboard => rfl
    | _ => exact bounds_allOf_latest (l :: ls)

end Datapath.Latency
