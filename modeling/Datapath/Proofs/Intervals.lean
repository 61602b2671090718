import Datapath.Latency

/-!
# Latencies as sets of clock counts

A latency stands for the clock counts between its bounds. As long as no sum wraps around, adding a
latency to a start and combining the latencies of several inputs is exact at both bounds.
-/

namespace Datapath

open List

namespace Latency

/-- A latency starts at zero or later and does not end before it starts. -/
def Valid (l : Latency) : Prop := 0 ≤ l.min.toInt ∧ (l.isOpen = false → l.min.toInt ≤ l.max.toInt)

/-- The clock counts that a latency stands for. -/
def Contains (l : Latency) (n : Int) : Prop := l.min.toInt ≤ n ∧ (l.isOpen = false → n ≤ l.max.toInt)

/-- The bounds of the latency `l` from the start of `base` are no larger than a word. -/
def Adds (l base : Latency) : Prop :=
  l.min.toInt + base.min.toInt < 0x8000000000000000 ∧
    (l.isOpen = false → base.isOpen = false → l.max.toInt + base.max.toInt < 0x8000000000000000)

instance (l : Latency) : Decidable l.Valid := inferInstanceAs (Decidable (_ ∧ _))

/-! ## Sums -/

theorem toInt_add_of_lt {a b : Int64} (ha : 0 ≤ a.toInt) (hb : 0 ≤ b.toInt)
    (h : a.toInt + b.toInt < 0x8000000000000000) : (a + b).toInt = a.toInt + b.toInt := by
  rw [Int64.toInt_add]
  apply Int.bmod_eq_of_le <;> omega

theorem isOpen_of_nonneg {l : Latency} (h : 0 ≤ l.max.toInt) : l.isOpen = false := by
  have : l.max ≠ unknown := fun e => by rw [e] at h; exact absurd h (by decide)
  simp [isOpen, this]

theorem max_of_isOpen {l : Latency} (h : l.isOpen = true) : l.max = unknown := by simpa [isOpen] using h

theorem Valid.max_nonneg {l : Latency} (h : l.Valid) (hc : l.isOpen = false) : 0 ≤ l.max.toInt :=
  Int.le_trans h.1 (h.2 hc)

section
variable {l base : Latency} (hl : l.Valid) (hb : base.Valid)
include hl hb

theorem after_min (h : l.Adds base) : (l.after base).min.toInt = l.min.toInt + base.min.toInt :=
  toInt_add_of_lt hl.1 hb.1 h.1

theorem after_max (h : l.Adds base) (hlc : l.isOpen = false)
    (hbc : base.isOpen = false) : (l.after base).max.toInt = l.max.toInt + base.max.toInt := by
  simp only [after, hlc, hbc]
  exact toInt_add_of_lt (hl.max_nonneg hlc) (hb.max_nonneg hbc) (h.2 hlc hbc)

/-- Words that are not negative do not add up to -1, even where the sum wraps around. -/
theorem after_isOpen : (l.after base).isOpen = (l.isOpen || base.isOpen) := by
  cases hlc : l.isOpen with
  | true =>
    simp only [after, hlc, if_true]
    rfl
  | false =>
    cases hbc : base.isOpen with
    | true =>
      simp only [after, hbc, Bool.or_true]
      rfl
    | false =>
      have := hl.max_nonneg hlc
      have := hb.max_nonneg hbc
      have := l.max.toInt_lt
      have := base.max.toInt_lt
      have sum : (l.max + base.max).toInt ≠ -1 := by
        rw [Int64.toInt_add, Int.bmod_def]
        omega
      have max : (l.after base).max = l.max + base.max := by simp [after, hlc, hbc]
      rw [isOpen, max]
      exact beq_eq_false_iff_ne.mpr fun e => sum (congrArg Int64.toInt e)

theorem Valid.after (h : l.Adds base) : (l.after base).Valid := by
  refine ⟨by rw [after_min hl hb h]; have := hl.1; have := hb.1; omega, ?_⟩
  rw [after_isOpen hl hb, Bool.or_eq_false_iff]
  rintro ⟨hlc, hbc⟩
  rw [after_min hl hb h, after_max hl hb h hlc hbc]
  have := hl.2 hlc
  have := hb.2 hbc
  omega

theorem Contains.after (h : l.Adds base) (hn : l.Contains n)
    (hs : base.Contains s) : (l.after base).Contains (s + n) := by
  refine ⟨by rw [after_min hl hb h]; have := hn.1; have := hs.1; omega, ?_⟩
  rw [after_isOpen hl hb, Bool.or_eq_false_iff]
  rintro ⟨hlc, hbc⟩
  rw [after_max hl hb h hlc hbc]
  have := hn.2 hlc
  have := hs.2 hbc
  omega

end

/-! ## Combinations -/

/-- The end of `l` is the last end of the latencies. -/
structure Ends (ls : List Latency) (l : Latency) : Prop where
  isOpen : l.isOpen = ls.any Latency.isOpen
  attained : l.isOpen = false → ∃ k ∈ ls, k.max = l.max
  upper : l.isOpen = false → ∀ k ∈ ls, k.max.toInt ≤ l.max.toInt

theorem join_min : (join pick a b).min = pick a.min b.min := by
  unfold join
  split
  · rfl
  · split <;> rfl

theorem join_open (pick : Int64 → Int64 → Int64) (h : a.isOpen = true ∨ b.isOpen = true) :
    (join pick a b).isOpen = true := by
  unfold join
  by_cases ha : a.isOpen
  · rw [if_pos ha]; exact ha
  · rw [if_neg ha, if_pos (h.resolve_left ha)]; rfl

theorem join_closed (pick : Int64 → Int64 → Int64) (ha : a.isOpen = false) (hb : b.isOpen = false) :
    (join pick a b).max = if a.max < b.max then b.max else a.max := by
  simp [join, ha, hb]

theorem Ends.single (l : Latency) : Ends [l] l where
  isOpen := by simp
  attained _ := ⟨l, mem_singleton_self l, rfl⟩
  upper _ k hk := mem_singleton.mp hk ▸ Int.le_refl _

theorem Ends.join (h : Ends ls a) : Ends (ls ++ [b]) (join pick a b) := by
  by_cases hc : a.isOpen = false ∧ b.isOpen = false
  · obtain ⟨ha, hb⟩ := hc
    have max := join_closed pick ha hb
    have open0 : (Latency.join pick a b).isOpen = false := by
      rw [Latency.isOpen, max]
      split
      · exact hb
      · exact ha
    have older : ∀ k ∈ ls, k.max.toInt ≤ a.max.toInt := h.upper ha
    refine ⟨?_, fun _ => ?_, fun _ => ?_⟩
    · rw [open0, any_append, ← h.isOpen, ha]; simp [hb]
    · rw [max]
      obtain ⟨k, hk, hka⟩ := h.attained ha
      split
      · exact ⟨b, by simp, rfl⟩
      · exact ⟨k, by simp [hk], hka⟩
    · rw [max]
      intro k hk
      rcases mem_append.mp hk with hk | hk
      · have := older k hk
        split
        next hlt => have := Int64.lt_iff_toInt_lt.mp hlt; omega
        next => exact this
      · rw [mem_singleton.mp hk]
        split
        next => exact Int.le_refl _
        next hge => exact Int.not_lt.mp fun hlt => hge (Int64.lt_iff_toInt_lt.mpr hlt)
  · have some_open : a.isOpen = true ∨ b.isOpen = true := by
      cases ha : a.isOpen <;> simp_all
    have open1 := join_open pick some_open
    refine ⟨?_, fun hf => absurd open1 (by simp [hf]), fun hf => absurd open1 (by simp [hf])⟩
    rw [open1, any_append, ← h.isOpen]
    rcases some_open with h | h <;> simp [h]

theorem ends_combine (hne : ls ≠ []) : Ends ls (combine pick ls) := by
  cases ls with
  | nil => exact absurd rfl hne
  | cons l ls =>
    -- the fold has seen `seen` and holds `acc`
    have fold : ∀ (ls seen : List Latency) (acc : Latency), Ends seen acc →
        Ends (seen ++ ls) (ls.foldl (Latency.join pick) acc) := by
      intro ls
      induction ls with
      | nil => intro seen acc h; simpa using h
      | cons b ls ih => intro seen acc h; simpa using ih (seen ++ [b]) _ h.join
    exact fold ls [l] l (.single l)

/-! ## The first and the last start -/

theorem combine_min {R : Int → Int → Prop} (trans : ∀ {a b c}, R a b → R b c → R a c)
    (hp : ∀ a b, (pick a b = a ∨ pick a b = b) ∧ R (pick a b).toInt a.toInt ∧
      R (pick a b).toInt b.toInt) (hne : ls ≠ []) :
    (∃ k ∈ ls, k.min = (combine pick ls).min) ∧ ∀ k ∈ ls, R (combine pick ls).min.toInt k.min.toInt := by
  cases ls with
  | nil => exact absurd rfl hne
  | cons l ls =>
    have refl : R l.min.toInt l.min.toInt := by
      obtain ⟨h | h, h', -⟩ := hp l.min l.min <;> rwa [h] at h'
    have fold : ∀ (ls seen : List Latency) (acc : Latency),
        (∃ k ∈ seen, k.min = acc.min) ∧ (∀ k ∈ seen, R acc.min.toInt k.min.toInt) →
        (∃ k ∈ seen ++ ls, k.min = (ls.foldl (join pick) acc).min) ∧
          ∀ k ∈ seen ++ ls, R (ls.foldl (join pick) acc).min.toInt k.min.toInt := by
      intro ls
      induction ls with
      | nil => intro seen acc h; simpa using h
      | cons b ls ih =>
        rintro seen acc ⟨⟨k, hk, hka⟩, hle⟩
        obtain ⟨one, left, right⟩ := hp acc.min b.min
        have chosen : (join pick acc b).min = pick acc.min b.min := join_min
        rw [← chosen] at one left right
        have step := ih (seen ++ [b]) (join pick acc b) ⟨?_, ?_⟩
        · simpa using step
        · rcases one with e | e
          · exact ⟨k, by simp [hk], hka.trans e.symm⟩
          · exact ⟨b, by simp, e.symm⟩
        · intro m hm
          rcases mem_append.mp hm with hm | hm
          · exact trans left (hle m hm)
          · rw [mem_singleton.mp hm]; exact right
    exact fold ls [l] l
      ⟨⟨l, mem_singleton_self l, rfl⟩, fun k hk => by rw [mem_singleton.mp hk]; exact refl⟩

theorem anyOf_min (hne : ls ≠ []) :
    (∃ k ∈ ls, k.min = (anyOf ls).min) ∧ ∀ k ∈ ls, (anyOf ls).min.toInt ≤ k.min.toInt := by
  refine combine_min (R := (· ≤ ·)) Int.le_trans ?_ hne
  intro a b
  split
  next h => have := Int64.lt_iff_toInt_lt.mp h; exact ⟨.inl rfl, Int.le_refl _, by omega⟩
  next h => have := mt Int64.lt_iff_toInt_lt.mpr h; exact ⟨.inr rfl, by omega, Int.le_refl _⟩

theorem allOf_min (hne : ls ≠ []) :
    (∃ k ∈ ls, k.min = (allOf ls).min) ∧ ∀ k ∈ ls, k.min.toInt ≤ (allOf ls).min.toInt := by
  refine combine_min (R := (· ≥ ·)) (fun h h' => Int.le_trans h' h) ?_ hne
  intro a b
  split
  next h => have := Int64.lt_iff_toInt_lt.mp h; exact ⟨.inl rfl, Int.le_refl _, by omega⟩
  next h => have := mt Int64.lt_iff_toInt_lt.mpr h; exact ⟨.inr rfl, by omega, Int.le_refl _⟩

/-! ## The latest latencies -/

def Covers (k l : Latency) : Prop := l.min.toInt ≤ k.min.toInt ∧ maxGe k.max l.max = true

theorem covers_iff : Covers k l ↔ l.min.toInt ≤ k.min.toInt ∧
    (k.isOpen = false → l.isOpen = false ∧ l.max.toInt ≤ k.max.toInt) := by
  refine and_congr_right fun _ => ?_
  by_cases h : k.max = unknown
  · simp [maxGe, isOpen, h]
  · simp [maxGe, isOpen, h, Int64.le_iff_toInt_le]

theorem Covers.max_le (h : Covers k l) (hk : k.isOpen = false) : l.max.toInt ≤ k.max.toInt :=
  ((covers_iff.mp h).2 hk).2

theorem Covers.isOpen (h : Covers k l) (hl : l.isOpen = true) : k.isOpen = true := by
  cases hk : k.isOpen with
  | true => rfl
  | false => exact absurd (((covers_iff.mp h).2 hk).1.symm.trans hl) Bool.false_ne_true

theorem Covers.trans (h : Covers a b) (h' : Covers b c) : Covers a c := by
  refine covers_iff.mpr ⟨Int.le_trans h'.1 h.1, fun ha => ?_⟩
  obtain ⟨hb, le⟩ := (covers_iff.mp h).2 ha
  obtain ⟨hc, le'⟩ := (covers_iff.mp h').2 hb
  exact ⟨hc, Int.le_trans le' le⟩

theorem Covers.refl (l : Latency) : Covers l l := covers_iff.mpr ⟨Int.le_refl _, fun h => ⟨h, Int.le_refl _⟩⟩

theorem dominates_iff :
    k.dominates l = true ↔ Covers k l ∧ (k.isOpen = true → l.isOpen = true → k.key = l.key) := by
  simp only [dominates, Bool.or_eq_true, beq_iff_eq, Bool.and_eq_true, decide_eq_true_eq,
    Bool.not_eq_true', Bool.and_eq_false_iff, bne_eq_false_iff_eq, Int64.le_iff_toInt_le]
  constructor
  · rintro (rfl | ⟨⟨keys, hmin⟩, hmax⟩)
    · exact ⟨Covers.refl k, fun _ _ => rfl⟩
    · refine ⟨⟨hmin, hmax⟩, fun hk hl => ?_⟩
      simpa [hk, hl] using keys
  · rintro ⟨⟨hmin, hmax⟩, keys⟩
    refine .inr ⟨⟨?_, hmin⟩, hmax⟩
    by_cases hk : k.isOpen = true
    · by_cases hl : l.isOpen = true
      · exact .inr (keys hk hl)
      · exact .inl (.inr (by simpa using hl))
    · exact .inl (.inl (by simpa using hk))

theorem covers_of_dominates (h : k.dominates l = true) : Covers k l := (dominates_iff.mp h).1

theorem dominates_refl (l : Latency) : l.dominates l = true := dominates_iff.mpr ⟨.refl l, fun _ _ => rfl⟩

theorem dominates_trans {a : Latency} (h : a.dominates b = true) (h' : b.dominates c = true) :
    a.dominates c = true := by
  obtain ⟨cover, keys⟩ := dominates_iff.mp h
  obtain ⟨cover', keys'⟩ := dominates_iff.mp h'
  refine dominates_iff.mpr ⟨cover.trans cover', fun ha hc => ?_⟩
  -- what dominates an open latency is open, so the keys agree all along
  have hb := cover'.isOpen hc
  exact (keys ha hb).trans (keys' hb hc)

theorem latest_dominates (ls : List Latency) :
    (∀ k ∈ latest ls, k ∈ ls) ∧ ∀ l ∈ ls, ∃ k ∈ latest ls, k.dominates l = true := by
  have fold : ∀ (ls seen kept : List Latency),
      (∀ k ∈ kept, k ∈ seen) ∧ (∀ l ∈ seen, ∃ k ∈ kept, k.dominates l = true) →
      (∀ k ∈ ls.foldl insertLatest kept, k ∈ seen ++ ls) ∧
        ∀ l ∈ seen ++ ls, ∃ k ∈ ls.foldl insertLatest kept, k.dominates l = true := by
    intro ls
    induction ls with
    | nil => intro seen kept h; simpa using h
    | cons a ls ih =>
      rintro seen kept ⟨hsub, hdom⟩
      have step := ih (seen ++ [a]) (insertLatest kept a) ⟨?_, ?_⟩
      · simpa using step
      · intro k hk
        unfold insertLatest at hk
        split at hk
        · simp [hsub k hk]
        · rcases mem_append.mp hk with hk | hk
          · simp [hsub k (mem_filter.mp hk).1]
          · simp [mem_singleton.mp hk]
      · intro l hl
        unfold insertLatest
        split
        next h =>
          rcases mem_append.mp hl with hl | hl
          · exact hdom l hl
          · rw [mem_singleton.mp hl]
            exact any_eq_true.mp h
        next =>
          have new : a ∈ kept.filter (fun k => !a.dominates k) ++ [a] := by simp
          rcases mem_append.mp hl with hl | hl
          · obtain ⟨k, hk, hkl⟩ := hdom l hl
            by_cases hak : a.dominates k = true
            · exact ⟨a, new, dominates_trans hak hkl⟩
            · exact ⟨k, by simp [hk, hak], hkl⟩
          · rw [mem_singleton.mp hl]
            exact ⟨a, new, dominates_refl a⟩
  exact fold ls [] [] ⟨by simp, by simp⟩

theorem latest_covers (ls : List Latency) : (∀ k ∈ latest ls, k ∈ ls) ∧ ∀ l ∈ ls, ∃ k ∈ latest ls, Covers k l := by
  obtain ⟨sub, dominated⟩ := latest_dominates ls
  refine ⟨sub, fun l hl => ?_⟩
  obtain ⟨k, hk, h⟩ := dominated l hl
  exact ⟨k, hk, covers_of_dominates h⟩

theorem latest_ne_nil (h : ls ≠ []) : latest ls ≠ [] := by
  obtain ⟨l, hl⟩ := exists_mem_of_ne_nil ls h
  obtain ⟨k, hk, -⟩ := (latest_covers ls).2 l hl
  exact ne_nil_of_mem hk

theorem Ends.of_latest (h : Ends (latest ls) l) : Ends ls l := by
  obtain ⟨sub, covered⟩ := latest_covers ls
  have same : (latest ls).any Latency.isOpen = ls.any Latency.isOpen := by
    rw [Bool.eq_iff_iff, any_eq_true, any_eq_true]
    constructor
    · rintro ⟨k, hk, ho⟩; exact ⟨k, sub k hk, ho⟩
    · rintro ⟨m, hm, ho⟩
      obtain ⟨k, hk, hkm⟩ := covered m hm
      exact ⟨k, hk, hkm.isOpen ho⟩
  refine ⟨h.isOpen.trans same, fun hc => ?_, fun hc m hm => ?_⟩
  · obtain ⟨k, hk, e⟩ := h.attained hc
    exact ⟨k, sub k hk, e⟩
  · obtain ⟨k, hk, hkm⟩ := covered m hm
    have closed : k.isOpen = false := by
      rw [h.isOpen, any_eq_false] at hc
      simpa using hc k hk
    exact Int.le_trans (hkm.max_le closed) (h.upper hc k hk)

theorem allOf_latest_min (hne : ls ≠ []) :
    (∃ k ∈ ls, k.min = (allOf (latest ls)).min) ∧ ∀ k ∈ ls, k.min.toInt ≤ (allOf (latest ls)).min.toInt := by
  obtain ⟨sub, covered⟩ := latest_covers ls
  obtain ⟨⟨k, hk, e⟩, least⟩ := allOf_min (latest_ne_nil hne)
  refine ⟨⟨k, sub k hk, e⟩, fun m hm => ?_⟩
  obtain ⟨k, hk, hkm⟩ := covered m hm
  exact Int.le_trans hkm.1 (least k hk)

end Latency

end Datapath
