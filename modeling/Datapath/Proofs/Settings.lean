import Mathlib.Tactic.IntervalCases
import Datapath.Options

/-!
# The texts that settings accept

`Literal` gives the unsigned numerals and their values by rules of their own, and reading a setting accepts
exactly those whose value lies between the bounds. Values that do not fit into a signed word wrap around
to negative ones, which no range of settings contains.
-/

namespace Datapath

namespace Text

/-! ## Numerals -/

/-- The character is the digit for `k`. -/
def IsDigit (base : Nat) (c : Char) (k : Nat) : Prop :=
  k < base ∧ ("0123456789abcdef".toList[k]? = some c ∨ "0123456789ABCDEF".toList[k]? = some c)

/-- Digits, with at most one underscore between two of them, and their values. -/
inductive Digits (base : Nat) : List Char → List Nat → Prop where
  | one {c k} (h : IsDigit base c k) : Digits base [c] [k]
  | more {c k cs ks} (h : IsDigit base c k) (rest : Digits base cs ks) : Digits base (c :: cs) (k :: ks)
  | spaced {c k cs ks} (h : IsDigit base c k) (rest : Digits base cs ks) : Digits base (c :: '_' :: cs) (k :: ks)

/-- The number that digits stand for, the most significant one first. -/
def number (base : Nat) (ks : List Nat) : Nat := ks.foldl (· * base + ·) 0

/-- The letters that mark a base after a zero. -/
def marks : List (Char × Nat) := [('x', 16), ('X', 16), ('b', 2), ('B', 2), ('o', 8), ('O', 8)]

/-- The numerals with their values: digits after the mark of a base, perhaps with an underscore between
the two, octal digits that start with a zero, and decimal ones that do not. -/
inductive Literal : List Char → Nat → Prop where
  | marked {m base cs ks} (hm : (m, base) ∈ marks) (h : Digits base cs ks) : Literal ('0' :: m :: cs)
    (number base ks)
  | apart {m base cs ks} (hm : (m, base) ∈ marks) (h : Digits base cs ks) :
      Literal ('0' :: m :: '_' :: cs) (number base ks)
  | octal {cs ks} (h : Digits 8 ('0' :: cs) ks) : Literal ('0' :: cs) (number 8 ks)
  | decimal {cs ks} (hc : cs.head? ≠ some '0') (h : Digits 10 cs ks) : Literal cs (number 10 ks)

theorem at_between {table : List Char}
    (all : ∀ k ≤ hi.toNat - lo.toNat, table[k + n]? = some (Char.ofNat (lo.toNat + k))) (h : lo ≤ c ∧ c ≤ hi) :
    table[c.toNat - lo.toNat + n]? = some c := by
  have low : lo.toNat ≤ c.toNat := h.1
  have high : c.toNat ≤ hi.toNat := h.2
  rw [all _ (by omega), Nat.add_sub_cancel' low, Char.ofNat_toNat]

theorem digitIn?_eq_some : digitIn? base c = some a ↔ IsDigit base c a := by
  have value : digitValue? c = some a ↔
      "0123456789abcdef".toList[a]? = some c ∨ "0123456789ABCDEF".toList[a]? = some c := by
    constructor
    · intro h
      unfold digitValue? at h
      split at h
      next range => exact .inl (Option.some.inj h ▸ at_between (n := 0) (by decide) range)
      split at h
      next range => exact .inl (Option.some.inj h ▸ at_between (by decide) range)
      split at h
      next range => exact .inr (Option.some.inj h ▸ at_between (by decide) range)
      next => cases h
    · intro h
      have lt : a < 16 := by rcases h with h | h <;> exact (List.getElem?_eq_some_iff.mp h).1
      interval_cases a <;> rcases h with h | h <;> cases h <;> decide
  rw [digitIn?, Option.filter_eq_some_iff, value, decide_eq_true_eq, and_comm]
  rfl

theorem IsDigit.ne_underscore (h : IsDigit base c a) : c ≠ '_' := by
  rintro rfl
  have value := digitIn?_eq_some.mpr h
  cases value

theorem readDigits_digit (h : IsDigit base c a) (v : Nat) (cs : List Char) :
    readDigits base v (c :: cs) = readDigits base (v * base + a) cs ∧
      readDigits base v ('_' :: c :: cs) = readDigits base (v * base + a) cs := by
  have value := digitIn?_eq_some.mpr h
  constructor
  · rw [readDigits, value]
    · rfl
    · exact fun _ _ e => absurd e h.ne_underscore
  · rw [readDigits, value]
    rfl

/-- What may follow a digit: nothing, or more digits, perhaps after an underscore. -/
def Follows (base : Nat) (cs : List Char) (ks : List Nat) : Prop :=
  cs = [] ∧ ks = [] ∨ Digits base cs ks ∨ ∃ ds, cs = '_' :: ds ∧ Digits base ds ks

theorem Follows.digits (h : IsDigit base c k) (rest : Follows base cs ks) : Digits base (c :: cs) (k :: ks) := by
  rcases rest with ⟨rfl, rfl⟩ | more | ⟨ds, rfl, more⟩
  · exact .one h
  · exact .more h more
  · exact .spaced h more

theorem readDigits_eq_some :
    readDigits base v cs = some n ↔ ∃ ks, Follows base cs ks ∧ n = ks.foldl (· * base + ·) v := by
  constructor
  · intro h
    fun_induction readDigits base v cs with
    | case1 v =>
      cases h
      exact ⟨[], .inl ⟨rfl, rfl⟩, rfl⟩
    | case2 v c cs ih =>
      obtain ⟨k, hk, h⟩ := Option.bind_eq_some_iff.mp h
      obtain ⟨ks, rest, rfl⟩ := ih k h
      exact ⟨k :: ks, .inr (.inr ⟨_, rfl, rest.digits (digitIn?_eq_some.mp hk)⟩), rfl⟩
    | case3 v c cs _ ih =>
      obtain ⟨k, hk, h⟩ := Option.bind_eq_some_iff.mp h
      obtain ⟨ks, rest, rfl⟩ := ih k h
      exact ⟨k :: ks, .inr (.inl (rest.digits (digitIn?_eq_some.mp hk))), rfl⟩
  · rintro ⟨ks, follows, rfl⟩
    have digits : ∀ {cs ks}, Digits base cs ks → ∀ v, readDigits base v cs = some (ks.foldl (· * base + ·) v) ∧
        readDigits base v ('_' :: cs) = some (ks.foldl (· * base + ·) v) := by
      intro cs ks h
      induction h with
      | one h =>
        intro v
        obtain ⟨plain, spaced⟩ := readDigits_digit h v []
        rw [plain, spaced]
        exact ⟨rfl, rfl⟩
      | more h _ ih =>
        intro v
        obtain ⟨plain, spaced⟩ := readDigits_digit h v _
        rw [plain, spaced]
        exact ⟨(ih _).1, (ih _).1⟩
      | spaced h _ ih =>
        intro v
        obtain ⟨plain, spaced⟩ := readDigits_digit h v _
        rw [plain, spaced]
        exact ⟨(ih _).2, (ih _).2⟩
    rcases follows with ⟨rfl, rfl⟩ | h | ⟨ds, rfl, h⟩
    · rfl
    · exact (digits h v).1
    · exact (digits h v).2

theorem digits_eq_some : readNumeral.digits base cs = some n ↔
    ∃ ks, (Digits base cs ks ∨ ∃ ds, cs = '_' :: ds ∧ Digits base ds ks) ∧ n = number base ks := by
  rw [readNumeral.digits]
  cases cs with
  | nil =>
    refine ⟨nofun, ?_⟩
    rintro ⟨ks, h | ⟨ds, h, -⟩, -⟩ <;> cases h
  | cons c cs =>
    rw [if_neg (by simp), readDigits_eq_some]
    simp [Follows, number]

theorem octal_eq_some : readDigits 8 0 cs = some n ↔ ∃ ks, Digits 8 ('0' :: cs) ks ∧ n = number 8 ks := by
  have zero : IsDigit 8 '0' 0 := ⟨by decide, .inl rfl⟩
  rw [← (readDigits_digit zero 0 cs).1, readDigits_eq_some]
  simp [Follows, number]

theorem readNumeral_eq_some : readNumeral cs = some n ↔ Literal cs n := by
  have marked : ∀ {m base cs}, (m, base) ∈ marks → readNumeral.digits base cs = some n →
      Literal ('0' :: m :: cs) n := by
    intro m base cs hm h
    obtain ⟨ks, digits | ⟨ds, rfl, digits⟩, rfl⟩ := digits_eq_some.mp h
    · exact .marked hm digits
    · exact .apart hm digits
  constructor
  · intro h
    unfold readNumeral at h
    split at h
    iterate 6 exact marked (by decide) h
    · obtain ⟨ks, digits, rfl⟩ := octal_eq_some.mp h
      exact .octal digits
    · cases h
    next zero under =>
      obtain ⟨ks, digits | ⟨ds, rfl, -⟩, rfl⟩ := digits_eq_some.mp h
      · refine .decimal (fun first => ?_) digits
        obtain ⟨ds, rfl⟩ := List.head?_eq_some_iff.mp first
        exact zero ds rfl
      · exact absurd rfl (under ds)
  · intro h
    have reads : ∀ {m base cs}, (m, base) ∈ marks → readNumeral ('0' :: m :: cs) = readNumeral.digits base cs := by
      intro m base cs hm
      simp only [marks, List.mem_cons, Prod.mk.injEq, List.not_mem_nil, or_false] at hm
      rcases hm with ⟨rfl, rfl⟩ | ⟨rfl, rfl⟩ | ⟨rfl, rfl⟩ | ⟨rfl, rfl⟩ | ⟨rfl, rfl⟩ | ⟨rfl, rfl⟩ <;> rfl
    cases h with
    | marked hm h => rw [reads hm]; exact digits_eq_some.mpr ⟨_, .inl h, rfl⟩
    | apart hm h => rw [reads hm]; exact digits_eq_some.mpr ⟨_, .inr ⟨_, rfl, h⟩, rfl⟩
    | @octal cs ks h =>
      have value : readDigits 8 0 cs = some (number 8 ks) := octal_eq_some.mpr ⟨ks, h, rfl⟩
      unfold readNumeral
      split
      iterate 6 next e => cases e; cases value
      next e => cases e; exact value
      next e => cases e
      next zero _ => exact absurd rfl (zero cs)
    | @decimal _ ks hc h =>
      have value : readNumeral.digits 10 cs = some (number 10 ks) := digits_eq_some.mpr ⟨ks, .inl h, rfl⟩
      unfold readNumeral
      split
      iterate 7 exact absurd rfl hc
      · cases h with
        | one h | more h | spaced h => exact absurd rfl h.ne_underscore
      · exact value

end Text

/-! ## Settings -/

theorem readSetting_ok {default min max : Int64} (given : text ≠ "") (low : 0 ≤ min.toInt) :
    readSetting text default min max = .ok r ↔
      ∃ n : Nat, Text.Literal text.toList n ∧ min.toInt ≤ n ∧ n ≤ max.toInt ∧ r.toInt = n := by
  have top := max.toInt_lt
  rw [readSetting, if_neg (by simpa using given)]
  cases h : Text.readNumeral text.toList with
  | none =>
    refine ⟨nofun, ?_⟩
    rintro ⟨n, literal, -⟩
    cases h.symm.trans (Text.readNumeral_eq_some.mpr literal)
  | some n =>
    have only : ∀ {k}, Text.Literal text.toList k ↔ k = n := by
      intro k
      rw [← Text.readNumeral_eq_some, h, Option.some.injEq, eq_comm]
    simp only [only, exists_eq_left]
    have word : (Int64.ofNat n).toInt = (n : Int).bmod (2 ^ 64) := Int64.toInt_ofNat'
    rw [Int.bmod_def] at word
    split
    next large =>
      have large : 2 ^ 64 ≤ n := large
      exact ⟨nofun, fun ⟨_, fits, _⟩ => by omega⟩
    next small =>
      have small : ¬ 2 ^ 64 ≤ n := small
      simp only [Int64.lt_iff_toInt_lt]
      split
      next => exact ⟨nofun, fun ⟨_, _, _⟩ => by omega⟩
      split
      next => exact ⟨nofun, fun ⟨_, _, _⟩ => by omega⟩
      next =>
        rw [Except.ok.injEq, ← Int64.toInt_inj]
        exact ⟨fun same => by omega, fun ⟨_, _, same⟩ => by omega⟩

/-- An empty text stands for the default. Any other text is accepted exactly if it is a numeral whose value
lies between the bounds, and it then stands for this value; all others are refused, in particular numerals
of 2 ^ 63 and more. -/
theorem setting_accepts_literals (text : String) (default min max : Int64) (low : 0 ≤ min.toInt) :
    (text = "" → readSetting text default min max = .ok default) ∧
      (text ≠ "" → (∀ r : Int64, readSetting text default min max = .ok r ↔
          ∃ n : Nat, Text.Literal text.toList n ∧ min.toInt ≤ n ∧ n ≤ max.toInt ∧ r.toInt = n) ∧
        ((∃ e, readSetting text default min max = .error e) ↔
          ∀ n : Nat, Text.Literal text.toList n → ¬ (min.toInt ≤ n ∧ n ≤ max.toInt))) ∧
      ∀ n, Text.Literal text.toList n → 2 ^ 63 ≤ n → ∃ e, readSetting text default min max = .error e := by
  have refused : text ≠ "" → ((∃ e, readSetting text default min max = .error e) ↔
      ∀ n : Nat, Text.Literal text.toList n → ¬ (min.toInt ≤ n ∧ n ≤ max.toInt)) := by
    intro given
    constructor
    · rintro ⟨e, he⟩ n literal ⟨above, below⟩
      have top := max.toInt_lt
      have word : (Int64.ofNat n).toInt = n := Int64.toInt_ofNat_of_lt (by omega)
      cases he.symm.trans ((readSetting_ok given low).mpr ⟨n, literal, above, below, word⟩)
    · intro none
      cases h : readSetting text default min max with
      | error e => exact ⟨e, rfl⟩
      | ok r =>
        obtain ⟨n, literal, above, below, -⟩ := (readSetting_ok given low).mp h
        exact absurd ⟨above, below⟩ (none n literal)
  refine ⟨fun empty =>
    by rw [readSetting, empty]; rfl, fun given => ⟨fun r => readSetting_ok given low, refused given⟩, ?_⟩
  intro n literal large
  have given : text ≠ "" := by
    rintro rfl
    have none : Text.readNumeral "".toList = none := by decide
    cases none.symm.trans (Text.readNumeral_eq_some.mpr literal)
  refine (refused given).mpr fun k other fits => ?_
  have same := (Text.readNumeral_eq_some.mpr literal).symm.trans (Text.readNumeral_eq_some.mpr other)
  have top := max.toInt_lt
  cases same
  omega

theorem grouped_octal_accepted : (0 : Int64).toInt ≥ 0 ∧ Text.Literal "0o1_7".toList 15 ∧
    readSetting "0o1_7" 1 0 20 = .ok 15 ∧ ∃ e, readSetting "9223372036854775808" 1 0 20 = .error e := by
  have octal : Text.Literal "0o1_7".toList 15 := Text.readNumeral_eq_some.mp (by decide)
  have large : Text.Literal "9223372036854775808".toList (2 ^ 63) := Text.readNumeral_eq_some.mp (by decide)
  refine ⟨by decide, octal, ?_, ?_⟩
  · exact (((setting_accepts_literals "0o1_7" 1 0 20 (by decide)).2.1 (by decide)).1 15).mpr ⟨15, octal, by decide⟩
  · exact (setting_accepts_literals "9223372036854775808" 1 0 20 (by decide)).2.2 _ large (Nat.le_refl _)

end Datapath
