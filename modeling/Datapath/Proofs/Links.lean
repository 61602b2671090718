import Datapath.Design.Basic

/-!
# Links in a store

Two kinds of links between elements go both ways: an element names its holder and stands in the holder's
list (`Linked`), and two elements name each other (`Paired`). Both only read one field of each element, so
they are stated of views of the store, which a step changes at one index or not at all.
-/

namespace Datapath

open List

variable {j : Int} {n : Nat}
  {k i : Int} {base : Nat} {α : Type} {l : List Int}

/-! ## Views -/

section
variable {α β : Type}

/-- One field of the elements of a store. -/
def view (xs : Array α) (g : α → β) (i : Int) : Option β := (at? xs i).map g

def put (m : Int → Option β) (k : Int) (v : β) : Int → Option β := fun i => if i = k then some v else m i

theorem put_self (m : Int → Option β) (k : Int) (v : β) : put m k v k = some v := by simp [put]

theorem put_ne {m : Int → Option β} (v : β) (h : i ≠ k) : put m k v i = m i := by simp [put, h]

theorem put_put (m : Int → Option β) (k : Int) (v w : β) : put (put m k v) k w = put m k w := by
  funext i; unfold put; split <;> rfl

theorem at?_lt {xs : Array α} {x : α} (h : at? xs i = some x) : 0 ≤ i ∧ i < xs.size := by
  unfold at? at h
  split at h
  · have := (Array.getElem?_eq_some_iff.mp h).1
    omega
  · cases h

theorem ne_absent {xs : Array α} {x : α} (h : at? xs i = some x) : i ≠ absent := by
  intro e
  rw [e] at h
  exact absurd (at?_lt h).1 (by decide)

theorem mem_of_at? {xs : Array α} {x : α} (h : at? xs i = some x) : x ∈ xs := by
  unfold at? at h
  split at h
  · exact Array.mem_of_getElem? h
  · cases h

theorem at?_of_lt {xs : Array α} (h0 : 0 ≤ i) (h : i < xs.size) : ∃ x, at? xs i = some x := by
  unfold at?
  rw [if_pos h0]
  have : i.toNat < xs.size := by omega
  exact ⟨xs[i.toNat], by simp [this]⟩

theorem at?_empty (i : Int) : at? (#[] : Array α) i = none := by simp [at?]

theorem at?_push (xs : Array α) (a : α) (i : Int) :
    at? (xs.push a) i = if i = xs.size then some a else at? xs i := by
  unfold at?
  by_cases h0 : 0 ≤ i
  · simp only [h0, Array.getElem?_push]
    by_cases h : i = xs.size
    · simp [h]
    · have : i.toNat ≠ xs.size := by omega
      simp [h, this]
  · have : i ≠ xs.size := by omega
    simp [h0, this]

theorem at?_append (xs : Array α) (ys : List α) (i : Int) :
    at? (xs ++ ys) i = if i < xs.size then at? xs i else ys[(i - xs.size).toNat]? := by
  unfold at?
  by_cases h0 : 0 ≤ i
  · simp only [h0, ite_true, ← Array.getElem?_toList, Array.toList_appendList, getElem?_append,
      Array.length_toList]
    by_cases h : i < xs.size
    · have : i.toNat < xs.size := by omega
      simp only [h, this, ite_true]
    · have h' : ¬ i.toNat < xs.size := by omega
      have e : i.toNat - xs.size = (i - xs.size).toNat := by omega
      simp only [h, h', e]
  · have : i < xs.size := by omega
    simp [h0, this]

theorem size_editAt (xs : Array α) (k : Int) (f : α → α) : (editAt xs k f).size = xs.size := by
  unfold editAt; split <;> simp

theorem at?_editAt (xs : Array α) (k : Int) (f : α → α) (i : Int) :
    at? (editAt xs k f) i = if i = k then (at? xs i).map f else at? xs i := by
  unfold at? editAt
  by_cases hk : 0 ≤ k
  · by_cases h0 : 0 ≤ i
    · simp only [hk, h0, ite_true, Array.getElem?_modify]
      by_cases h : i = k
      · simp [h]
      · have : ¬ k.toNat = i.toNat := by omega
        simp [h, this]
    · simp [h0]
  · by_cases h : i = k
    · subst h; simp [hk]
    · simp [hk, h]

theorem view_push (xs : Array α) (a : α) (g : α → β) : view (xs.push a) g = put (view xs g) xs.size (g a) := by
  funext i
  unfold view put
  rw [at?_push]
  split <;> rfl

def putRange (m : Int → Option β) (base n : Nat) (v : Nat → β) : Int → Option β := fun i =>
  if base ≤ i ∧ i < base + n then some (v (i - base).toNat) else m i

def idsFrom (base n : Nat) : List Int := (List.range n).map fun k => ((base + k : Nat) : Int)

theorem mem_idsFrom : i ∈ idsFrom base n ↔ base ≤ i ∧ i < base + n := by
  simp only [idsFrom, mem_map, mem_range]
  constructor
  · omega
  · rintro ⟨h1, h2⟩; exact ⟨i.toNat - base, by omega, by omega⟩

theorem nodup_idsFrom (base n : Nat) : (idsFrom base n).Nodup := by
  refine List.Pairwise.map _ ?_ nodup_range
  omega

theorem view_append (xs : Array α) (n : Nat) (mk : Nat → α) (g : α → β) :
    view (xs ++ (List.range n).map mk) g = putRange (view xs g) xs.size n fun k => g (mk k) := by
  funext i
  unfold view putRange
  rw [at?_append]
  by_cases h : i < xs.size
  · have : ¬ ((xs.size : Int) ≤ i ∧ i < xs.size + n) := by omega
    simp [h, this]
  · by_cases h' : i < xs.size + n
    · have hk : (i - xs.size).toNat < n := by omega
      have : (xs.size : Int) ≤ i ∧ i < xs.size + n := by omega
      simp only [h, this, and_self]
      rw [getElem?_map, getElem?_range hk]
      rfl
    · have hk : n ≤ (i - xs.size).toNat := by omega
      have : ¬ ((xs.size : Int) ≤ i ∧ i < xs.size + n) := by omega
      simp only [this]
      rw [getElem?_eq_none (by simpa using hk)]
      have hn : at? xs i = none := by
        cases hx : at? xs i with
        | none => rfl
        | some x => exact absurd (at?_lt hx).2 h
      simp [hn]

theorem view_edit {xs : Array α} {x : α} (hx : at? xs k = some x) (f : α → α) (g : α → β) :
    view (editAt xs k f) g = put (view xs g) k (g (f x)) := by
  funext i
  unfold view put
  rw [at?_editAt]
  by_cases h : i = k
  · subst h; simp [hx]
  · simp [h]

theorem at?_map {β : Type} (xs : Array α) (f : α → β) (i : Int) : at? (xs.map f) i = (at? xs i).map f := by
  unfold at?
  split
  · exact Array.getElem?_map ..
  · rfl

theorem view_map_same (xs : Array α) {f : α → α} {g : α → β} (h : ∀ x, g (f x) = g x) :
    view (xs.map f) g = view xs g := by
  funext i
  unfold view at?
  split
  · rw [Array.getElem?_map, Option.map_map]
    have : g ∘ f = g := funext h
    rw [this]
  · rfl

theorem view_edit_same (xs : Array α) (k : Int) {f : α → α} {g : α → β} (h : ∀ x, g (f x) = g x) :
    view (editAt xs k f) g = view xs g := by
  funext i
  unfold view
  rw [at?_editAt]
  split
  · cases at? xs i <;> simp [h]
  · rfl

theorem view_some {xs : Array α} {g : α → β} {b : β} :
    view xs g i = some b ↔ ∃ x, at? xs i = some x ∧ g x = b := Option.map_eq_some_iff

theorem view_of {xs : Array α} {x : α} (g : α → β) (h : at? xs i = some x) : view xs g i = some (g x) := by
  simp [view, h]

theorem view_comp {γ : Type} {xs ys : Array α} {g : α → β} (f : β → γ) (h : view xs g = view ys g) :
    view xs (fun x => f (g x)) = view ys fun x => f (g x) := by
  funext i
  have same := congrArg (Option.map f) (congrFun h i)
  rwa [view, view, Option.map_map, Option.map_map] at same

theorem view_empty (g : α → β) : view (#[] : Array α) g = fun _ => none := by funext i; simp [view, at?_empty]

theorem view_absent (xs : Array α) (g : α → β) : view xs g absent = none := by simp [view, at?, absent]

theorem view_none {xs : Array α} (g : α → β) (h : xs.size ≤ i) : view xs g i = none := by
  cases hv : view xs g i with
  | none => rfl
  | some b => obtain ⟨x, hx, -⟩ := view_some.mp hv; have := at?_lt hx; omega

theorem view_size (xs : Array α) (g : α → β) : view xs g xs.size = none := view_none g (Int.le_refl _)

theorem view_lt {xs : Array α} {g : α → β} {b : β} (h : view xs g i = some b) : 0 ≤ i ∧ i < xs.size := by
  obtain ⟨x, hx, -⟩ := view_some.mp h
  exact at?_lt hx

theorem view_push_of {xs : Array α} {g : α → β} {b : β} (a : α) (h : view xs g i = some b) :
    view (xs.push a) g i = some b := by
  have := view_lt h
  rw [view_push, put_ne _ (by omega)]; exact h

theorem view_append_of {xs : Array α} {g : α → β} {b : β} (n : Nat) (mk : Nat → α)
    (h : view xs g i = some b) : view (xs ++ (List.range n).map mk) g i = some b := by
  have := view_lt h
  rw [view_append, putRange, if_neg (by omega)]; exact h

theorem view_edit_of {xs : Array α} {f : α → α} {g : α → β} {b : β} (hf : ∀ x, g (f x) = g x)
    (h : view xs g i = some b) : view (editAt xs k f) g i = some b := by
  rw [view_edit_same _ _ hf]
  exact h

theorem at?_push_of {xs : Array α} {x : α} (a : α) (h : at? xs i = some x) : at? (xs.push a) i = some x := by
  have := at?_lt h
  rw [at?_push, if_neg (by omega)]
  exact h

theorem at?_append_of {xs : Array α} {x : α} (ys : List α) (h : at? xs i = some x) : at? (xs ++ ys) i = some x := by
  have := at?_lt h
  rw [at?_append, if_pos this.2]
  exact h

theorem at?_edit_ne {xs : Array α} {f : α → α} (h : i ≠ k) : at? (editAt xs k f) i = at? xs i := by
  rw [at?_editAt, if_neg h]

end

/-! ## Identities -/

/-- Every element carries its own index. -/
def Indexed {α : Type} (xs : Array α) (id : α → Int) : Prop := ∀ i x, at? xs i = some x → id x = i

section
variable {α : Type} {xs : Array α} {id : α → Int}

theorem Indexed.empty : Indexed #[] id := fun i x h => by rw [at?_empty] at h; cases h

section
variable (h : Indexed xs id)
include h

theorem Indexed.at?_of_mem {a : α} (ha : a ∈ xs.toList) : at? xs (id a) = some a := by
  obtain ⟨k, hk, e⟩ := getElem_of_mem ha
  have : at? xs k = some a := by simp [at?, ← e]
  rw [h k a this]
  exact this

theorem Indexed.ascending : (xs.toList.map id).Pairwise (· < ·) := by
  have here : ∀ (k : Nat) (hk : k < xs.size), id xs[k] = k := fun k hk => h k _ (by simp [at?])
  rw [pairwise_iff_getElem]
  intro i j hi hj hlt
  simp only [length_map] at hi hj
  simp only [getElem_map, Array.getElem_toList, here i hi, here j hj]
  omega

theorem Indexed.nodup : (xs.toList.map id).Nodup := h.ascending.imp Int.ne_of_lt

theorem Indexed.push {a : α} (ha : id a = xs.size) : Indexed (xs.push a) id := by
  intro i x hx
  rw [at?_push] at hx
  split at hx
  · rename_i hi; cases hx; rw [ha, hi]
  · exact h i x hx

theorem Indexed.edit (k : Int) {f : α → α} (hf : ∀ x, id (f x) = id x) : Indexed (editAt xs k f) id := by
  intro i x hx
  rw [at?_editAt] at hx
  split at hx
  · obtain ⟨y, hy, rfl⟩ := Option.map_eq_some_iff.mp hx
    rw [hf]; exact h i y hy
  · exact h i x hx

theorem Indexed.append {mk : Nat → α}
    (hmk : ∀ k, id (mk k) = ((xs.size + k : Nat) : Int)) : Indexed (xs ++ (List.range n).map mk) id := by
  intro i x hx
  rw [at?_append] at hx
  split at hx
  · exact h i x hx
  · rw [getElem?_map] at hx
    obtain ⟨k, hk, rfl⟩ := Option.map_eq_some_iff.mp hx
    have := List.getElem?_eq_some_iff.mp hk
    simp only [getElem_range] at this
    rw [hmk]; omega

end

end

/-! ## Holders -/

/-- Elements with a holder stand exactly once in the list of their holder and in no other list, and
lists hold nothing else. An element may have no holder, and there may be no element at an index. -/
structure Linked (lists : Int → Option (List Int)) (holder : Int → Option (Option Int)) : Prop where
  listed : ∀ {i l j}, lists i = some l → j ∈ l → holder j = some (some i)
  once : ∀ {j i}, holder j = some (some i) → ∃ l, lists i = some l ∧ l.count j = 1

section
variable {L : Int → Option (List Int)} {H : Int → Option (Option Int)}

theorem Linked.empty : Linked (fun _ => none) (fun _ => none) := ⟨nofun, nofun⟩

theorem Linked.editLists {xs : Array α} {g : α → List Int} (h : Linked (view xs g) H)
    {f : α → α} (hf : ∀ x, g (f x) = g x) : Linked (view (editAt xs k f) g) H := by
  rw [view_edit_same _ _ hf]; exact h

theorem Linked.editHolders {xs : Array α} {g : α → Option Int} (h : Linked L (view xs g))
    {f : α → α} (hf : ∀ x, g (f x) = g x) : Linked L (view (editAt xs k f) g) := by
  rw [view_edit_same _ _ hf]; exact h

section
variable (h : Linked L H)
include h

theorem Linked.addHolder (hi : L i = none) : Linked (put L i []) H where
  listed := by
    intro k l j hl hj
    by_cases hk : k = i
    · subst hk; rw [put_self] at hl; cases hl; cases hj
    · rw [put_ne _ hk] at hl; exact h.listed hl hj
  once := by
    intro j k hj
    obtain ⟨l, hl, hc⟩ := h.once hj
    have hk : k ≠ i := fun e => by rw [e, hi] at hl; cases hl
    exact ⟨l, by rw [put_ne _ hk]; exact hl, hc⟩

theorem Linked.addHolders (n : Nat) (hb : ∀ i : Int, base ≤ i → L i = none) :
    Linked (putRange L base n fun _ => []) H where
  listed := by
    intro k l j hl hj
    unfold putRange at hl
    split at hl
    · cases hl; cases hj
    · exact h.listed hl hj
  once := by
    intro j k hj
    obtain ⟨l, hl, hc⟩ := h.once hj
    have hk : ¬ ((base : Int) ≤ k ∧ k < base + n) := fun hr => by rw [hb k hr.1] at hl; cases hl
    exact ⟨l, by simp only [putRange, hk]; exact hl, hc⟩

theorem Linked.addFree (hj : H j = none) : Linked L (put H j none) where
  listed := by
    intro i l k hl hk
    have := h.listed hl hk
    have hkj : k ≠ j := fun e => by rw [e, hj] at this; cases this
    rw [put_ne _ hkj]; exact this
  once := by
    intro k i hk
    by_cases hkj : k = j
    · subst hkj; rw [put_self] at hk; cases hk
    · rw [put_ne _ hkj] at hk; exact h.once hk

section
variable (hi : L i = some l)
include hi

theorem Linked.once_put {x k : Int} {l' : List Int} (hx : H x = some (some k)) (same : l'.count x = l.count x) :
    ∃ m, put L i l' k = some m ∧ m.count x = 1 := by
  obtain ⟨m, hm, hc⟩ := h.once hx
  by_cases hk : k = i
  · subst hk
    rw [hi] at hm; cases hm
    exact ⟨_, put_self .., same.trans hc⟩
  · exact ⟨m, by rw [put_ne _ hk]; exact hm, hc⟩

theorem Linked.append (hj : ∀ k, H j ≠ some (some k)) : Linked (put L i (l ++ [j])) (put H j (some i)) where
  listed := by
    intro k m x hm hx
    by_cases hk : k = i
    · subst hk
      rw [put_self] at hm; cases hm
      rcases mem_append.mp hx with hx | hx
      · have hxl := h.listed hi hx
        have : x ≠ j := fun e => hj _ (e ▸ hxl)
        rw [put_ne _ this]; exact hxl
      · rw [mem_singleton.mp hx, put_self]
    · rw [put_ne _ hk] at hm
      have hxl := h.listed hm hx
      have : x ≠ j := fun e => hj _ (e ▸ hxl)
      rw [put_ne _ this]; exact hxl
  once := by
    intro x k hx
    by_cases hxj : x = j
    · subst hxj
      rw [put_self] at hx; cases hx
      refine ⟨_, put_self .., ?_⟩
      have : x ∉ l := fun hm => hj _ (h.listed hi hm)
      simp [count_eq_zero.mpr this]
    · rw [put_ne _ hxj] at hx
      refine h.once_put hi hx ?_
      rw [count_append, count_eq_zero.mpr (show x ∉ [j] by simpa using hxj), Nat.add_zero]

theorem Linked.release (hj : H j = some (some i)) : Linked (put L i (l.filter (· != j))) (put H j none) where
  listed := by
    intro k m x hm hx
    have hne : x ≠ j := by
      intro e; subst e
      by_cases hk : k = i
      · subst hk; rw [put_self] at hm; cases hm; simp at hx
      · rw [put_ne _ hk] at hm
        have := h.listed hm hx
        rw [hj] at this
        cases this; exact hk rfl
    rw [put_ne _ hne]
    by_cases hk : k = i
    · subst hk
      rw [put_self] at hm; cases hm
      exact h.listed hi (mem_filter.mp hx).1
    · rw [put_ne _ hk] at hm; exact h.listed hm hx
  once := by
    intro x k hx
    have hne : x ≠ j := fun e => by rw [e, put_self] at hx; cases hx
    rw [put_ne _ hne] at hx
    exact h.once_put hi hx (count_filter (by simpa using hne))

theorem Linked.appendRange (n : Nat) (hb : ∀ j : Int, base ≤ j → H j = none) :
    Linked (put L i (l ++ idsFrom base n)) (putRange H base n fun _ => some i) where
  listed := by
    intro k m x hm hx
    have old : ∀ {y}, H y = some (some k) → putRange H base n (fun _ => some i) y = some (some k) := by
      intro y hy
      have : ¬ ((base : Int) ≤ y ∧ y < base + n) := fun hr => by rw [hb y hr.1] at hy; cases hy
      simp [putRange, this, hy]
    by_cases hk : k = i
    · subst hk
      rw [put_self] at hm; cases hm
      rcases mem_append.mp hx with hx | hx
      · exact old (h.listed hi hx)
      · simp [putRange, mem_idsFrom.mp hx]
    · rw [put_ne _ hk] at hm; exact old (h.listed hm hx)
  once := by
    intro x k hx
    unfold putRange at hx
    split at hx
    · rename_i hr
      cases hx
      refine ⟨_, put_self .., ?_⟩
      have hxl : x ∉ l := fun hm => by have := h.listed hi hm; rw [hb x hr.1] at this; cases this
      rw [count_append, count_eq_zero.mpr hxl, (nodup_idsFrom base n).count, if_pos (mem_idsFrom.mpr hr)]
    · rename_i hr
      refine h.once_put hi hx ?_
      rw [count_append, count_eq_zero.mpr fun hm => hr (mem_idsFrom.mp hm), Nat.add_zero]

theorem Linked.nodup : l.Nodup := by
  rw [nodup_iff_count]
  intro j
  by_cases hj : j ∈ l
  · obtain ⟨m, hm, hc⟩ := h.once (h.listed hi hj)
    rw [hi] at hm; cases hm
    exact Nat.le_of_eq hc
  · rw [count_eq_zero.mpr hj]; exact Nat.zero_le _

end

end

theorem Linked.holds {β : Type} {xs : Array α} {ys : Array β} {list : α → List Int} {holder : β → Option Int}
    (h : Linked (view xs list) (view ys holder)) {x : α} (hx : at? xs i = some x) :
    ∀ j ∈ list x, ∃ y, at? ys j = some y ∧ holder y = some i :=
  fun _ hj => view_some.mp (h.listed (view_of _ hx) hj)

theorem Linked.held {β : Type} {xs : Array α} {ys : Array β} {list : α → List Int} {holder : β → Option Int}
    (h : Linked (view xs list) (view ys holder)) {y : β} (hy : at? ys j = some y) (hi : holder y = some i) :
    ∃ x, at? xs i = some x ∧ j ∈ list x := by
  obtain ⟨l, hl, once⟩ := h.once (hi ▸ view_of holder hy)
  obtain ⟨x, hx, rfl⟩ := view_some.mp hl
  exact ⟨x, hx, count_pos_iff.mp (once ▸ Nat.one_pos)⟩

end

/-! ## Peers -/

/-- Elements of two stores name each other, or name nothing. -/
structure Paired (A B : Int → Option Int) : Prop where
  left : ∀ {i j}, A i = some j → j ≠ absent → B j = some i
  right : ∀ {j i}, B j = some i → i ≠ absent → A i = some j

section
variable {A B : Int → Option Int}

theorem Paired.empty : Paired (fun _ => none) (fun _ => none) := ⟨nofun, nofun⟩

theorem Paired.symm (h : Paired A B) : Paired B A := ⟨h.right, h.left⟩

theorem Paired.editRight {xs : Array α} {g : α → Int} (h : Paired A (view xs g)) {f : α → α}
    (hf : ∀ x, g (f x) = g x) : Paired A (view (editAt xs k f) g) := by
  rw [view_edit_same _ _ hf]; exact h

theorem Paired.add (h : Paired A B) (hk : A k = none) : Paired (put A k absent) B where
  left := by
    intro i j hi hj
    by_cases hik : i = k
    · subst hik; rw [put_self] at hi; cases hi; exact absurd rfl hj
    · rw [put_ne _ hik] at hi; exact h.left hi hj
  right := by
    intro j i hj hi
    have hA := h.right hj hi
    have : i ≠ k := fun e => by rw [e, hk] at hA; cases hA
    rw [put_ne _ this]; exact hA

theorem Paired.addRange (h : Paired A B) (n : Nat) (hb : ∀ j : Int, base ≤ j → A j = none) :
    Paired (putRange A base n fun _ => absent) B where
  left := by
    intro i j hi hj
    unfold putRange at hi
    split at hi
    · cases hi; exact absurd rfl hj
    · exact h.left hi hj
  right := by
    intro j i hj hi
    have hA := h.right hj hi
    have : ¬ ((base : Int) ≤ i ∧ i < base + n) := fun hr => by rw [hb i hr.1] at hA; cases hA
    simp [putRange, this, hA]

theorem Paired.link (h : Paired A B) {p b : Int} (hA : A absent = none) (hB : B absent = none)
    (hp : A p = some absent) (hb : B b = some absent) : Paired (put A p b) (put B b p) where
  left := by
    intro i j hi hj
    by_cases hip : i = p
    · subst hip; rw [put_self] at hi; cases hi; exact put_self ..
    · rw [put_ne _ hip] at hi
      have hj' := h.left hi hj
      have : j ≠ b := fun e => by rw [e, hb] at hj'; cases hj'; rw [hA] at hi; cases hi
      rw [put_ne _ this]; exact hj'
  right := by
    intro j i hj hi
    by_cases hjb : j = b
    · subst hjb; rw [put_self] at hj; cases hj; exact put_self ..
    · rw [put_ne _ hjb] at hj
      have hi' := h.right hj hi
      have : i ≠ p := fun e => by rw [e, hp] at hi'; cases hi'; rw [hB] at hj; cases hj
      rw [put_ne _ this]; exact hi'

end

end Datapath
