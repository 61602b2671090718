import Datapath.Proofs.SpacingGrowth

/-!
# The order of accesses does not matter

The spacing of a limit depends on which accesses were added to its usage and not on their order. It
only grows with more accesses. All accesses of a resource share the address, so the limit of the
address is never below the limit of the reads and writes.
-/

namespace Datapath

open List

/-! ## Spacings that are counts or indeterminate -/

namespace Spacing

def Proper (s : Spacing) : Prop := 0 ≤ s.clocks.toInt ∨ s = .indeterminate

theorem Proper.max {a : Spacing} (ha : a.Proper) (hb : b.Proper) : (a.max b).Proper := by
  unfold Spacing.max
  split
  · exact .inr rfl
  split
  · exact hb
  · exact ha

theorem Proper.eq {b : Spacing} (ha : a.Proper) (hb : b.Proper) (h : a.bound = b.bound) : a = b := by
  have count : ∀ {s : Spacing}, 0 ≤ s.clocks.toInt → s.bound = (s.clocks.toInt : Int) := by
    intro s hs
    have determinate : s.isIndeterminate = false := by
      simp only [isIndeterminate, decide_eq_false_iff_not, Int64.lt_iff_toInt_lt]
      exact Int.not_lt.mpr hs
    rw [bound, determinate]
    rfl
  rcases ha with ha | rfl <;> rcases hb with hb | rfl
  · rw [count ha, count hb] at h
    have same : a.clocks.toInt = b.clocks.toInt := by exact_mod_cast h
    exact congrArg Spacing.mk (Int64.toInt_inj.mp same)
  · rw [count ha] at h
    exact absurd h WithTop.coe_ne_top
  · rw [count hb] at h
    exact absurd h.symm WithTop.coe_ne_top
  · rfl

end Spacing

namespace Throughput

theorem Mark.spacing_proper {m : Mark} (hm : m.Valid) : m.spacing.Proper := by
  cases hu : m.isUnbounded with
  | true =>
    rw [spacing]
    split
    · exact .inl (by decide)
    · exact .inr rfl
  | false => exact .inl (spacing_bounded hm hu).nonneg

/-! ## Limits of usages -/

theorem Usage.Valid.proper (h : u.Valid) : ∀ limit ∈ [Limit.resource, Limit.address], (limit u).spacing.Proper := by
  simp only [forall_mem_cons]
  exact ⟨(Mark.spacing_proper h.reads).max (Mark.spacing_proper h.writes), Mark.spacing_proper h.address, by simp⟩

theorem Usage.Covered.le (h : u.Covered v) (hv : v.Valid) :
    ∀ limit ∈ [Limit.resource, Limit.address], (limit u).spacing.bound ≤ (limit v).spacing.bound := by
  simp only [forall_mem_cons]
  exact ⟨h.resource_le hv, h.address_le hv, by simp⟩

theorem Usage.resource_le_address (hu : u.Valid) (reads : u.reads.Sub u.address) (writes : u.writes.Sub u.address) :
    (Limit.resource u).spacing.bound ≤ (Limit.address u).spacing.bound := by
  simp only [Limit.spacing, Spacing.bound_max]
  exact max_le (Mark.spacing_mono reads hu.address) (Mark.spacing_mono writes hu.address)

/-! ## Sequences of accesses -/

def Usage.after (r : Resource) (as : List Seen) : Usage :=
  as.foldl (fun u a => u.add a.isWrite a.head a.tail) { resource := r }

theorem Usage.after_eq_summary (r : Resource) (as : List Seen) : after r as = summary r as := by
  induction as using reverseRecOn with
  | nil => rfl
  | append_singleton as a ih =>
    rw [← summary_add, ← ih]
    exact foldl_append ..

theorem Usage.summary_covered (h : ∀ a ∈ as, a ∈ bs) : (summary r as).Covered (summary r bs) := by
  have chosen : ∀ (p : Seen → Bool) (f : Seen → Latency), ∀ l ∈ (as.filter p).map f, l ∈ (bs.filter p).map f := by
    intro p f l hl
    obtain ⟨a, ha, rfl⟩ := mem_map.mp hl
    obtain ⟨ha, hp⟩ := mem_filter.mp ha
    exact mem_map_of_mem (mem_filter.mpr ⟨h a ha, hp⟩)
  refine ⟨rfl, ⟨chosen _ _, chosen _ _⟩, ⟨chosen _ _, chosen _ _⟩, ?_, ?_⟩
  · exact fun l hl => map_subset _ h hl
  · exact fun l hl => map_subset _ h hl

theorem Usage.summary_within (r : Resource) (as : List Seen) :
    (summary r as).reads.Sub (summary r as).address ∧ (summary r as).writes.Sub (summary r as).address := by
  have some : ∀ (p : Seen → Bool) (f : Seen → Latency), ∀ l ∈ (as.filter p).map f, l ∈ as.map f :=
    fun p f l hl => map_subset f filter_sublist.subset hl
  exact ⟨⟨some _ _, some _ _⟩, some _ _, some _ _⟩

theorem Usage.summary_valid (h : ∀ a ∈ as, a.head.Valid ∧ a.tail.Valid) : (summary r as).Valid := by
  have address : (summary r as).address.Valid := by
    constructor <;> exact forall_mem_map.mpr fun a ha => by simp [h a ha]
  exact ⟨(summary_within r as).1.valid address, (summary_within r as).2.valid address, address⟩

/-- The spacings of both limits of a resource are the same in any order of the accesses, do not
decrease with one more access, and are counts or indeterminate; after each access the spacing of the
address is the larger one. -/
theorem limits_grow_in_any_order (r : Resource) (as : List Seen) (hv : ∀ a ∈ as, a.head.Valid ∧ a.tail.Valid) :
    (∀ limit ∈ [Limit.resource, Limit.address],
      (∀ bs, bs.Perm as → (limit (.after r bs)).spacing = (limit (.after r as)).spacing) ∧
      (∀ a : Seen, a.head.Valid → a.tail.Valid →
        (limit (.after r as)).spacing.bound ≤ (limit (.after r (as ++ [a]))).spacing.bound) ∧
      (0 ≤ (limit (.after r as)).spacing.clocks.toInt ∨ (limit (.after r as)).spacing = .indeterminate)) ∧
    ∀ bs, bs <+: as →
      (Limit.resource (.after r bs)).spacing.bound ≤ (Limit.address (.after r bs)).spacing.bound := by
  simp only [Usage.after_eq_summary]
  have valid : (Usage.summary r as).Valid := Usage.summary_valid hv
  refine ⟨fun limit hl => ⟨fun bs perm => ?_, fun a head tail => ?_, valid.proper limit hl⟩, fun bs first => ?_⟩
  · have valid' : (Usage.summary r bs).Valid := Usage.summary_valid fun a ha => hv a (perm.subset ha)
    apply (valid'.proper limit hl).eq (valid.proper limit hl)
    apply le_antisymm
    · exact (Usage.summary_covered fun _ => perm.mem_iff.mp).le valid limit hl
    · exact (Usage.summary_covered fun _ => perm.mem_iff.mpr).le valid' limit hl
  · refine (Usage.summary_covered fun _ => mem_append_left _).le (Usage.summary_valid fun b hb => ?_) limit hl
    rcases mem_append.mp hb with hb | hb
    · exact hv b hb
    · rw [mem_singleton.mp hb]
      exact ⟨head, tail⟩
  · have within := Usage.summary_within r bs
    exact Usage.resource_le_address (Usage.summary_valid fun a ha => hv a (first.subset ha)) within.1 within.2

/-- A read between two writes of a memory: the writes keep off the read, and at the address also each
other. -/
def readBetween : List Seen :=
  let memory : Resource := { id := 0, kind := .memory, name := "m", parallelReads := true }
  [⟨1, memory, true, ⟨2, 2, 0⟩, ⟨3, 3, 0⟩⟩, ⟨2, memory, false, ⟨4, 4, 0⟩, ⟨5, 5, 0⟩⟩, ⟨3, memory, true, ⟨8, 8, 0⟩,
    ⟨9, 9, 0⟩⟩]

theorem readBetween_grows_in_any_order :
    ∃ r a, (∀ b ∈ readBetween, b.resource = r ∧ b.head.Valid ∧ b.tail.Valid) ∧ a.resource = r ∧
      a.tail.isOpen = true ∧
      (Limit.resource (.after r readBetween)).spacing = ⟨5⟩ ∧ (Limit.address (.after r readBetween)).spacing = ⟨7⟩ ∧
      (Limit.resource (.after r readBetween.reverse)).spacing = ⟨5⟩ ∧
      (Limit.resource (.after r readBetween)).spacing.bound ≤
        (Limit.resource (.after r (readBetween ++ [a]))).spacing.bound ∧
      (Limit.resource (.after r (readBetween ++ [a]))).spacing = .indeterminate ∧
      (Limit.resource (.after r readBetween)).spacing.bound ≤
        (Limit.address (.after r readBetween)).spacing.bound := by
  let r : Resource := { id := 0, kind := .memory, name := "m", parallelReads := true }
  let a : Seen := ⟨4, r, false, ⟨6, unknown, 7⟩, ⟨7, unknown, 7⟩⟩
  have valid : ∀ b ∈ readBetween, b.resource = r ∧ b.head.Valid ∧ b.tail.Valid := by decide
  obtain ⟨each, larger⟩ := limits_grow_in_any_order r readBetween fun b hb => (valid b hb).2
  obtain ⟨any, grows, -⟩ := each .resource (by simp)
  have five : (Limit.resource (.after r readBetween)).spacing = ⟨5⟩ := by decide
  refine ⟨r, a, valid, rfl, by decide, five, by decide, ?_, ?_, by decide, larger _ (prefix_refl _)⟩
  · exact (any _ (reverse_perm _)).trans five
  · exact grows a (by decide) (by decide)

end Throughput

end Datapath
