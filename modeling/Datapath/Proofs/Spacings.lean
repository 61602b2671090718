import Datapath.Proofs.Intervals
import Datapath.Throughput.Analysis

/-!
# The least spacing that respects all limits

The spacing of a limit is the least one that keeps the limit, and the largest of several spacings is
the least one that keeps all their limits. The usages of the resources of a task are a summary of the
accesses that were seen, so the limits of a task say which accesses must not meet.
-/

namespace Datapath

open List

/-! ## Words -/

theorem toInt_sub_of_nonneg {b : Int64} (ha : 0 ≤ a.toInt) (hb : 0 ≤ b.toInt) :
    (a - b).toInt = a.toInt - b.toInt := by
  have := a.toInt_lt
  have := b.toInt_lt
  rw [Int64.toInt_sub]
  apply Int.bmod_eq_of_le <;> omega

theorem larger_le {b : Int64} : (if a < b then b else a).toInt ≤ s ↔ a.toInt ≤ s ∧ b.toInt ≤ s := by
  split
  next h => have := Int64.lt_iff_toInt_lt.mp h; omega
  next h => have := mt Int64.lt_iff_toInt_lt.mpr h; omega

theorem foldl_larger_le {xs : List Int64} :
    (xs.foldl (fun a b => if a < b then b else a) a).toInt ≤ s ↔ a.toInt ≤ s ∧ ∀ x ∈ xs, x.toInt ≤ s := by
  induction xs generalizing a with
  | nil => simp
  | cons x xs ih => rw [foldl_cons, ih, larger_le, forall_mem_cons, and_assoc]

theorem Latency.earliest_min (h : ls ≠ []) :
    (∃ k ∈ ls, k.min = (earliest ls).min) ∧ ∀ k ∈ ls, (earliest ls).min.toInt ≤ k.min.toInt := by
  obtain ⟨l, ls, rfl⟩ := exists_cons_of_ne_nil h
  clear h
  simp only [earliest]
  induction ls generalizing l with
  | nil => exact ⟨⟨l, by simp⟩, by simp⟩
  | cons b ls ih =>
    obtain ⟨⟨k, hk, e⟩, least⟩ := ih (if b.min < l.min then b else l)
    have first := least _ mem_cons_self
    refine ⟨⟨k, ?_, e⟩, ?_⟩
    · rcases mem_cons.mp hk with rfl | hk
      · split <;> simp
      · simp [hk]
    · have both : (if b.min < l.min then b else l).min.toInt ≤ l.min.toInt ∧
          (if b.min < l.min then b else l).min.toInt ≤ b.min.toInt := by
        split
        next h => have := Int64.lt_iff_toInt_lt.mp h; omega
        next h => have := mt Int64.lt_iff_toInt_lt.mpr h; omega
      simp only [forall_mem_cons]
      exact ⟨Int.le_trans first both.1, Int.le_trans first both.2, fun k hk => least k (mem_cons_of_mem _ hk)⟩

/-! ## Spacings -/

def Spacing.Least (g : Spacing) (P : Int → Prop) : Prop := ∀ s, g.clocks.toInt ≤ s ↔ 0 ≤ s ∧ P s

namespace Spacing

section
variable {g : Spacing}

theorem Least.nonneg (h : g.Least P) : 0 ≤ g.clocks.toInt := ((h _).mp (Int.le_refl _)).1

theorem Least.congr (h : g.Least P) (hPQ : ∀ s, 0 ≤ s → (P s ↔ Q s)) : g.Least Q :=
  fun s => (h s).trans (and_congr_right (hPQ s))

theorem Least.determinate (h : g.Least P) : g.isIndeterminate = false := by
  have := h.nonneg
  simp only [isIndeterminate, decide_eq_false_iff_not, Int64.lt_iff_toInt_lt]
  exact Int.not_lt.mpr this

theorem least_zero : zero.Least fun _ => True := fun s => by simp [zero]

theorem Least.max {a : Spacing} (ha : a.Least P) (hb : b.Least Q) : (a.max b).Least fun s => P s ∧ Q s := by
  intro s
  have larger : (a.max b).clocks = if a.clocks < b.clocks then b.clocks else a.clocks := by
    simp only [Spacing.max, ha.determinate, hb.determinate, Bool.or_self, Bool.false_eq_true, if_false]
    split <;> rfl
  rw [larger, larger_le, ha s, hb s]
  exact ⟨fun ⟨⟨h, p⟩, _, q⟩ => ⟨h, p, q⟩, fun ⟨h, p, q⟩ => ⟨⟨h, p⟩, h, q⟩⟩

theorem Least.foldl {α : Type} {f : α → Spacing} {R : α → Int → Prop} (ls : List α)
    (h : ∀ l ∈ ls, (f l).Least (R l)) (hg : g.Least P) :
    (ls.foldl (fun s l => s.max (f l)) g).Least fun s => P s ∧ ∀ l ∈ ls, R l s := by
  induction ls generalizing g P with
  | nil => exact hg.congr fun s _ => by simp
  | cons l ls ih =>
    rw [forall_mem_cons] at h
    exact (ih h.2 (hg.max h.1)).congr fun s _ => by rw [forall_mem_cons, and_assoc]

end

end Spacing

/-! ## Limits -/

namespace Throughput

def Mark.Allows (m : Mark) (s : Int) : Prop := ∀ h ∈ m.heads, ∀ t ∈ m.tails, t.max.toInt ≤ s + h.min.toInt

theorem Mark.spacing_least {m : Mark} (hh : ∀ h ∈ m.heads, h.Valid)
    (ht : ∀ t ∈ m.tails, t.Valid ∧ t.isOpen = false) : m.spacing.Least m.Allows := by
  unfold spacing
  by_cases hne : m.heads = []
  · rw [hne]
    exact Spacing.least_zero.congr fun s _ => by simp [Allows, hne]
  have bounded : m.isUnbounded = false := by
    simp only [isUnbounded, any_eq_false]
    exact fun t h hopen => absurd hopen (by simp [(ht t h).2])
  have closed : m.tails.filter (!·.isOpen) = m.tails :=
    filter_eq_self.mpr fun t h => by simp [(ht t h).2]
  simp only [isEmpty_eq_false_iff.mpr hne, bounded, closed, Bool.false_eq_true, if_false]
  obtain ⟨⟨k, hk, e⟩, least⟩ := Latency.earliest_min hne
  intro s
  simp only [foldl_larger_le, forall_mem_map]
  refine and_congr (Iff.of_eq rfl) ⟨fun all h hm t htm => ?_, fun all t htm => ?_⟩
  · have := all t htm
    rw [toInt_sub_of_nonneg ((ht t htm).1.max_nonneg (ht t htm).2) (e ▸ (hh k hk).1)] at this
    have := least h hm
    omega
  · have := all k hk t htm
    rw [toInt_sub_of_nonneg ((ht t htm).1.max_nonneg (ht t htm).2) (e ▸ (hh k hk).1), ← e]
    omega

theorem Limit.draining_least (hl : l.Valid) (hc : l.isOpen = false) :
    (draining l).Least fun s => l.max.toInt ≤ s := by
  intro s
  have := hl.max_nonneg hc
  simp only [draining, hc, Bool.false_eq_true, if_false]
  omega

/-! ## Accesses -/

/-- An access that was seen, from its head to its tail. -/
structure Seen where
  op : OpId
  resource : Resource
  isWrite : Bool
  head : Latency
  tail : Latency

/-- Accesses of one resource, the second of which must not meet the first one of the next run: a read
and a write, reads that exclude each other, and any accesses of a memory. -/
def Seen.Meets (a b : Seen) : Prop :=
  a.resource.id = b.resource.id ∧ (a.isWrite ≠ b.isWrite ∨
    (a.isWrite = false ∧ b.isWrite = false ∧ a.resource.parallelReads = false) ∨ a.resource.kind = .memory)

def Usage.summary (r : Resource) (as : List Seen) : Usage where
  resource := r
  reads := ⟨(as.filter (!·.isWrite)).map Seen.head,
    (as.filter (fun a => a.isWrite || !r.parallelReads)).map Seen.tail⟩
  writes := ⟨(as.filter (·.isWrite)).map Seen.head, (as.filter (!·.isWrite)).map Seen.tail⟩
  address := ⟨as.map Seen.head, as.map Seen.tail⟩

theorem Usage.summary_add (r : Resource) (as : List Seen) (a : Seen) :
    (summary r as).add a.isWrite a.head a.tail = summary r (as ++ [a]) := by
  cases hw : a.isWrite <;> cases hp : r.parallelReads <;>
    simp [summary, add, Mark.addHead, Mark.addTail, hw, hp]

def seenOf (as : List Seen) (r : Resource) : List Seen := as.filter (·.resource.id == r.id)

structure Accounts (as : List Seen) (us : List Usage) : Prop where
  summary : ∀ u ∈ us, u = .summary u.resource (seenOf as u.resource)
  origin : ∀ u ∈ us, ∃ a ∈ as, a.resource = u.resource
  known : ∀ a ∈ as, ∃ u ∈ us, u.resource.id = a.resource.id

theorem Accounts.nil : Accounts [] [] := ⟨by simp, by simp, by simp⟩

@[simp] theorem Usage.add_resource (u : Usage) (w : Bool) (h t : Latency) :
    (u.add w h t).resource = u.resource := by
  unfold Usage.add
  split <;> rfl

theorem seenOf_append (as : List Seen) (a : Seen) (r : Resource) :
    seenOf (as ++ [a]) r = if a.resource.id == r.id then seenOf as r ++ [a] else seenOf as r := by
  simp only [seenOf, filter_append, filter_cons]
  split <;> simp

theorem Accounts.add {f : Found} (h : Accounts as f.usages) (a : Seen) :
    Accounts (as ++ [a]) (f.addAccess a.resource a.isWrite a.head a.tail).usages := by
  -- what one more access does to a usage that was a summary
  have step : ∀ u ∈ f.usages, (if u.resource.id == a.resource.id then u.add a.isWrite a.head a.tail else u) =
      .summary u.resource (seenOf (as ++ [a]) u.resource) := by
    intro u hu
    rw [seenOf_append, Bool.beq_comm (a := a.resource.id)]
    split
    · rw [h.summary u hu]
      exact Usage.summary_add ..
    · exact h.summary u hu
  have same : ∀ u : Usage, (if u.resource.id == a.resource.id then u.add a.isWrite a.head a.tail else u).resource =
      u.resource := by
    intro u
    split <;> simp
  unfold Found.addAccess
  split
  next hany =>
    refine ⟨?_, ?_, ?_⟩
    · intro u hu
      obtain ⟨v, hv, rfl⟩ := mem_map.mp hu
      rw [same]
      exact step v hv
    · intro u hu
      obtain ⟨v, hv, rfl⟩ := mem_map.mp hu
      obtain ⟨b, hb, e⟩ := h.origin v hv
      exact ⟨b, mem_append_left _ hb, by rw [same]; exact e⟩
    · intro b hb
      obtain ⟨v, hv, e⟩ : ∃ v ∈ f.usages, v.resource.id = b.resource.id := by
        rcases mem_append.mp hb with hb | hb
        · exact h.known b hb
        · obtain rfl := mem_singleton.mp hb
          simpa using hany
      exact ⟨_, mem_map_of_mem hv, by rw [same]; exact e⟩
  next hnone =>
    have fresh : ∀ u ∈ f.usages, (u.resource.id == a.resource.id) = false := by
      simpa using hnone
    have first : seenOf as a.resource = [] := by
      refine filter_eq_nil_iff.mpr fun b hb hid => ?_
      obtain ⟨u, hu, e⟩ := h.known b hb
      have := fresh u hu
      rw [e] at this
      exact absurd hid (by simp [this])
    have new : (({ resource := a.resource } : Usage).add a.isWrite a.head a.tail) =
        .summary a.resource (seenOf (as ++ [a]) a.resource) := by
      rw [seenOf_append, first, if_pos (beq_self_eq_true _)]
      exact Usage.summary_add a.resource [] a
    refine ⟨?_, ?_, ?_⟩
    · intro u hu
      rcases mem_append.mp hu with hu | hu
      · have := step u hu
        rwa [fresh u hu] at this
      · obtain rfl := mem_singleton.mp hu
        rw [Usage.add_resource]
        exact new
    · intro u hu
      rcases mem_append.mp hu with hu | hu
      · obtain ⟨b, hb, e⟩ := h.origin u hu
        exact ⟨b, mem_append_left _ hb, e⟩
      · obtain rfl := mem_singleton.mp hu
        exact ⟨a, by simp, by rw [Usage.add_resource]⟩
    · intro b hb
      rcases mem_append.mp hb with hb | hb
      · obtain ⟨u, hu, e⟩ := h.known b hb
        exact ⟨u, mem_append_left _ hu, e⟩
      · obtain rfl := mem_singleton.mp hb
        exact ⟨_, mem_append_right _ (mem_singleton_self _), by rw [Usage.add_resource]⟩

/-! ## All limits of a task -/

def Limit.Allows : Limit → Int → Prop
  | loop _ l, s => l.max.toInt ≤ s
  | resource u, s => u.reads.Allows s ∧ u.writes.Allows s
  | address u, s => u.address.Allows s

def Apart (as : List Seen) (s : Int) : Prop :=
  ∀ a ∈ as, ∀ b ∈ as, a.Meets b → b.tail.max.toInt ≤ s + a.head.min.toInt

theorem Usage.summary_allows (hr : ∀ a ∈ as, a.resource = r) :
    ((Limit.resource (summary r as)).Allows s ∧ (r.kind = .memory → (Limit.address (summary r as)).Allows s)) ↔
      Apart as s := by
  simp only [Limit.Allows, Mark.Allows, summary, forall_mem_map, mem_filter]
  constructor
  · rintro ⟨⟨reads, writes⟩, address⟩ a ha b hb ⟨-, h⟩
    rcases h with hne | ⟨hra, hrb, hp⟩ | hm
    · cases hwa : a.isWrite with
      | true => exact writes a ⟨ha, hwa⟩ b ⟨hb, by simpa [hwa] using hne⟩
      | false => exact reads a ⟨ha, by simp [hwa]⟩ b ⟨hb, by simp_all⟩
    · rw [hr a ha] at hp
      exact reads a ⟨ha, by simp [hra]⟩ b ⟨hb, by simp [hp]⟩
    · exact address (hr a ha ▸ hm) a ha b hb
  · intro h
    have same : ∀ a ∈ as, ∀ b ∈ as, a.resource.id = b.resource.id := fun a ha b hb => by rw [hr a ha, hr b hb]
    refine ⟨⟨?_, ?_⟩, ?_⟩
    · rintro a ⟨ha, hwa⟩ b ⟨hb, hwb⟩
      refine h a ha b hb ⟨same a ha b hb, ?_⟩
      cases hb' : b.isWrite <;> simp_all
    · rintro a ⟨ha, hwa⟩ b ⟨hb, hwb⟩
      exact h a ha b hb ⟨same a ha b hb, .inl (by simp_all)⟩
    · intro hm a ha b hb
      exact h a ha b hb ⟨same a ha b hb, .inr (.inr (hr a ha ▸ hm))⟩

section
variable {f : Found}

theorem Accounts.allows (h : Accounts as f.usages)
    (hr : ∀ a ∈ as, ∀ b ∈ as, a.resource.id = b.resource.id → a.resource = b.resource) :
    (∀ l ∈ f.limits, l.Allows s) ↔ (∀ l ∈ f.loops, l.Allows s) ∧ Apart as s := by
  have own : ∀ u ∈ f.usages, ∀ a ∈ seenOf as u.resource, a.resource = u.resource := by
    intro u hu a ha
    obtain ⟨b, hb, e⟩ := h.origin u hu
    obtain ⟨ha, hid⟩ := mem_filter.mp ha
    rw [← e] at hid ⊢
    exact hr a ha b hb (by simpa using hid)
  have perUsage : ∀ u ∈ f.usages,
      ((∀ l ∈ if u.resource.kind == .memory then [Limit.address u, .resource u] else [.resource u],
      l.Allows s) ↔ Apart (seenOf as u.resource) s) := by
    intro u hu
    rw [← Usage.summary_allows (own u hu), ← h.summary u hu]
    cases hm : u.resource.kind == ResourceKind.memory with
    | true => simp [beq_iff_eq.mp hm, and_comm]
    | false => simp [show u.resource.kind ≠ .memory by simpa using hm]
  unfold Found.limits
  rw [forall_mem_append, forall_mem_flatMap]
  refine and_congr_right fun _ => ⟨fun all a ha b hb hm => ?_, fun all u hu => ?_⟩
  · obtain ⟨u, hu, e⟩ := h.known a ha
    refine (perUsage u hu).mp (all u hu) a ?_ b ?_ hm
    · exact mem_filter.mpr ⟨ha, by simp [e]⟩
    · exact mem_filter.mpr ⟨hb, by simp [e, hm.1]⟩
  · refine (perUsage u hu).mpr fun a ha b hb => ?_
    exact all a (mem_filter.mp ha).1 b (mem_filter.mp hb).1

def Limit.Bounded : Limit → Prop
  | loop _ l => l.Valid ∧ l.isOpen = false
  | resource u => ∀ m ∈ [u.reads, u.writes], (∀ l ∈ m.heads, l.Valid) ∧ ∀ l ∈ m.tails, l.Valid ∧ l.isOpen = false
  | address u => (∀ l ∈ u.address.heads, l.Valid) ∧ ∀ l ∈ u.address.tails, l.Valid ∧ l.isOpen = false

theorem Limit.spacing_least {l : Limit} (h : l.Bounded) : l.spacing.Least l.Allows := by
  cases l with
  | loop _ l => exact draining_least h.1 h.2
  | resource u =>
    simp only [Bounded, forall_mem_cons] at h
    exact (Mark.spacing_least h.1.1 h.1.2).max (Mark.spacing_least h.2.1.1 h.2.1.2)
  | address u => exact Mark.spacing_least h.1 h.2

theorem Usage.summary_bounded (h : ∀ a ∈ as, a.head.Valid ∧ a.tail.Valid ∧ a.tail.isOpen = false) :
    (Limit.resource (summary r as)).Bounded ∧ (Limit.address (summary r as)).Bounded := by
  have heads : ∀ p : Seen → Bool, ∀ l ∈ (as.filter p).map Seen.head, l.Valid := by
    intro p l hl
    obtain ⟨a, ha, rfl⟩ := mem_map.mp hl
    exact (h a (mem_filter.mp ha).1).1
  have tails : ∀ p : Seen → Bool, ∀ l ∈ (as.filter p).map Seen.tail, l.Valid ∧ l.isOpen = false := by
    intro p l hl
    obtain ⟨a, ha, rfl⟩ := mem_map.mp hl
    exact (h a (mem_filter.mp ha).1).2
  have all : as.filter (fun _ => true) = as := filter_eq_self.mpr fun _ _ => rfl
  refine ⟨?_, ?_, ?_⟩
  · simp only [Limit.Bounded, forall_mem_cons]
    exact ⟨⟨heads _, tails _⟩, ⟨heads _, tails _⟩, by simp⟩
  · have := heads fun _ => true
    rwa [all] at this
  · have := tails fun _ => true
    rwa [all] at this

theorem Accounts.spacing_least (h : Accounts as f.usages)
    (hr : ∀ a ∈ as, ∀ b ∈ as, a.resource.id = b.resource.id → a.resource = b.resource)
    (ha : ∀ a ∈ as, a.head.Valid ∧ a.tail.Valid ∧ a.tail.isOpen = false) (hl : ∀ l ∈ f.loops, l.Bounded) :
    (f.limits.foldl (fun s l => s.max l.spacing) Spacing.zero).Least fun s => (∀ l ∈ f.loops, l.Allows s) ∧
      Apart as s := by
  have bounded : ∀ l ∈ f.limits, l.Bounded := by
    intro l hm
    rcases mem_append.mp hm with hm | hm
    · exact hl l hm
    obtain ⟨u, hu, hm⟩ := mem_flatMap.mp hm
    have both : (Limit.resource (.summary u.resource (seenOf as u.resource))).Bounded ∧
        (Limit.address (.summary u.resource (seenOf as u.resource))).Bounded :=
      Usage.summary_bounded fun a h => ha a (mem_filter.mp h).1
    rw [← h.summary u hu] at both
    split at hm
    · rcases mem_cons.mp hm with rfl | hm
      · exact both.2
      · exact mem_singleton.mp hm ▸ both.1
    · exact mem_singleton.mp hm ▸ both.1
  refine (Spacing.least_zero.foldl f.limits fun l hm => Limit.spacing_least (bounded l hm)).congr fun s _ => ?_
  rw [true_and, h.allows hr]

end

end Throughput

end Datapath
