import Datapath.Proofs.Adjoining
import Datapath.Proofs.Analyses
import Mathlib.Data.Int.ConditionallyCompleteOrder
import Mathlib.Order.ConditionallyCompleteLattice.Basic

/-!
# More accesses, larger spacings

An access that is added to a design and drives nothing leaves the timing of all else as it is. The
walk over a task meets what it met before and, if the access lies in the task, the access too. So no
limit becomes smaller, and the spacing of no task does.
-/

namespace Datapath

open List

variable {d d' : Design} {head tail : Latency}

/-! ## The order of spacings -/

/-- A spacing among the integers, or above all of them if it is indeterminate. -/
def Spacing.bound (s : Spacing) : WithTop Int := if s.isIndeterminate then ⊤ else (s.clocks.toInt : Int)

namespace Spacing

variable {s g : Spacing}

theorem bound_of_isIndeterminate (h : s.isIndeterminate = true) : s.bound = ⊤ := if_pos h

theorem bound_max (a b : Spacing) : (a.max b).bound = Max.max a.bound b.bound := by
  unfold Spacing.max
  by_cases ha : a.isIndeterminate = true
  · rw [if_pos (by simp [ha]), bound_of_isIndeterminate ha]
    rfl
  by_cases hb : b.isIndeterminate = true
  · rw [if_pos (by simp [hb]), bound_of_isIndeterminate hb, max_eq_right le_top]
    rfl
  rw [if_neg (by simp [ha, hb]), bound, bound, bound, if_neg hb]
  split
  next h =>
    have lt := Int64.lt_iff_toInt_lt.mp h
    rw [max_eq_right (by exact_mod_cast lt.le)]
  next h =>
    have le := mt Int64.lt_iff_toInt_lt.mpr h
    rw [max_eq_left (by exact_mod_cast Int.not_lt.mp le)]

theorem foldl_bound_le {α : Type} {f : α → Spacing} {ls : List α} :
    (ls.foldl (fun s l => s.max (f l)) s).bound ≤ w ↔ s.bound ≤ w ∧ ∀ l ∈ ls, (f l).bound ≤ w := by
  induction ls generalizing s with
  | nil => simp
  | cons l ls ih => rw [foldl_cons, ih, bound_max, max_le_iff, forall_mem_cons, and_assoc]

theorem Least.bound (h : g.Least P) : g.bound = (g.clocks.toInt : Int) := by
  rw [Spacing.bound, h.determinate]
  rfl

theorem Least.bound_le {k : Spacing} (hg : g.Least P) (hk : k.Least Q) (stronger : ∀ s, Q s → P s) :
    g.bound ≤ k.bound := by
  have both := (hk k.clocks.toInt).mp (Int.le_refl _)
  have le := (hg k.clocks.toInt).mpr ⟨both.1, stronger _ both.2⟩
  rw [hg.bound, hk.bound]
  exact_mod_cast le

end Spacing

namespace Throughput

/-! ## Limits that only grow -/

structure Mark.Sub (m m' : Mark) : Prop where
  heads : ∀ l ∈ m.heads, l ∈ m'.heads
  tails : ∀ l ∈ m.tails, l ∈ m'.tails

structure Mark.Valid (m : Mark) : Prop where
  heads : ∀ l ∈ m.heads, l.Valid
  tails : ∀ l ∈ m.tails, l.Valid

section
variable {m : Mark}

theorem Mark.sub_empty (m : Mark) : Mark.Sub {} m := ⟨by simp, by simp⟩

theorem Mark.valid_empty : Mark.Valid {} := ⟨by simp, by simp⟩

theorem Mark.Sub.valid (h : m.Sub m') (hm : m'.Valid) : m.Valid :=
  ⟨fun l hl => hm.heads l (h.heads l hl), fun l hl => hm.tails l (h.tails l hl)⟩

theorem Mark.Sub.addHead (h : m.Sub m') (l : Latency) : (m.addHead l).Sub (m'.addHead l) where
  heads k hk := by simpa [Mark.addHead] using (mem_append.mp hk).imp_left (h.heads k)
  tails := h.tails

theorem Mark.Sub.addTail (h : m.Sub m') (l : Latency) : (m.addTail l).Sub (m'.addTail l) where
  heads := h.heads
  tails k hk := by simpa [Mark.addTail] using (mem_append.mp hk).imp_left (h.tails k)

theorem Mark.Sub.refl (m : Mark) : m.Sub m := ⟨fun _ h => h, fun _ h => h⟩

theorem Mark.sub_addHead (m : Mark) (l : Latency) : m.Sub (m.addHead l) :=
  ⟨fun _ hk => mem_append_left _ hk, fun _ h => h⟩

theorem Mark.sub_addTail (m : Mark) (l : Latency) : m.Sub (m.addTail l) :=
  ⟨fun _ h => h, fun _ hk => mem_append_left _ hk⟩

theorem Mark.Sub.trans (h : m.Sub m') (h' : m'.Sub m'') : m.Sub m'' :=
  ⟨fun l hl => h'.heads l (h.heads l hl), fun l hl => h'.tails l (h.tails l hl)⟩

theorem Mark.Valid.addHead (h : m.Valid) (hl : l.Valid) : (m.addHead l).Valid where
  heads k hk := by
    rcases mem_append.mp hk with hk | hk
    · exact h.heads k hk
    · rwa [mem_singleton.mp hk]
  tails := h.tails

theorem Mark.Valid.addTail (h : m.Valid) (hl : l.Valid) : (m.addTail l).Valid where
  heads := h.heads
  tails k hk := by
    rcases mem_append.mp hk with hk | hk
    · exact h.tails k hk
    · rwa [mem_singleton.mp hk]

theorem Mark.isUnbounded_mono (h : m.Sub m') (hm : m.isUnbounded = true) : m'.isUnbounded = true := by
  simp only [isUnbounded, allHeadsAfter, any_eq_true, Bool.and_eq_true, Bool.not_eq_true', all_eq_false] at hm ⊢
  obtain ⟨t, ht, isOpen, l, hl, early⟩ := hm
  exact ⟨t, h.tails t ht, isOpen, l, h.heads l hl, early⟩

theorem Mark.spacing_bounded (hm : m.Valid) (bounded : m.isUnbounded = false) :
    m.spacing.Least (Mark.Allows { m with tails := m.tails.filter (!·.isOpen) }) := by
  have same : m.spacing = Mark.spacing { m with tails := m.tails.filter (!·.isOpen) } := by
    have closed : Mark.isUnbounded { m with tails := m.tails.filter (!·.isOpen) } = false := by
      simp only [isUnbounded, any_eq_false, mem_filter, Bool.not_eq_true', and_imp]
      intro t _ isClosed
      simp [isClosed]
    simp only [spacing, bounded, closed, filter_filter, Bool.and_self]
  rw [same]
  refine Mark.spacing_least (m := { m with tails := m.tails.filter (!·.isOpen) }) hm.heads fun t ht => ?_
  obtain ⟨ht, isClosed⟩ := mem_filter.mp ht
  exact ⟨hm.tails t ht, by simpa using isClosed⟩

theorem Mark.spacing_mono (h : m.Sub m') (hm : m'.Valid) : m.spacing.bound ≤ m'.spacing.bound := by
  by_cases unbounded : m'.isUnbounded = true
  · by_cases none : m'.heads = []
    · have none' : m.heads = [] := eq_nil_iff_forall_not_mem.mpr fun l hl => by simpa [none] using h.heads l hl
      simp [spacing, none, none']
    · have top : m'.spacing.bound = ⊤ := by
        rw [spacing, if_neg (by simpa using none), if_pos unbounded]
        rfl
      rw [top]
      exact le_top
  · have bounded : m'.isUnbounded = false := by simpa using unbounded
    have bounded' : m.isUnbounded = false := by
      cases hu : m.isUnbounded with
      | false => rfl
      | true => exact absurd (isUnbounded_mono h hu) unbounded
    apply (spacing_bounded (h.valid hm) bounded').bound_le (spacing_bounded hm bounded)
    intro s allows head hhead tail htail
    obtain ⟨htail, isClosed⟩ := mem_filter.mp htail
    exact allows head (h.heads head hhead) tail (mem_filter.mpr ⟨h.tails tail htail, isClosed⟩)

end

structure Usage.Covered (u v : Usage) : Prop where
  resource : u.resource.traits = v.resource.traits
  reads : u.reads.Sub v.reads
  writes : u.writes.Sub v.writes
  address : u.address.Sub v.address

structure Usage.Valid (u : Usage) : Prop where
  reads : u.reads.Valid
  writes : u.writes.Valid
  address : u.address.Valid

section
variable {u : Usage}

theorem Usage.Covered.trans (h : u.Covered v) (h' : v.Covered w) : u.Covered w :=
  ⟨h.resource.trans h'.resource, h.reads.trans h'.reads, h.writes.trans h'.writes, h.address.trans h'.address⟩

theorem Usage.Covered.id (h : u.Covered v) : u.resource.id = v.resource.id := congrArg Prod.fst h.resource

theorem Usage.add_marks {v : Usage} {R : Mark → Mark → Prop}
    (same : u.resource.parallelReads = v.resource.parallelReads)
    (hh : ∀ {m m'}, R m m' → R (m.addHead head) (m'.addHead head))
    (ht : ∀ {m m'}, R m m' → R (m.addTail tail) (m'.addTail tail)) (isWrite : Bool) :
    (R u.reads v.reads → R (u.add isWrite head tail).reads (v.add isWrite head tail).reads) ∧
    (R u.writes v.writes → R (u.add isWrite head tail).writes (v.add isWrite head tail).writes) ∧
    (R u.address v.address → R (u.add isWrite head tail).address (v.add isWrite head tail).address) := by
  unfold Usage.add
  cases isWrite with
  | true => exact ⟨ht, hh, ht ∘ hh⟩
  | false =>
    refine ⟨fun reads => ?_, ht, ht ∘ hh⟩
    simp only [Bool.false_eq_true, if_false, same]
    split
    · exact hh reads
    · exact ht (hh reads)

theorem Usage.Covered.add (h : u.Covered v) (isWrite : Bool) (head tail : Latency) :
    (u.add isWrite head tail).Covered (v.add isWrite head tail) := by
  obtain ⟨reads, writes, address⟩ := add_marks (R := Mark.Sub) (congrArg (·.2.2) h.resource) (·.addHead head)
    (·.addTail tail) isWrite
  exact ⟨by simpa using h.resource, reads h.reads, writes h.writes, address h.address⟩

theorem Usage.covered_add (u : Usage) (isWrite : Bool) (head tail : Latency) :
    u.Covered (u.add isWrite head tail) := by
  have marks (m : Mark) := add_marks (u := u) (R := fun _ => m.Sub) rfl (·.trans (Mark.sub_addHead _ head))
    (·.trans (Mark.sub_addTail _ tail)) isWrite
  exact ⟨by simp, (marks _).1 (.refl _), (marks _).2.1 (.refl _), (marks _).2.2 (.refl _)⟩

theorem Usage.Valid.add (h : u.Valid) (isWrite : Bool) (hh : head.Valid) (ht : tail.Valid) :
    (u.add isWrite head tail).Valid := by
  obtain ⟨reads, writes, address⟩ := add_marks (R := fun _ m => m.Valid) rfl (·.addHead hh) (·.addTail ht) isWrite
  exact ⟨reads h.reads, writes h.writes, address h.address⟩

theorem Usage.Covered.resource_le (h : u.Covered v) (hv : v.Valid) :
    (Limit.resource u).spacing.bound ≤ (Limit.resource v).spacing.bound := by
  simp only [Limit.spacing, Spacing.bound_max]
  exact max_le_max (Mark.spacing_mono h.reads hv.reads) (Mark.spacing_mono h.writes hv.writes)

theorem Usage.Covered.address_le (h : u.Covered v) (hv : v.Valid) :
    (Limit.address u).spacing.bound ≤ (Limit.address v).spacing.bound :=
  Mark.spacing_mono h.address hv.address

end

structure Found.Covered (d : Design) (f g : Found) : Prop where
  loops : f.loops = g.loops
  usages : ∀ u ∈ f.usages, ∃ v ∈ g.usages, u.Covered v
  known : ∀ v ∈ g.usages, d.resource? v.resource.id = some v.resource
  valid : ∀ v ∈ g.usages, v.Valid

section
variable {f : Found}

theorem mem_addAccess : u ∈ (f.addAccess r isWrite head tail).usages ↔
    u ∈ f.usages ∧ u.resource.id ≠ r.id ∨ (∃ w ∈ f.usages, w.resource.id = r.id ∧ u = w.add isWrite head tail) ∨
      (∀ w ∈ f.usages, w.resource.id ≠ r.id) ∧ u = ({ resource := r } : Usage).add isWrite head tail := by
  unfold Found.addAccess
  split
  next known =>
    obtain ⟨w, hw, same⟩ := any_eq_true.mp known
    have new : ¬ ∀ w ∈ f.usages, w.resource.id ≠ r.id := fun h => h w hw (by simpa using same)
    simp only [mem_map, new, false_and, or_false]
    constructor
    · rintro ⟨w, hw, rfl⟩
      by_cases e : w.resource.id = r.id
      · exact .inr ⟨w, hw, e, by simp [e]⟩
      · exact .inl ⟨by simpa [e] using hw, by simp [e]⟩
    · rintro (⟨hu, ne⟩ | ⟨w, hw, e, rfl⟩)
      · exact ⟨u, hu, by simp [ne]⟩
      · exact ⟨w, hw, by simp [e]⟩
  next unknown =>
    have new : ∀ w ∈ f.usages, w.resource.id ≠ r.id := by simpa using unknown
    simp only [mem_append, mem_singleton]
    constructor
    · rintro (hu | rfl)
      · exact .inl ⟨hu, new u hu⟩
      · exact .inr (.inr ⟨new, rfl⟩)
    · rintro (⟨hu, -⟩ | ⟨w, hw, e, -⟩ | ⟨-, rfl⟩)
      · exact .inl hu
      · exact absurd e (new w hw)
      · exact .inr rfl

@[simp] theorem addAccess_loops : (f.addAccess r isWrite head tail).loops = f.loops := by
  unfold Found.addAccess
  split <;> rfl

theorem Found.Covered.right (h : Found.Covered d f g) (hr : d.resource? r.id = some r) (hh : head.Valid)
    (ht : tail.Valid) : Found.Covered d f (g.addAccess r isWrite head tail) where
  loops := by rw [addAccess_loops, h.loops]
  usages u hu := by
    obtain ⟨v, hv, covered⟩ := h.usages u hu
    by_cases e : v.resource.id = r.id
    · exact ⟨_, mem_addAccess.mpr (.inr (.inl ⟨v, hv, e, rfl⟩)), covered.trans (v.covered_add ..)⟩
    · exact ⟨v, mem_addAccess.mpr (.inl ⟨hv, e⟩), covered⟩
  known v hv := by
    rcases mem_addAccess.mp hv with ⟨hv, -⟩ | ⟨w, hw, -, rfl⟩ | ⟨-, rfl⟩
    · exact h.known v hv
    · simpa using h.known w hw
    · simpa using hr
  valid v hv := by
    rcases mem_addAccess.mp hv with ⟨hv, -⟩ | ⟨w, hw, -, rfl⟩ | ⟨-, rfl⟩
    · exact h.valid v hv
    · exact (h.valid w hw).add isWrite hh ht
    · exact Usage.Valid.add ⟨Mark.valid_empty, Mark.valid_empty, Mark.valid_empty⟩ isWrite hh ht

theorem Found.Covered.both (h : Found.Covered d f g) (same : r.traits = r'.traits)
    (hr : d.resource? r'.id = some r') (hh : head.Valid) (ht : tail.Valid) :
    Found.Covered d (f.addAccess r isWrite head tail) (g.addAccess r' isWrite head tail) := by
  have id : r.id = r'.id := congrArg Prod.fst same
  refine { h.right hr hh ht with loops := by simp only [addAccess_loops, h.loops], usages := fun u hu => ?_ }
  rcases mem_addAccess.mp hu with ⟨hu, ne⟩ | ⟨w, hw, e, rfl⟩ | ⟨-, rfl⟩
  · obtain ⟨v, hv, covered⟩ := h.usages u hu
    exact ⟨v, mem_addAccess.mpr (.inl ⟨hv, by rwa [← covered.id, ← id]⟩), covered⟩
  · obtain ⟨v, hv, covered⟩ := h.usages w hw
    exact ⟨_, mem_addAccess.mpr (.inr (.inl ⟨v, hv, by rw [← covered.id, e, id], rfl⟩)), covered.add ..⟩
  · -- the first access of the resource in the first walk need not be the first one in the second walk
    have new : ∀ {v : Usage}, v.resource.traits = r'.traits → Usage.Covered { resource := r } v := by
      intro v hv
      exact ⟨same.trans hv.symm, Mark.sub_empty _, Mark.sub_empty _, Mark.sub_empty _⟩
    by_cases known : ∃ v ∈ g.usages, v.resource.id = r'.id
    · obtain ⟨v, hv, e⟩ := known
      have res := h.known v hv
      rw [e, hr, Option.some.injEq] at res
      exact ⟨_, mem_addAccess.mpr (.inr (.inl ⟨v, hv, e, rfl⟩)), (new (by rw [res])).add ..⟩
    · have unknown : ∀ v ∈ g.usages, v.resource.id ≠ r'.id := fun v hv e => known ⟨v, hv, e⟩
      exact ⟨_, mem_addAccess.mpr (.inr (.inr ⟨unknown, rfl⟩)), (new rfl).add ..⟩

def Found.spacing (f : Found) : Spacing := f.limits.foldl (fun s l => s.max l.spacing) .zero

theorem Found.Covered.spacing_le (h : Found.Covered d f g) : f.spacing.bound ≤ g.spacing.bound := by
  obtain ⟨zero, most⟩ := Spacing.foldl_bound_le.mp (le_refl g.spacing.bound)
  refine Spacing.foldl_bound_le.mpr ⟨zero, fun l hl => ?_⟩
  have larger : ∃ k ∈ g.limits, l.spacing.bound ≤ k.spacing.bound := by
    rcases mem_append.mp hl with hl | hl
    · exact ⟨l, mem_append_left _ (h.loops ▸ hl), le_refl _⟩
    · obtain ⟨u, hu, hl⟩ := mem_flatMap.mp hl
      obtain ⟨v, hv, covered⟩ := h.usages u hu
      have valid := h.valid v hv
      have kind : u.resource.kind = v.resource.kind := congrArg (·.2.1) covered.resource
      have among : ∃ k ∈ (if v.resource.kind == .memory then [Limit.address v, .resource v] else [.resource v]),
          l.spacing.bound ≤ k.spacing.bound := by
        rw [kind] at hl
        have resource := covered.resource_le valid
        have address := covered.address_le valid
        split at hl
        · rw [if_pos ‹_›]
          rcases hl with _ | ⟨_, _ | ⟨_, ⟨⟩⟩⟩
          · exact ⟨_, .head _, address⟩
          · exact ⟨_, .tail _ (.head _), resource⟩
        · rw [if_neg ‹_›]
          cases mem_singleton.mp hl
          exact ⟨_, .head _, resource⟩
      obtain ⟨k, hk, le⟩ := among
      exact ⟨k, mem_append_right _ (mem_flatMap.mpr ⟨v, hv, hk⟩), le⟩
  obtain ⟨k, hk, le⟩ := larger
  exact le_trans le (most k hk)

end

end Throughput

/-! ## Timings with one more access -/

namespace Timing

theorem timeOne_run (ho : d.op? x = some o) (hin : (t.inputOf d o outer).run = .ok (.ok input))
    (inner : if o.kind.isInlineModule then (inside d n x (if t.perModule then .zero else input)).run
        { t with inputs := (x, input) :: t.inputs } = .ok (.ok (), v) else v =
        { t with inputs := (x, input) :: t.inputs }) :
    (timeOne d (inside d n) outer x).run t = .ok (.ok (), { v with buses := busesOf d o input ++ v.buses }) := by
  refine step_bind_ok.mpr ⟨o, t, step_lift_ok.mpr ⟨run_op ho, rfl⟩, ?_⟩
  refine step_bind_ok.mpr ⟨t, t, rfl, step_bind_ok.mpr ⟨input, t, fromQuery_ok.mpr ⟨hin, rfl⟩, ?_⟩⟩
  refine step_bind_ok.mpr ⟨⟨⟩, _, rfl, ?_⟩
  split at inner
  next hi =>
    rw [if_pos hi]
    exact step_bind_ok.mpr ⟨(), v, inner, rfl⟩
  next hi =>
    rw [if_neg hi, inner]
    rfl

structure Beside (d : Design) (c : OpId) (t t' : Timing) : Prop where
  perModule : t'.perModule = t.perModule
  input : ∀ {x}, x ≠ c → t'.input? x = t.input? x
  bus : ∀ {b x}, at? d.buses b = some x → t'.bus? b = t.bus? b

theorem Beside.start (h : Beside d c t t') (x : OpId) (l : Latency) :
    Beside d c { t with inputs := (x, l) :: t.inputs } { t' with inputs := (x, l) :: t'.inputs } where
  perModule := h.perModule
  input ne := by
    unfold input?
    rw [lookup_cons, lookup_cons]
    split
    · rfl
    · exact h.input ne
  bus := h.bus

theorem Beside.finish (h : Beside d c t t') (l : List (BusId × Latency)) :
    Beside d c { t with buses := l ++ t.buses } { t' with buses := l ++ t'.buses } where
  perModule := h.perModule
  input := h.input
  bus hb := by
    unfold bus?
    rw [lookup_append, lookup_append]
    exact congrArg _ (h.bus hb)

theorem Beside.inputOf {input : Latency} (h : Beside d c t t') (ha : AddsAccess d d' owner c)
    (ho : d.op? x = some o) (run : (t.inputOf d o outer).run = .ok (.ok input)) :
    (t'.inputOf d' o outer).run = .ok (.ok input) := by
  obtain ⟨times, timed, rfl⟩ := inputOf_ok run
  have forward := ha.forwardDeps ha.before ho
  have timed' : ∀ v ∈ forwardDeps d' o, t'.bus? v.source = some (times v) := by
    intro v hv
    rw [forward] at hv
    obtain ⟨b, hb⟩ := source_exists ha.before hv
    rw [h.bus hb]
    exact timed v hv
  obtain ⟨l, hl⟩ := inputOf_total outer fun v hv => mem_map_of_mem (mem_of_lookup (timed' v hv))
  obtain ⟨times', timed'', rfl⟩ := inputOf_ok hl
  have same : (forwardDeps d' o).map (fun v => arrival v (times' v)) = (forwardDeps d' o).map fun v => arrival v
    (times v) := by
    apply map_congr_left
    intro v hv
    rw [Option.some.inj ((timed'' v hv).symm.trans (timed' v hv))]
  rw [hl, same, forward]

theorem busesOf_adjoined (ha : AddsAccess d d' owner c) (ho : d.op? x = some o) (l : Latency) :
    busesOf d' o l = busesOf d o l := by
  unfold busesOf
  rw [ha.exitsOf ha.before ho]

def InsideBeside (d d' : Design) (c : OpId) (n : Nat) : Prop :=
  ∀ ⦃m outer t t' u⦄, Beside d c t t' → (inside d n m outer).run t = .ok (.ok (), u) →
    ∃ u', (inside d' (n + 1) m outer).run t' = .ok (.ok (), u') ∧ Beside d c u u'

theorem timeOne_beside (ha : AddsAccess d d' owner c) (ih : InsideBeside d d' c n) (h : Beside d c t t')
    (run : (timeOne d (inside d n) outer x).run t = .ok (.ok (), u)) :
    ∃ u', (timeOne d' (inside d' (n + 1)) outer x).run t' = .ok (.ok (), u') ∧ Beside d c u u' := by
  obtain ⟨o, input, v, ho, hin, inner, rfl⟩ := timeOne_ok run
  have started := h.start x input
  have hin' : (t'.inputOf d' { o with children := o.children ++ if x = owner then [c] else [] } outer).run =
    .ok (.ok input) :=
    (h.inputOf ha ho hin : (t'.inputOf d' o outer).run = _)
  have buses : busesOf d' { o with children := o.children ++ if x = owner then [c] else [] } input =
      busesOf d o input :=
    (busesOf_adjoined ha ho input : busesOf d' o input = _)
  have inner' : ∃ v',
    (if o.kind.isInlineModule then (inside d' (n + 1) x (if t'.perModule then .zero else input)).run
        { t' with inputs := (x, input) :: t'.inputs } = .ok (.ok (), v')
      else v' = { t' with inputs := (x, input) :: t'.inputs }) ∧ Beside d c v v' := by
    cases inline : o.kind.isInlineModule with
    | true =>
      rw [inline] at inner
      obtain ⟨v', run', beside⟩ := ih started inner
      rw [← h.perModule] at run'
      exact ⟨v', run', beside⟩
    | false =>
      rw [inline] at inner
      exact ⟨_, rfl, inner ▸ started⟩
  obtain ⟨v', run', beside⟩ := inner'
  refine ⟨_, timeOne_run (ha.op ho) hin' run', ?_⟩
  rw [buses]
  exact beside.finish _

theorem reached_grows {ids : List OpId} : (∀ {m outer t u}, (inside d n m outer).run t = .ok (.ok (), u) →
    Reaches t u) → (ids.forM (timeOne d (inside d n) outer)).run t = .ok (.ok (), u) → Reaches t u ∧
      ∀ x ∈ ids, ∀ {o y b}, d.op? x = some o → y ∈ d.exitsOf o → y.tag.kind ≠ .sideband → b ∈ y.done :: y.buses →
        b ∈ u.reached := by
  intro deep run
  induction ids generalizing t with
  | nil =>
    cases run
    exact ⟨fun b hb => hb, nofun⟩
  | cons x ids ih =>
    obtain ⟨_, v, one, rest⟩ := step_bind_ok.mp run
    obtain ⟨o, input, w, ho, -, inner, rfl⟩ := timeOne_ok one
    have kept : Reaches t w := by
      split at inner
      next => exact fun b hb => deep inner b hb
      next => rw [inner]; exact fun b hb => hb
    obtain ⟨after, others⟩ := ih rest
    refine ⟨fun b hb => after b ?_, forall_mem_cons.mpr ⟨?_, others⟩⟩
    · simp only [reached, map_append, mem_append]
      exact .inr (kept b hb)
    · intro q y b hq hy flows hb
      cases ho.symm.trans hq
      apply after
      simp only [reached, map_append, mem_append]
      exact .inl (mem_map_of_mem (mem_busesOf hy flows hb))

theorem inside_reaches (n : Nat) : ∀ {m outer t u}, (inside d n m outer).run t = .ok (.ok (), u) → Reaches t u := by
  induction n with
  | zero => exact fun h => by cases h
  | succ n ih =>
    intro m outer t u run
    simp only [inside_succ, step_bind_ok, fromQuery_ok] at run
    obtain ⟨ids, _, ⟨-, rfl⟩, run⟩ := run
    exact (reached_grows ih run).1

section
variable (ha : AddsAccess d d' owner c)
include ha

theorem timeAccess (h : Beside d c t t') (n : Nat) (outer : Latency)
    (ready : ∀ {o}, d'.op? c = some o → ∀ v ∈ forwardDeps d' o, v.source ∈ t'.reached) :
    ∃ u', (timeOne d' (inside d' n) outer c).run t' = .ok (.ok (), u') ∧ Beside d c t u' := by
  obtain ⟨o, r, ho, -⟩ := ha.access
  obtain ⟨input, hin⟩ := inputOf_total outer (ready ho)
  have plain : o.kind.isInlineModule = false := (ha.plain ho).1
  refine ⟨_, timeOne_run (v := { t' with inputs := (c, input) :: t'.inputs }) ho hin (by simp [plain]), h.perModule,
    ?_, ?_⟩
  · intro x ne
    unfold input?
    rw [lookup_cons, beq_false_of_ne ne]
    exact h.input ne
  · intro b y hb
    unfold bus?
    rw [lookup_append]
    -- the buses of the access are new
    have new : (busesOf d' o input).lookup b = none := by
      cases known : (busesOf d' o input).lookup b with
      | none => rfl
      | some l =>
        obtain ⟨z, hz, mem⟩ := mem_flatMap.mp (mem_of_lookup known)
        obtain ⟨_, carried, e⟩ := mem_map.mp mem
        cases e
        obtain ⟨own, hz⟩ := ha.after.exitsOf ho (mem_filter.mp hz).1
        obtain ⟨y', hy', exit⟩ := ha.after.bus_of_exit hz carried
        have same := ha.bus (view_of Bus.exit hb)
        rw [view_of _ (show at? d'.buses b = some y' from hy'), Option.some.injEq, exit] at same
        obtain ⟨w, hw, -⟩ := ha.before.buses.held hb rfl
        rw [← same] at hw
        cases hz.symm.trans (ha.exit hw)
        obtain ⟨k, hk, -⟩ := ha.before.exits.held hw rfl
        exact absurd own (ha.ne_new hk)
    rw [new]
    exact h.bus hb

theorem timeAll_beside {ids : List OpId} (ih : InsideBeside d d' c n) (h : Beside d c t t')
    (run : (ids.forM (timeOne d (inside d n) outer)).run t = .ok (.ok (), u)) :
    ∃ u', (ids.forM (timeOne d' (inside d' (n + 1)) outer)).run t' = .ok (.ok (), u') ∧ Beside d c u u' := by
  induction ids generalizing t t' with
  | nil =>
    cases run
    exact ⟨t', rfl, h⟩
  | cons x ids rest =>
    obtain ⟨_, v, one, run⟩ := step_bind_ok.mp run
    obtain ⟨v', one', h'⟩ := timeOne_beside ha ih h one
    obtain ⟨u', run', h''⟩ := rest h' run
    exact ⟨u', step_bind_ok.mpr ⟨(), v', one', run'⟩, h''⟩

theorem inside_beside (n : Nat) : InsideBeside d d' c n := by
  induction n with
  | zero => exact fun _ _ _ _ _ _ h => by cases h
  | succ n ih =>
    intro m outer t t' u h run
    simp only [inside_succ, step_bind_ok, fromQuery_ok] at run
    obtain ⟨ids, _, ⟨hq, rfl⟩, run⟩ := run
    obtain ⟨v', run', h'⟩ := timeAll_beside ha ih h run
    have last : ∃ u', ((if m = owner then [c] else []).forM (timeOne d' (inside d' (n + 1)) outer)).run
        v' = .ok (.ok (), u') ∧ Beside d c u u' := by
      split
      next e =>
        have ready : ∀ {o}, d'.op? c = some o → ∀ v ∈ forwardDeps d' o, v.source ∈ v'.reached := by
          intro o ho v hv
          obtain ⟨-, k, q, x, hk, own, hx, flows, hb⟩ := ha.driven ho hv
          obtain ⟨p, hp, perm⟩ := order_ok hq
          obtain ⟨p', hp', child⟩ := ha.before.mem_children hk (own ▸ e ▸ ne_absent hp)
          rw [own, ← e] at hp'
          cases hp.symm.trans hp'
          have timed := (reached_grows (inside_reaches n) run).2 k (perm.mem_iff.mpr child) hk hx flows hb
          obtain ⟨l, hl⟩ := lookup_of_mem_keys timed
          obtain ⟨b, hb, -⟩ := ha.before.bus_of_exit (ha.before.exitsOf hk hx).2 hb
          have hl' : v'.bus? v.source = some l := (h'.bus hb).trans hl
          exact mem_map_of_mem (mem_of_lookup hl')
        obtain ⟨u', one, h''⟩ := timeAccess ha h' (n + 1) outer ready
        exact ⟨u', step_bind_ok.mpr ⟨(), u', one, rfl⟩, h''⟩
      next => exact ⟨v', rfl, h'⟩
    obtain ⟨u', run'', h''⟩ := last
    refine ⟨u', ?_, h''⟩
    refine step_bind_ok.mpr ⟨_, t', fromQuery_ok.mpr ⟨ha.order hq, rfl⟩, ?_⟩
    exact (congrArg (fun w : Step Unit => w.run t') forM_append).trans (step_bind_ok.mpr ⟨(), v', run', run''⟩)

theorem compute_beside (run : (compute d m base).run .absolute = .ok (.ok (), t)) :
    ∃ t', (compute d' m base).run .absolute = .ok (.ok (), t') ∧ Beside d c t t' := by
  have start : Beside d c { perModule := false, inputs := [(m, base)] }
    { perModule := false, inputs := [(m, base)] } :=
    ⟨rfl, fun _ => rfl, fun _ => rfl⟩
  obtain ⟨t', run', h⟩ := inside_beside ha (d.ops.size + 1) start run
  rw [← ha.size] at run'
  exact ⟨t', run', h⟩

end

theorem Beside.valid (h : Beside d c t t') (ha : AddsAccess d d' owner c) (hm : d.op? m = some o)
    (ht' : Timed d' m base t') (inputs : ∀ {x l}, t.input? x = some l → l.Valid)
    (buses : ∀ {b l}, t.bus? b = some l → l.Valid) (hx : t'.input? x = some l) : l.Valid := by
  have old : ∀ {y : OpId} {k}, y ≠ c → t'.input? y = some k → k.Valid :=
    fun ne hy => inputs ((h.input ne).symm.trans hy)
  by_cases ne : x = c
  · subst ne
    rcases ht'.trace.start_of_mem (mem_of_lookup hx) with ⟨e, -⟩ | ⟨q, outer, times, -, hq, hown, driven, rfl⟩
    · exact absurd e.symm (ha.ne_new hm)
    · obtain ⟨q', r, hq', own, -⟩ := ha.access
      cases hq.symm.trans hq'
      have older := ha.after.nesting.older hq
      apply startOf_valid
      · exact old (Int.ne_of_lt older) (lookup_of_mem ht'.trace.nodup hown)
      · intro k hk
        obtain ⟨v, hv, rfl⟩ := mem_map.mp hk
        obtain ⟨clocks, s, p, y, hs, -, hy, -, hb⟩ := ha.driven hq hv
        obtain ⟨b, hb, -⟩ := ha.before.bus_of_exit (ha.before.exitsOf hs hy).2 hb
        have timed := (h.bus hb).symm.trans (ht'.bus_of_at ha.after (driven v hv))
        rw [arrival, clocks]
        exact buses timed
  · exact old ne hx

end Timing

/-! ## Walks that meet one more access -/

namespace Throughput

theorem loop_iff {visit : Visit} : ((loop d visit o outer).run f).run = .ok (.ok ((), f')) ↔
    ∃ b, d.isIterative o.id = .ok b ∧ if b then ∃ x, d.mainExit? o = some x ∧
        ((visit o.id (some (outer.getD o.id))).run { f with loops := f.loops ++ [.loop o.name x.latency] }).run =
          .ok (.ok ((), f'))
      else ((visit o.id outer).run f).run = .ok (.ok ((), f')) := by
  simp only [loop, walk_bind_ok, walk_lift_ok]
  constructor
  · rintro ⟨b, _, ⟨hb, rfl⟩, h⟩
    refine ⟨b, hb, ?_⟩
    cases b with
    | false => exact h
    | true =>
      rw [if_pos rfl] at h ⊢
      split at h
      next => exact (reject_ok.mp (walk_query_ok.mp h).1).elim
      next x hx =>
        simp only [walk_bind_ok, walk_modify_ok] at h
        obtain ⟨_, _, rfl, h⟩ := h
        exact ⟨x, hx, h⟩
  · rintro ⟨b, hb, h⟩
    refine ⟨b, f, ⟨hb, rfl⟩, ?_⟩
    cases b with
    | false => exact h
    | true =>
      rw [if_pos rfl] at h ⊢
      obtain ⟨x, hx, h⟩ := h
      rw [hx]
      simp only [walk_bind_ok]
      exact ⟨⟨⟩, _, rfl, h⟩

theorem visitOne_eq (ho : d.op? c = some o) : visitOne d t (visit d t n) outer c =
    if o.kind = .loop then loop d (visit d t n) o outer else if o.kind.isInlineModule then visit d t n c outer
    else if o.kind.isAccess then access d t o outer else pure () := by
  unfold visitOne
  rw [run_op ho]
  obtain ⟨_, kind⟩ := o
  cases kind <;> rfl

theorem access_run (hs : Spans d t o.id head tail outer) (hr : d.resource? o.resource = some r) :
    ((access d t o outer).run f).run = .ok (.ok ((), f.addAccess r o.kind.isWrite head tail)) := by
  simp only [access, walk_bind_ok, walk_query_ok, walk_lift_ok]
  exact ⟨(head, tail), f, ⟨span_run hs, rfl⟩, r, f, ⟨require_ok.mpr hr, rfl⟩, rfl⟩

structure Follows (d d' : Design) (owner c call : OpId) (t t' : Timing) : Prop where
  adds : AddsAccess d d' owner c
  ends : LoopsEnd d'
  timed : Timing.Timed d' call .zero t'
  beside : Timing.Beside d c t t'
  inputs : ∀ {x l}, t'.input? x = some l → l.Valid
  buses : ∀ {b l}, t.bus? b = some l → l.Valid

namespace Follows

variable (h : Follows d d' owner c call t t')
include h

theorem around (ha : Around d call outer) : Around d' call outer := by
  intro l hl
  obtain ⟨nested, o, ho, kind⟩ := ha l hl
  exact ⟨h.adds.nested nested, _, h.adds.op ho, kind⟩

theorem timedBus (ho : d.op? x = some o) (hy : y ∈ d.exitsOf o) :
    t'.bus? y.done = some l ↔ t.bus? y.done = some l := by
  obtain ⟨b, hb, -⟩ := h.adds.before.bus_of_exit (h.adds.before.exitsOf ho hy).2 mem_cons_self
  rw [h.beside.bus hb]

theorem spans (ha : Around d call outer) (ho : d.op? x = some o)
    (hs : Spans d t x head tail outer) : Spans d' t' x head tail outer := by
  cases outer with
  | none => exact ⟨(h.beside.input (h.adds.ne_new ho)).trans hs.1, hs.2⟩
  | some l =>
    obtain ⟨hh, q, y, hq, main, tailed⟩ := hs
    refine ⟨(h.beside.input (h.adds.ne_new hq)).trans hh, _, y, h.adds.op hq, ?_, ?_⟩
    · exact (h.adds.mainExit? h.adds.before hq : d'.mainExit? q = _).trans main
    · exact (h.timedBus hq (mainExit?_mem main)).mpr tailed

theorem spans_valid (ha : Around d call outer) (hs : Spans d' t' x head tail outer) : head.Valid ∧ tail.Valid := by
  cases outer with
  | none =>
    obtain ⟨hh, rfl⟩ := hs
    exact ⟨h.inputs hh, h.inputs hh⟩
  | some l =>
    obtain ⟨hh, q', y, hq', main, tailed⟩ := hs
    refine ⟨h.inputs hh, ?_⟩
    obtain ⟨-, q, hq, -⟩ := ha l rfl
    cases hq'.symm.trans (h.adds.op hq)
    have main : d.mainExit? q = some y := (h.adds.mainExit? h.adds.before hq : d'.mainExit? q = _).symm.trans main
    exact h.buses ((h.timedBus hq (mainExit?_mem main)).mp tailed)

theorem resource (hr : d.resource? i = some r) : ∃ r', d'.resource? i = some r' ∧ r.traits = r'.traits := by
  obtain ⟨r', hr', same⟩ := view_some.mp (h.adds.resource ▸ view_of Resource.traits hr)
  exact ⟨r', hr', same.symm⟩

theorem known (hr : d'.resource? i = some r) : d'.resource? r.id = some r := by
  rw [h.adds.after.resourceIds i r hr]
  exact hr

def Visits (d d' : Design) (call : OpId) (t t' : Timing) (n : Nat) : Prop :=
  ∀ ⦃m p outer f f' g⦄, d.op? m = some p → Inside d call m p → Around d call outer → Found.Covered d' f g →
    ((visit d t n m outer).run f).run = .ok (.ok ((), f')) →
    ∃ g', ((visit d' t' (n + 1) m outer).run g).run = .ok (.ok ((), g')) ∧ Found.Covered d' f' g'

theorem one (ih : Visits d d' call t t' n) (nested : Nested d call x) (ha : Around d call outer)
    (covered : Found.Covered d' f g) (run : ((visitOne d t (visit d t n) outer x).run f).run = .ok (.ok ((), f'))) :
    ∃ g', ((visitOne d' t' (visit d' t' (n + 1)) outer x).run g).run = .ok (.ok ((), g')) ∧
      Found.Covered d' f' g' := by
  obtain ⟨o, ho⟩ := nested.exists_op h.adds.before
  have id : o.id = x := h.adds.before.nesting.ids _ _ ho
  rw [visitOne_eq ho] at run
  rw [visitOne_eq (h.adds.op ho)]
  by_cases loop : o.kind = .loop
  · rw [if_pos loop] at run ⊢
    have inside : Inside d call x o := .inr ⟨nested, by rw [loop]; rfl⟩
    obtain ⟨b, hb, run⟩ := loop_iff.mp run
    rw [id] at hb run
    have hb' := h.adds.isIterative h.adds.before hb
    cases b with
    | false =>
      obtain ⟨g', run', covered'⟩ := ih ho inside ha covered run
      refine ⟨g', loop_iff.mpr ⟨false, ?_, ?_⟩, covered'⟩
      · rw [id]; exact hb'
      · rw [id]; exact run'
    | true =>
      obtain ⟨y, main, run⟩ := run
      have around : Around d call (some (outer.getD x)) := by
        cases outer with
        | none =>
          intro l hl
          cases hl
          exact ⟨nested, o, ho, loop⟩
        | some l => exact ha
      have noted : Found.Covered d' { f with loops := f.loops ++ [.loop o.name y.latency] }
          { g with loops := g.loops ++ [.loop o.name y.latency] } :=
        { covered with loops := by rw [covered.loops] }
      obtain ⟨g', run', covered'⟩ := ih ho inside around noted run
      refine ⟨g', loop_iff.mpr ⟨true, ?_, y, ?_, ?_⟩, covered'⟩
      · rw [id]; exact hb'
      · exact (h.adds.mainExit? h.adds.before ho : d'.mainExit? o = _).trans main
      · rw [id]; exact run'
  rw [if_neg loop] at run ⊢
  by_cases inline : o.kind.isInlineModule = true
  · rw [if_pos inline] at run ⊢
    exact ih ho (.inr ⟨nested, inline⟩) ha covered run
  rw [if_neg inline] at run ⊢
  by_cases access : o.kind.isAccess = true
  · rw [if_pos access] at run ⊢
    obtain ⟨r, head, tail, hs, hr, rfl⟩ := access_ok run
    rw [id] at hs
    have hs' := h.spans ha ho hs
    obtain ⟨valid, valid'⟩ := h.spans_valid ha hs'
    obtain ⟨r', hr', same⟩ := h.resource hr
    rw [← id] at hs'
    exact ⟨_, access_run hs' hr', covered.both same (h.known hr') valid valid'⟩
  · rw [if_neg access] at run ⊢
    cases run
    exact ⟨g, rfl, covered⟩

theorem all {ids : List OpId} (ih : Visits d d' call t t' n) (nested : ∀ x ∈ ids, Nested d call x)
  (ha : Around d call outer)
    (covered : Found.Covered d' f g)
    (run : ((ids.forM (visitOne d t (visit d t n) outer)).run f).run = .ok (.ok ((), f'))) :
    ∃ g', ((ids.forM (visitOne d' t' (visit d' t' (n + 1)) outer)).run g).run = .ok (.ok ((), g')) ∧
      Found.Covered d' f' g' := by
  induction ids generalizing f g with
  | nil =>
    cases run
    exact ⟨g, rfl, covered⟩
  | cons x ids rest =>
    rw [forall_mem_cons] at nested
    obtain ⟨_, f1, one, run⟩ := walk_bind_ok.mp run
    obtain ⟨g1, one', covered1⟩ := h.one ih nested.1 ha covered one
    obtain ⟨g', run', covered'⟩ := rest nested.2 covered1 run
    exact ⟨g', walk_bind_ok.mpr ⟨(), g1, one', run'⟩, covered'⟩

theorem added (n : Nat) (hm : d.op? owner = some p) (inside : Inside d call owner p) (ha : Around d call outer)
    (covered : Found.Covered d' f g) :
    ∃ g', ((visitOne d' t' (visit d' t' n) outer c).run g).run = .ok (.ok ((), g')) ∧ Found.Covered d' f g' := by
  obtain ⟨o, r, ho, -, access, hr⟩ := h.adds.access
  obtain ⟨inline, loop⟩ := h.adds.plain ho
  have id : o.id = c := h.adds.after.nesting.ids _ _ ho
  have nested : Nested d' call c := by
    have mem : c ∈ p.children ++ if owner = owner then [c] else [] := by simp
    rcases inside with rfl | ⟨nested, inline⟩
    · exact .child (h.adds.op hm) mem
    · exact .deeper (h.adds.nested nested) (h.adds.op hm) inline mem
  obtain ⟨head, tail, hs⟩ := span_total h.ends h.timed nested (h.around ha)
  obtain ⟨valid, valid'⟩ := h.spans_valid ha hs
  rw [visitOne_eq ho, if_neg loop, inline, access]
  rw [← id] at hs
  exact ⟨_, access_run hs hr, covered.right (h.known hr) valid valid'⟩

theorem visits (n : Nat) : Visits d d' call t t' n := by
  induction n with
  | zero => exact fun _ _ _ _ _ _ _ _ _ _ run => by cases run
  | succ n ih =>
    intro m p outer f f' g hm inside ha covered run
    simp only [visit_succ, walk_bind_ok, walk_query_ok] at run
    obtain ⟨ids, _, ⟨hq, rfl⟩, run⟩ := run
    obtain ⟨p', hp', perm⟩ := order_ok hq
    cases hm.symm.trans hp'
    obtain ⟨g1, run', covered1⟩ := h.all ih (fun x hx => inside.nested hm (perm.mem_iff.mp hx)) ha covered run
    have last : ∃ g',
      (((if m = owner then [c] else []).forM (visitOne d' t' (visit d' t' (n + 1)) outer)).run g1).run =
        .ok (.ok ((), g')) ∧ Found.Covered d' f' g' := by
      split
      next e =>
        subst e
        obtain ⟨g', one, covered'⟩ := h.added (n + 1) hm inside ha covered1
        exact ⟨g', walk_bind_ok.mpr ⟨(), g', one, rfl⟩, covered'⟩
      next => exact ⟨g1, rfl, covered1⟩
    obtain ⟨g', run'', covered'⟩ := last
    refine ⟨g', ?_, covered'⟩
    refine walk_bind_ok.mpr ⟨_, g, walk_query_ok.mpr ⟨h.adds.order hq, rfl⟩, ?_⟩
    exact (congrArg (fun w : Walk Unit => (w.run g).run) forM_append).trans (walk_bind_ok.mpr ⟨(), g1, run', run''⟩)

end Follows

/-! ## Tasks -/

theorem analyzeTask_run (balanced : task.balanced = true)
    (timed : (Timing.compute d task.call .zero).run .absolute = .ok (.ok (), t))
    (walked : ((visit d t (d.ops.size + 1) task.call none).run {}).run = .ok (.ok ((), f))) :
    ∃ r, (analyzeTask d task).run = .ok (.ok r) ∧ r.spacing = f.spacing := by
  unfold analyzeTask
  rw [if_pos balanced]
  apply query_bind_exists (query_lift_ok.mpr timed)
  apply query_bind_exists walked
  exact ⟨_, rfl, rfl⟩

theorem analyzeTask_grows (ha : AddsAccess d d' owner c) (ends : LoopsEnd d')
    (hc : d.op? task.call = some o) (valid : ∀ x ∈ d.exits, x.latency.Valid)
    (fits : task.balanced = true → ∀ t, (Timing.compute d task.call .zero).run .absolute = .ok (.ok (), t) →
      Timing.NoOverflow d task.call t) (h : (analyzeTask d task).run = .ok (.ok r)) :
    ∃ r', (analyzeTask d' task).run = .ok (.ok r') ∧ r.spacing.bound ≤ r'.spacing.bound := by
  cases balanced : task.balanced with
  | true =>
    obtain ⟨t, f, timed, walked, spacing⟩ := analyzeTask_ok balanced h
    obtain ⟨t', timed', beside⟩ := Timing.compute_beside ha timed
    have flows : ∀ {x}, FlowExit d task.call x → x.latency.Valid :=
      fun hx => valid _ (mem_of_at? (hx.exit ha.before).2)
    obtain ⟨inputs, buses⟩ :=
      (Timing.compute_ok ha.before timed).valid ha.before (by decide) flows (fits balanced t timed)
    have ht' := Timing.compute_ok ha.after timed'
    have follows : Follows d d' owner c task.call t t' :=
      ⟨ha, ends, ht', beside, beside.valid ha hc ht' inputs buses, buses⟩
    have none : Found.Covered d' {} {} := ⟨rfl, by simp, by simp, by simp⟩
    obtain ⟨g, walked', covered⟩ := follows.visits _ hc (.inl rfl) (by simp [Around]) none walked
    rw [← ha.size] at walked'
    obtain ⟨r', run, spacing'⟩ := analyzeTask_run balanced timed' walked'
    refine ⟨r', run, ?_⟩
    rw [spacing, spacing']
    exact covered.spacing_le
  | false =>
    have main : d'.mainExit? o = d.mainExit? o := ha.mainExit? ha.before hc
    obtain ⟨cs, hc'⟩ := ha.children hc
    have main' : d'.mainExit? { o with children := cs } = d.mainExit? o := main
    unfold analyzeTask at h ⊢
    rw [balanced] at h ⊢
    obtain ⟨p, hp, h⟩ := query_bind_ok.mp h
    cases (run_op hc).symm.trans (query_lift_ok.mp hp)
    apply query_bind_exists (query_lift_ok.mpr (run_op hc'))
    cases hx : d.mainExit? o with
    | none =>
      rw [hx] at h
      exact (reject_ok.mp h).elim
    | some x =>
      rw [hx] at h main'
      rw [main']
      cases h
      exact ⟨_, rfl, le_rfl⟩

/-- What can drive an access that has just been made: nothing, or one bus of a sibling that was there
before. -/
inductive Driven (d d₁ : Design) (owner c : OpId) : Design → Prop where
  | never : Driven d d₁ owner c d₁
  | once {s : OpId} {o : Operation} {x : Exit} {b : BusId} {i : DepId} {d' : Design} (hs : d.op? s = some o)
      (sibling : o.owner = owner) (hx : x ∈ d.exitsOf o) (flows : x.tag.kind ≠ .sideband)
        (hb : b ∈ x.done :: x.buses)
      (started : start c b d₁ = .ok (i, d')) : Driven d d₁ owner c d'

theorem newAccess_driven {d1 : Design} (hd : WellFormed d) (hm : d.op? owner = some m)
    (made : newAccess kind owner name resource latency d = .ok (c, d1)) (driven : Driven d d1 owner c d') :
    AddsAccess d d' owner c := by
  obtain ⟨adds, bare⟩ := newAccess_adds hd hm made
  cases driven with
  | never => exact adds
  | once hs sibling hx flows hb started => exact adds.start bare hs sibling hx flows hb started

/-- One more access does not make the analysis fail, and it does not allow any task to start earlier
again. -/
theorem access_spacing_grows (hd : Built d) {kind : Kind} {name : String} {resource : ResId} {latency : Latency}
    {m : Operation} {d₁ e : Design} {rs : List Result} (hm : d.op? owner = some m)
    (made : newAccess kind owner name resource latency d = .ok (c, d₁)) (driven : Driven d d₁ owner c d')
    (valid : ∀ x ∈ d.exits, x.latency.Valid) (fits : ∀ task ∈ d.tasks, task.balanced = true → ∀ t,
      (Timing.compute d task.call .zero).run .absolute = .ok (.ok (), t) → Timing.NoOverflow d task.call t)
    (before : analyze.run d = .ok (.ok rs, e)) :
    ∃ rs' e', analyze.run d' = .ok (.ok rs', e') ∧ ∀ {i task}, at? e.tasks i = some task →
      ∃ g, at? e'.tasks i = some { task with goSpacing := g } ∧ task.goSpacing.bound ≤ g.bound := by
  have ha := newAccess_driven hd.wellFormed hm made driven
  have hd' : Built d' := by
    have placed : (Command.newAccess kind owner name resource latency).isPlaced d = true := by
      simp [Command.isPlaced, Command.owner?, hm]
    have hd₁ : Built d₁ := hd.step _ placed (discard_run made)
    cases driven with
    | never => exact hd₁
    | once _ _ _ _ _ started => exact hd₁.step (.start ..) rfl (discard_run started)
  have grows : ∀ {i task}, at? d.tasks i = some task → ∃ r r', (analyzeTask d task).run = .ok (.ok r) ∧
      at? e.tasks i = some { task with goSpacing := r.spacing } ∧
      (analyzeTask d' task).run = .ok (.ok r') ∧ r.spacing.bound ≤ r'.spacing.bound := by
    intro i task hi
    obtain ⟨r, hr, spaced⟩ := analyze_ok hd.wellFormed before hi
    have listed := mem_of_at? hi
    obtain ⟨o, ho, -⟩ := Region.task_call hd.shaped listed
    obtain ⟨r', hr', le⟩ := analyzeTask_grows ha hd'.loopsEnd ho valid (fits task listed) hr
    exact ⟨r, r', hr, spaced, hr', le⟩
  have answers : ∀ task ∈ d'.tasks, ∃ r, (analyzeTask d' task).run = .ok (.ok r) := by
    intro task listed
    rw [ha.tasks] at listed
    obtain ⟨-, r', -, -, hr', -⟩ := grows (hd.wellFormed.taskIds.at?_of_mem (Array.mem_toList_iff.mpr listed))
    exact ⟨r', hr'⟩
  obtain ⟨rs', e', after⟩ := analyze_total hd'.wellFormed answers
  refine ⟨rs', e', after, fun {i task} hi => ?_⟩
  have calls := ((Grows.obeys (C := fun _ => True) (K := fun _ => False)).spaces.analyze.run before).tasks
  obtain ⟨task₀, hi₀, -⟩ := view_some.mp ((congrFun calls i).symm.trans (view_of Task.call hi))
  obtain ⟨r, r', -, spaced, hr', le⟩ := grows hi₀
  obtain ⟨r'', hr'', spaced'⟩ := analyze_ok hd'.wellFormed after (by rw [ha.tasks]; exact hi₀)
  cases hi.symm.trans spaced
  cases hr'.symm.trans hr''
  exact ⟨r'.spacing, spaced', le⟩

theorem second_write_spacing_grows : ∃ d d₁ d' v rs e rs' e' task g,
    runAll spacingCommands { name := "x" } = some d ∧ newAccess .memoryWrite 3 "v" 0 .one d = .ok (24, d₁) ∧
    start 24 2 d₁ = .ok (v, d') ∧ analyze.run d = .ok (.ok rs, e) ∧ at? e.tasks 0 = some task ∧
    task.goSpacing = ⟨6⟩ ∧ analyze.run d' = .ok (.ok rs', e') ∧ at? e'.tasks 0 = some { task with goSpacing := g } ∧
    ⟨6⟩ ≠ g ∧ task.goSpacing.bound ≤ g.bound := by
  obtain ⟨d, hd, valid, calls, _, d₁, made, rfl, v, d', started, rs, e, before, rs', e', after, ⟨⟩, t, timed, small,
      task, hi, six, task', hi', more, m, hm, o, ho, own, exits, x, hx, tag, done⟩ : ∃ d,
      runAll spacingCommands { name := "x" } = some d ∧ (∀ x ∈ d.exits, x.latency.Valid) ∧
      (∀ task ∈ d.tasks, task.call = 0) ∧ ∃ c d₁, newAccess .memoryWrite 3 "v" 0 .one d = .ok (c, d₁) ∧ c = 24 ∧
      ∃ v d', start 24 2 d₁ = .ok (v, d') ∧ ∃ rs e, analyze.run d = .ok (.ok rs, e) ∧ ∃ rs' e',
      analyze.run d' = .ok (.ok rs', e') ∧ ∃ u t, (Timing.compute d 0 .zero).run .absolute = .ok (.ok u, t) ∧
      Timing.isSmall d t = true ∧ ∃ task, at? e.tasks 0 = some task ∧ task.goSpacing = ⟨6⟩ ∧ ∃ task',
      at? e'.tasks 0 = some task' ∧ ⟨6⟩ ≠ task'.goSpacing ∧ ∃ m, d.op? 3 = some m ∧ ∃ o, d.op? 4 = some o ∧
      o.owner = 3 ∧ o.exits = [2] ∧ ∃ x, d.exit? 2 = some x ∧ x.tag = .done ∧ x.done = 2 := by
    set_option synthInstance.maxSize 100000 in decide +kernel
  have built := (Built.empty "x").runAll hd
  have flows : x.tag.kind ≠ .sideband := by rw [tag]; decide
  have listed : x ∈ d.exitsOf o := by simp [Design.exitsOf, exits, hx]
  have driven : Driven d d₁ 3 24 d' := .once ho own listed flows (by rw [done]; exact mem_cons_self) started
  obtain ⟨rs'', e'', after', grows⟩ := access_spacing_grows built hm made driven valid (fun task ht _ t' ht' => by
    rw [calls task ht] at ht' ⊢
    cases timed.symm.trans ht'
    exact Timing.noOverflow_of_isSmall built.wellFormed small) before
  cases after.symm.trans after'
  obtain ⟨g, hg, le⟩ := grows hi
  cases hi'.symm.trans hg
  exact ⟨d, d₁, d', v, rs, e, rs', e', task, g, hd, made, started, before, hi, six, after, hg, more, le⟩

end Throughput

end Datapath
