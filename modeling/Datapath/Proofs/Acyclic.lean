import Mathlib.Data.Finset.Card
import Datapath.Proofs.BackPressure
import Datapath.Proofs.Tidy
import Datapath.Proofs.Totality
import Datapath.Proofs.Untouched

/-!
# Orders that exist

The operations of a tidy design drive each other in one direction, so each module has a schedule
order. Walks that go from a module into what it owns, and from a call of a task into the task, do not
come back, so they end within as many levels as there are operations.
-/

namespace Datapath

open List

variable {d : Design}

/-! ## The order of a module -/

theorem arrange_total (rank : OpId → Nat) (size : pending.length ≤ n)
    (lower : ∀ c ∈ pending, ∀ k ∈ drivers c, (k ∈ placed ∨ k ∈ pending) ∧ rank k < rank c) :
    ∃ ids, arrange drivers n placed pending = some ids := by
  induction n generalizing placed pending with
  | zero =>
    cases pending with
    | nil => exact ⟨[], rfl⟩
    | cons c cs => simp at size
  | succ n ih =>
    cases pending with
    | nil => exact ⟨[], rfl⟩
    | cons a cs =>
      -- a pending operation of the lowest rank waits for nothing
      have ready : ∀ r, ∀ c ∈ a :: cs, rank c = r → ∃ c ∈ a :: cs, (drivers c).all placed.contains = true := by
        intro r
        induction r using Nat.strong_induction_on with
        | h r lowest =>
          intro c hc hr
          by_cases all : (drivers c).all placed.contains = true
          · exact ⟨c, hc, all⟩
          · simp only [all_eq_true, contains_iff_mem] at all
            push Not at all
            obtain ⟨k, hk, out⟩ := all
            obtain ⟨there, lt⟩ := lower c hc k hk
            exact lowest (rank k) (hr ▸ lt) k (there.resolve_left out) rfl
      obtain ⟨b, hb, first⟩ := ready _ a mem_cons_self rfl
      cases found : (a :: cs).find? fun c => (drivers c).all placed.contains with
      | none => exact absurd first (by simpa using find?_eq_none.mp found b hb)
      | some c =>
        have hc := mem_of_find?_eq_some found
        have rest : ∃ ids, arrange drivers n (c :: placed) ((a :: cs).erase c) = some ids := by
          apply ih
          · rw [length_erase_of_mem hc]
            exact Nat.le_of_succ_le_succ (by simpa using size)
          · intro k hk j hj
            obtain ⟨there, lt⟩ := lower k (mem_of_mem_erase hk) j hj
            refine ⟨?_, lt⟩
            by_cases e : j = c
            · exact .inl (e ▸ mem_cons_self)
            · exact there.imp (mem_cons_of_mem _) (mem_erase_of_ne e).mpr
        obtain ⟨ids, h⟩ := rest
        refine ⟨c :: ids, ?_⟩
        simp only [arrange, found, h, Option.map_some]

theorem driver_child (hd : WellFormed d) (hm : d.op? m = some o)
    (hk : k ∈ d.drivers m c) : k ∈ o.children ∧ ∃ q v, d.op? c = some q ∧ v ∈ Timing.forwardDeps d q ∧
      d.busOwner? v.source = some k ∧ k ≠ c := by
  unfold Design.drivers at hk
  split at hk
  · cases hk
  next q hq =>
    obtain ⟨hk, near⟩ := mem_filter.mp hk
    obtain ⟨v, hv, hsrc⟩ := mem_filterMap.mp hk
    simp only [Bool.and_eq_true, Option.any_eq_true, beq_iff_eq, bne_iff_ne] at near
    obtain ⟨ne, p, hp, own⟩ := near
    obtain ⟨m', hm', mem⟩ := hd.mem_children hp (own ▸ ne_absent hm)
    rw [own] at hm'
    cases hm.symm.trans hm'
    exact ⟨mem, q, v, hq, hv, hsrc, ne⟩

theorem order_total (hd : WellFormed d) (hm : d.op? m = some o)
    (rank : OpId → Nat) (lower : ∀ c ∈ o.children, ∀ k ∈ d.drivers m c, rank k < rank c) :
    ∃ ids, (d.order m).run = .ok (.ok ids) := by
  obtain ⟨ids, h⟩ : ∃ ids, arrange (d.drivers m) o.children.length [] o.children = some ids := by
    apply arrange_total rank (Nat.le_refl _)
    intro c hc k hk
    exact ⟨.inr (driver_child hd hm hk).1, lower c hc k hk⟩
  exact ⟨ids, order_ok_iff.mpr ⟨o, hm, hd.children_nodup hm, h⟩⟩

def Design.rank (d : Design) (c : OpId) : Nat :=
  match d.place? c with
  | none => 0
  | some (k, m) => k.level (((d.place? m).map Prod.fst).getD .invalid) * d.ops.size + c.toNat

section

theorem Climbs.rank_lt (h : Climbs d s t) : d.rank s < d.rank t := by
  obtain ⟨j, k, l, m, p, hs, ht, hm, up⟩ := h
  have bs := view_lt hs
  simp only [Design.rank, hs, ht, hm, Option.map_some, Option.getD_some]
  rcases up with lt | ⟨ej, ek, lt⟩
  · have := Nat.mul_le_mul_right d.ops.size (Nat.succ_le_of_lt lt)
    rw [Nat.succ_mul] at this
    omega
  · rw [ej, ek]
    omega

theorem Climbs.ne (h : Climbs d s t) : s ≠ t := by
  intro e
  have := h.rank_lt
  rw [e] at this
  exact absurd this (Nat.lt_irrefl _)

theorem Climbs.owner (h : Climbs d s t) (ht : d.op? t = some o) : ∃ q, d.op? s = some q ∧ q.owner = o.owner := by
  obtain ⟨j, k, l, m, p, hs, ht', -, -⟩ := h
  obtain ⟨q, hq, place⟩ := view_some.mp hs
  rw [Design.place?, view_of _ ht, Option.some.injEq] at ht'
  exact ⟨q, hq, (congrArg Prod.snd place).trans (congrArg Prod.snd ht').symm⟩

variable (hd : Orderly d)
include hd

theorem Orderly.forward (ho : d.op? c = some o) (hv : v ∈ Timing.forwardDeps d o) :
    ∃ s, Carried d v.source s ∧ Climbs d s c := by
  obtain ⟨e, he, hv⟩ := mem_flatMap.mp hv
  obtain ⟨he, hf⟩ := mem_filter.mp he
  obtain ⟨i, hi, hie⟩ := mem_filterMap.mp he
  obtain ⟨b, face⟩ := entry_face hd.wf ho hi
  have back : b = false := by
    rw [view_of _ hie, Option.some.injEq] at face
    have e : e.feedback = b := congrArg Prod.snd face
    rw [← e]
    simpa using hf
  subst back
  refine hd.tidy.rises face v ?_
  rw [depsIn_of hie]
  exact hv

theorem Orderly.driver (hm : d.op? m = some o) (hk : k ∈ d.drivers m c) : k ∈ o.children ∧ Climbs d k c := by
  obtain ⟨mem, q, v, hq, hv, carried, -⟩ := driver_child hd.wf hm hk
  obtain ⟨s, hs, up⟩ := hd.forward hq hv
  cases hs.busOwner?.symm.trans carried
  exact ⟨mem, up⟩

theorem Orderly.order (hm : d.op? m = some o) : ∃ ids, (d.order m).run = .ok (.ok ids) :=
  order_total hd.wf hm d.rank fun _ _ _ hk => (hd.driver hm hk).2.rank_lt

omit hd in
theorem Climbs.mem_drivers (up : Climbs d s c) (ho : d.op? c = some o) (hv : v ∈ Timing.forwardDeps d o)
    (carried : Carried d v.source s) : s ∈ d.drivers o.owner c := by
  obtain ⟨q, hq, own⟩ := up.owner ho
  unfold Design.drivers
  rw [ho]
  refine mem_filter.mpr ⟨mem_filterMap.mpr ⟨v, hv, carried.busOwner?⟩, ?_⟩
  simp [up.ne, hq, own]

end

/-! ## The depth of a walk -/

theorem Top.unique (h : Top d x r) (h' : Top d x y) : r = y := by
  obtain ⟨k, hr⟩ := h.outer
  obtain ⟨k', hy⟩ := h'.outer
  obtain ⟨o, ho, place⟩ := view_some.mp hr
  obtain ⟨q, hq, place'⟩ := view_some.mp hy
  rcases h.lies.total h'.lies with lies | lies
  · exact (Region.root_lies ho (congrArg Prod.snd place) lies hq).symm
  · exact Region.root_lies hq (congrArg Prod.snd place') lies ho

theorem Top.inner (h : Top d x r) (own : Region.Owned d.ops c x) : Top d c r := ⟨h.lies.head own, h.outer⟩

theorem top_exists (hd : WellFormed d) (hx : d.op? x = some o) : ∃ r, Top d x r := by
  have steps : ∀ (n : Nat) (x : Int) (o : Operation), d.op? x = some o → x.toNat < n → ∃ r, Top d x r := by
    intro n
    induction n with
    | zero => exact fun _ _ _ h => absurd h (Nat.not_lt_zero _)
    | succ n ih =>
      intro x o hx lt
      by_cases e : o.owner = absent
      · refine ⟨x, .refl, o.kind, ?_⟩
        rw [Design.place?, view_of _ hx, Operation.place, e]
      · obtain ⟨p, hp, -⟩ := hd.mem_children hx e
        have older := hd.nesting.older hx
        have lower := (Int.toNat_lt_toNat (Int.lt_of_le_of_lt (at?_lt hp).1 older)).mpr older
        obtain ⟨r, hr⟩ := ih o.owner p hp (Nat.lt_of_lt_of_le lower (Nat.le_of_lt_succ lt))
        exact ⟨r, hr.inner ⟨o, hx, rfl⟩⟩
  exact steps _ x o hx (Nat.lt_succ_self _)

def Inner (d : Design) (x y : Int) : Prop := ∃ r s : Int, Top d x r ∧ Top d y s ∧ (s < r ∨ s = r ∧ x < y)

theorem Inner.trans (h : Inner d x y) (h' : Inner d y z) : Inner d x z := by
  obtain ⟨r, s, hx, hy, lt⟩ := h
  obtain ⟨s', u, hy', hz, lt'⟩ := h'
  cases hy.unique hy'
  exact ⟨r, u, hx, hz, by omega⟩

theorem Inner.irrefl : ¬ Inner d x x := by
  rintro ⟨r, s, hx, hy, lt⟩
  cases hx.unique hy
  omega

theorem inner_child (hd : WellFormed d) (hx : d.op? x = some o) (hc : c ∈ o.children) : Inner d x c := by
  obtain ⟨r, hr⟩ := top_exists hd hx
  obtain ⟨k, hk, own⟩ := hd.child hx hc
  exact ⟨r, r, hr, hr.inner ⟨k, hk, own⟩, .inr ⟨rfl, own ▸ hd.nesting.older hk⟩⟩

theorem Orderly.inner_called (hd : Orderly d) (hx : d.op? x = some o) (call : o.kind = .taskCall)
    (hb : d.op? o.body = some b) (hc : c ∈ b.children) : Inner d x c := by
  obtain ⟨k, r, place, top, lt⟩ := (hd.tidy.whole hx).call call
  obtain ⟨q, hq, own⟩ := hd.wf.child hb hc
  obtain ⟨call, hcall, outer⟩ := hd.shaped.calls (view_of _ hx) call (ne_absent hb)
  have same : call = k := by
    have e := hcall.symm.trans place
    exact congrArg Prod.snd (Option.some.inj e)
  subst same
  obtain ⟨b', hb', eb⟩ := view_some.mp place
  have body : Region.Owned d.ops o.body call := ⟨b', hb', congrArg Prod.snd eb⟩
  exact ⟨r, call, top, ⟨(Relation.ReflTransGen.single body).head ⟨q, hq, own⟩, _, outer⟩, .inl lt⟩

/-- A walk may go from the first operation to the second: to what it owns, or to what the block of the task
that it calls owns. -/
def Enters (d : Design) (x y : OpId) : Prop :=
  ∃ o, d.op? x = some o ∧ (y ∈ o.children ∨ o.kind = .taskCall ∧ ∃ b, d.op? o.body = some b ∧ y ∈ b.children)

def Descends (d : Design) : Prop := ∀ x, ¬ Relation.TransGen (Enters d) x x

theorem Orderly.descends (hd : Orderly d) : Descends d := by
  have inner : ∀ {x y}, Enters d x y → Inner d x y := by
    rintro x y ⟨o, ho, hy | ⟨call, b, hb, hy⟩⟩
    · exact inner_child hd.wf ho hy
    · exact hd.inner_called ho call hb hy
  have far : ∀ {x y}, Relation.TransGen (Enters d) x y → Inner d x y := by
    intro x y path
    induction path with
    | single step => exact inner step
    | tail _ step ih => exact ih.trans (inner step)
  exact fun x path => Inner.irrefl (far path)

open Classical in
/-- How many operations the steps of a relation lead to, the one they start from included. -/
noncomputable def Design.reach (d : Design) (r : OpId → OpId → Prop) (x : OpId) : Nat :=
  ((Finset.range d.ops.size).filter fun j : Nat => Relation.ReflTransGen r x j).card

noncomputable def Design.room (d : Design) : OpId → Nat := d.reach (Enters d)

theorem reach_le (d : Design) (r : OpId → OpId → Prop) (x : OpId) : d.reach r x ≤ d.ops.size := by
  classical
  have := Finset.card_filter_le (Finset.range d.ops.size) fun j : Nat => Relation.ReflTransGen r x j
  rwa [Finset.card_range] at this

theorem reach_lt (hx : d.op? x = some o) (once : ¬ Relation.TransGen r x x) (path : Relation.TransGen r x y) :
    d.reach r y < d.reach r x := by
  classical
  apply Finset.card_lt_card
  have bound := at?_lt hx
  have cast : ((x.toNat : Nat) : Int) = x := Int.toNat_of_nonneg bound.1
  refine Finset.ssubset_iff_of_subset ?_ |>.mpr ⟨x.toNat, ?_, ?_⟩
  · intro j hj
    obtain ⟨hj, rest⟩ := Finset.mem_filter.mp hj
    exact Finset.mem_filter.mpr ⟨hj, path.to_reflTransGen.trans rest⟩
  · refine Finset.mem_filter.mpr ⟨Finset.mem_range.mpr (by omega), ?_⟩
    rw [cast]
  · intro hj
    have back := (Finset.mem_filter.mp hj).2
    rw [cast] at back
    exact once (path.trans_left back)

theorem room_le (d : Design) (x : OpId) : d.room x < d.ops.size + 1 := Nat.lt_succ_of_le (reach_le ..)

theorem enters_op (hd : WellFormed d) (path : Relation.TransGen (Enters d) x y) : ∃ o, d.op? y = some o := by
  obtain ⟨_, -, o, ho, hy | ⟨-, b, hb, hy⟩⟩ := Relation.TransGen.tail'_iff.mp path
  · exact (hd.child ho hy).imp fun _ => And.left
  · exact (hd.child hb hy).imp fun _ => And.left

theorem enters_room_lt (down : Descends d) (path : Relation.TransGen (Enters d) x y) : d.room y < d.room x := by
  obtain ⟨_, ⟨o, ho, -⟩, -⟩ := Relation.TransGen.head'_iff.mp path
  exact reach_lt ho (down x) path

end Datapath
