import Mathlib.Data.List.Sort
import Mathlib.Logic.Relation
import Datapath.Proofs.Shapes

/-!
# The trail of a walk through a task

What a walk notes of a resource are the two ends of the trail of its accessors. Modules are walked as a
whole, so the part of a trail that lies in a module is in one piece: a trail that starts and ends in a
module does not leave it.
-/

namespace Datapath

open List

variable {d : Design}

/-- What a walk opens in an operation: of a branch, the decision and the sides only. -/
def Operation.parts (o : Operation) : List OpId :=
  if o.kind = .branch then [o.decision, o.trueSide, o.falseSide] else o.inner

namespace Region

/-! ## Owners -/

def Owned (ops : Array Operation) (c m : OpId) : Prop := ∃ o, at? ops c = some o ∧ o.owner = m

abbrev Lies (ops : Array Operation) : OpId → OpId → Prop := Relation.ReflTransGen (Owned ops)

abbrev Beneath (ops : Array Operation) : OpId → OpId → Prop := Relation.TransGen (Owned ops)

section

theorem Owned.unique (h : Owned ops c a) (h' : Owned ops c b) : a = b := by
  obtain ⟨o, ho, rfl⟩ := h
  obtain ⟨o', ho', rfl⟩ := h'
  cases ho.symm.trans ho'
  rfl

theorem Lies.total (h : Lies ops x a) (h' : Lies ops x b) : Lies ops a b ∨ Lies ops b a :=
  h.total_of_right_unique (fun _ _ _ => Owned.unique) h'

variable (hn : Nesting ops)
include hn

theorem Owned.lt (h : Owned ops c m) : m < c := by
  obtain ⟨o, ho, rfl⟩ := h
  exact hn.older ho

theorem Lies.le (h : Lies ops x m) : m ≤ x := by
  induction h with
  | refl => exact Int.le_refl _
  | tail _ step ih => exact Int.le_trans (Int.le_of_lt (step.lt hn)) ih

theorem Beneath.lt (h : Beneath ops x m) : m < x := by
  obtain ⟨k, lies, step⟩ := Relation.TransGen.tail'_iff.mp h
  exact Int.lt_of_lt_of_le (step.lt hn) (Lies.le hn lies)

theorem Owned.not_above (hc : Owned ops c m) (h : Lies ops c a) (ha : m < a) : c = a := by
  rcases h.cases_head with rfl | ⟨k, step, h⟩
  · rfl
  · cases hc.unique step
    exact absurd ha (Int.not_lt.mpr (Lies.le hn h))

theorem Lies.sibling (ha : Owned ops a m) (hb : Owned ops b m) (h : Lies ops x a) (h' : Lies ops x b) : a = b := by
  rcases h.total h' with h | h
  · exact ha.not_above hn h (hb.lt hn)
  · exact (hb.not_above hn h (ha.lt hn)).symm

theorem Lies.around (hc : Owned ops c m) (ha : Beneath ops a m) (h : Lies ops x c) (h' : Beneath ops x a) :
    Lies ops a c := by
  rcases h.total h'.to_reflTransGen with h | h
  · rw [hc.not_above hn h (ha.lt hn)]
  · exact h

end

/-! ## What a walk opens -/

/-- The operation is opened by a walk through the module. -/
inductive Inhabits (d : Design) (m : OpId) : OpId → Prop where
  | part {o : Operation} {c : OpId} (hm : d.op? m = some o) (hc : c ∈ o.parts) : Inhabits d m c
  | deeper {k c : OpId} {o : Operation} (h : Inhabits d m k) (hk : d.op? k = some o) (hc : c ∈ o.parts) :
    Inhabits d m c

/-- The operation accesses the resource, or calls a task that does. -/
inductive Touches (d : Design) (r : ResId) : OpId → Prop where
  | access {x : OpId} {o : Operation} (hx : d.op? x = some o) (hk : o.kind.isAccess = true) (hr : o.resource = r) :
    Touches d r x
  | call {x y : OpId} {o : Operation} (hx : d.op? x = some o) (hk : o.kind = .taskCall) (hy : Inhabits d o.body y)
    (h : Touches d r y) : Touches d r x

theorem Touches.op (h : Touches d r x) : ∃ o, d.op? x = some o := by
  cases h with
  | access hx | call hx => exact ⟨_, hx⟩

theorem Inhabits.first (h : Inhabits d m x) : ∃ o c, d.op? m = some o ∧ c ∈ o.parts ∧ (x = c ∨ Inhabits d c x) := by
  induction h with
  | part hm hc => exact ⟨_, _, hm, hc, .inl rfl⟩
  | deeper _ hk hc ih =>
    obtain ⟨o, c, hm, hcm, rfl | h⟩ := ih
    · exact ⟨o, _, hm, hcm, .inr (.part hk hc)⟩
    · exact ⟨o, c, hm, hcm, .inr (.deeper h hk hc)⟩

theorem Inhabits.of_part (hm : d.op? m = some o) (hc : c ∈ o.parts) (h : x = c ∨ Inhabits d c x) :
    Inhabits d m x := by
  rcases h with rfl | h
  · exact .part hm hc
  · induction h with
    | part hk hx => exact .deeper (.part hm hc) hk hx
    | deeper _ hk hx ih => exact .deeper ih hk hx

theorem not_inhabits (hm : d.op? m = some o) (h : o.parts = []) : ¬ Inhabits d m x := by
  intro hx
  obtain ⟨o', c, hm', hc, -⟩ := hx.first
  cases hm.symm.trans hm'
  rw [h] at hc
  cases hc

theorem not_access {kind : Kind} (h : kind.isInlineModule = true) : kind.isAccess = false := by
  cases kind <;> simp_all [Kind.isInlineModule, Kind.isModule, Kind.isAccess, Kind.isRead, Kind.isWrite]

theorem parts_of_leaf {o : Operation} (h : o.kind.isInlineModule = false) : o.parts = [] := by
  unfold Operation.parts Operation.inner
  have : o.kind ≠ .branch := by
    intro e
    rw [e] at h
    cases h
  rw [if_neg this, h]
  rfl

theorem parts_of_module {o : Operation} (h : o.kind.isInlineModule = true) (hb : o.kind ≠ .branch) :
  o.parts = o.children := by
  unfold Operation.parts Operation.inner
  rw [if_neg hb, if_pos h]

theorem parts_of_branch {o : Operation} (h : o.kind = .branch) : o.parts = [o.decision, o.trueSide, o.falseSide] :=
  if_pos h

theorem owned_of_place (h : d.place? c = some (kind, m)) : Owned d.ops c m := by
  obtain ⟨q, hq, e⟩ := view_some.mp h
  exact ⟨q, hq, congrArg Prod.snd e⟩

section
variable (hd : WellFormed d) (hs : Shaped d)
include hd hs

theorem owned_part (hm : d.op? m = some o) (hc : c ∈ o.parts) (hk : d.op? c = some k) : Owned d.ops c m := by
  by_cases hb : o.kind = .branch
  · have ne : c ≠ absent := by
      intro e
      rw [e] at hk
      exact absurd (at?_lt hk).1 (by decide)
    rw [parts_of_branch hb] at hc
    rcases (hs.ops (view_of _ hm)).forks hb with ⟨h1, h2, h3⟩ | f
    · simp only [mem_cons, not_mem_nil, or_false] at hc
      rcases hc with rfl | rfl | rfl
      · exact absurd h1 ne
      · exact absurd h2 ne
      · exact absurd h3 ne
    · simp only [mem_cons, not_mem_nil, or_false] at hc
      rcases hc with rfl | rfl | rfl
      · exact owned_of_place f.decision
      · exact owned_of_place f.trueSide
      · exact owned_of_place f.falseSide
  · unfold Operation.parts Operation.inner at hc
    rw [if_neg hb] at hc
    split at hc
    · exact hd.child hm hc
    · cases hc

theorem Inhabits.beneath (h : Inhabits d m x) (hx : d.op? x = some k) : Beneath d.ops x m := by
  induction h generalizing k with
  | part hm hc => exact .single (owned_part hd hs hm hc hx)
  | deeper _ ho hc ih => exact .head (owned_part hd hs ho hc hx) (ih ho)

end

/-! ## Trails -/

inductive Ordered (d : Design) (m : OpId) : List OpId → Prop where
  | branch {o : Operation} (hm : d.op? m = some o) (hk : o.kind = .branch) :
    Ordered d m [o.decision, o.trueSide, o.falseSide]
  | other {o : Operation} {ids : List OpId} (hm : d.op? m = some o) (hk : o.kind.isInlineModule = true)
    (hb : o.kind ≠ .branch) (h : (d.order m).run = .ok (.ok ids)) : Ordered d m ids

inductive Tours (d : Design) (r : ResId) : List OpId → List OpId → Prop where
  | nil : Tours d r [] []
  | touch {op : OpId} {o : Operation} {cs t : List OpId} (ho : d.op? op = some o) (hp : o.parts = [])
    (h : Touches d r op) (rest : Tours d r cs t) : Tours d r (op :: cs) (op :: t)
  | skip {op : OpId} {o : Operation} {cs t : List OpId} (ho : d.op? op = some o) (hp : o.parts = [])
    (h : ¬ Touches d r op) (rest : Tours d r cs t) : Tours d r (op :: cs) t
  | module {op : OpId} {ids cs u t : List OpId} (order : Ordered d op ids) (inner : Tours d r ids u)
    (rest : Tours d r cs t) : Tours d r (op :: cs) (u ++ t)

structure Siblings (ops : Array Operation) (m : OpId) (ids : List OpId) : Prop where
  nodup : ids.Nodup
  owned : ∀ c ∈ ids, Owned ops c m

section
variable (h : Siblings ops m (op :: cs))
include h

theorem Siblings.tail : Siblings ops m cs :=
  ⟨(nodup_cons.mp h.nodup).2, fun c hc => h.owned c (mem_cons_of_mem _ hc)⟩

theorem Siblings.idxOf (hc : c ∈ cs) : (op :: cs).idxOf c = cs.idxOf c + 1 := by
  apply idxOf_cons_ne
  intro e
  exact (nodup_cons.mp h.nodup).1 (e ▸ hc)

theorem Siblings.apart (hn : Nesting ops) (hc : c ∈ cs) (hx : Lies ops x op) : ¬ Lies ops x c := by
  intro hx'
  have same := Lies.sibling hn (h.owned op mem_cons_self) (h.owned c (mem_cons_of_mem _ hc)) hx hx'
  exact (nodup_cons.mp h.nodup).1 (same ▸ hc)

end

theorem siblings_of_forks {o : Operation} (f : o.stem.Forks d m) : Siblings d.ops m [o.decision, o.trueSide,
  o.falseSide] := by
  have apart : ∀ {a b}, d.place? a = some (.decision, m) → d.place? b = some (.block, m) → a ≠ b := by
    intro a b ha hb e
    rw [e, hb] at ha
    cases ha
  constructor
  · simp only [nodup_cons, mem_cons, not_mem_nil, not_or, not_false_eq_true,
      nodup_nil, and_true]
    exact ⟨⟨apart f.decision f.trueSide, apart f.decision f.falseSide⟩, f.sides⟩
  · simp only [forall_mem_cons]
    exact ⟨owned_of_place f.decision, owned_of_place f.trueSide, owned_of_place f.falseSide, by simp⟩

section

theorem Ordered.parts (h : Ordered d m ids) :
    ∃ o, d.op? m = some o ∧ o.kind.isInlineModule = true ∧ ids.Perm o.parts := by
  cases h with
  | branch hm hk => exact ⟨_, hm, by rw [hk]; rfl, by rw [parts_of_branch hk]⟩
  | other hm hk hb h =>
    obtain ⟨o', hm', perm⟩ := order_ok h
    cases hm.symm.trans hm'
    exact ⟨_, hm, hk, by rw [parts_of_module hk hb]; exact perm⟩

section
variable (h : Tours d r ids t)
include h

theorem Tours.append (h' : Tours d r cs u) : Tours d r (ids ++ cs) (t ++ u) := by
  induction h with
  | nil => exact h'
  | touch ho hp h _ ih => exact .touch ho hp h ih
  | skip ho hp h _ ih => exact .skip ho hp h ih
  | module order inner _ _ ih =>
    rw [append_assoc]
    exact .module order inner ih

theorem Tours.op (hc : c ∈ ids) : ∃ o, d.op? c = some o := by
  induction h with
  | nil => cases hc
  | touch ho _ _ _ ih | skip ho _ _ _ ih =>
    rcases mem_cons.mp hc with rfl | hc
    · exact ⟨_, ho⟩
    · exact ih hc
  | module order _ _ _ ih =>
    rcases mem_cons.mp hc with rfl | hc
    · obtain ⟨o, ho, -⟩ := order.parts
      exact ⟨o, ho⟩
    · exact ih hc

theorem Tours.sound (hx : x ∈ t) : Touches d r x ∧ ∃ c ∈ ids, x = c ∨ Inhabits d c x := by
  induction h with
  | nil => cases hx
  | touch _ _ h _ ih =>
    rcases mem_cons.mp hx with rfl | hx
    · exact ⟨h, _, mem_cons_self, .inl rfl⟩
    · obtain ⟨ht, c, hc, h⟩ := ih hx
      exact ⟨ht, c, mem_cons_of_mem _ hc, h⟩
  | skip _ _ _ _ ih =>
    obtain ⟨ht, c, hc, h⟩ := ih hx
    exact ⟨ht, c, mem_cons_of_mem _ hc, h⟩
  | module order _ _ ih1 ih2 =>
    rcases mem_append.mp hx with hx | hx
    · obtain ⟨ht, c, hc, h⟩ := ih1 hx
      obtain ⟨o, ho, -, perm⟩ := order.parts
      exact ⟨ht, _, mem_cons_self, .inr (.of_part ho (perm.mem_iff.mp hc) h)⟩
    · obtain ⟨ht, c, hc, h⟩ := ih2 hx
      exact ⟨ht, c, mem_cons_of_mem _ hc, h⟩

theorem Tours.complete (hx : Touches d r x) (hc : c ∈ ids) (hxc : x = c ∨ Inhabits d c x) : x ∈ t := by
  induction h generalizing c with
  | nil => cases hc
  | touch ho hp _ _ ih =>
    rcases mem_cons.mp hc with rfl | hc
    · rcases hxc with rfl | hxc
      · exact mem_cons_self
      · exact absurd hxc (not_inhabits ho hp)
    · exact mem_cons_of_mem _ (ih hc hxc)
  | skip ho hp hn _ ih =>
    rcases mem_cons.mp hc with rfl | hc
    · rcases hxc with rfl | hxc
      · exact absurd hx hn
      · exact absurd hxc (not_inhabits ho hp)
    · exact ih hc hxc
  | module order _ _ ih1 ih2 =>
    rcases mem_cons.mp hc with rfl | hc
    · obtain ⟨o, ho, hk, perm⟩ := order.parts
      rcases hxc with rfl | hxc
      -- a module touches nothing by itself
      · cases hx with
        | access hx ha =>
          cases ho.symm.trans hx
          rw [not_access hk] at ha
          cases ha
        | call hx ht =>
          cases ho.symm.trans hx
          rw [ht] at hk
          cases hk
      · obtain ⟨o', a, ho', ha, h⟩ := hxc.first
        cases ho.symm.trans ho'
        exact mem_append_left _ (ih1 (perm.mem_iff.mpr ha) h)
    · exact mem_append_right _ (ih2 hc hxc)

end

variable (hd : WellFormed d) (hs : Shaped d)
include hd hs

theorem Tours.lies (h : Tours d r ids t) (hx : x ∈ t) : ∃ c ∈ ids, Lies d.ops x c := by
  obtain ⟨touches, c, hc, rfl | inside⟩ := h.sound hx
  · exact ⟨_, hc, .refl⟩
  · obtain ⟨o, ho⟩ := touches.op
    exact ⟨c, hc, (inside.beneath hd hs ho).to_reflTransGen⟩

theorem Ordered.siblings (h : Ordered d m ids) (inner : Tours d r ids t) : Siblings d.ops m ids := by
  obtain ⟨o, ho, -, perm⟩ := h.parts
  refine ⟨?_, fun c hc => ?_⟩
  · cases h with
    | @branch p hm hk =>
      obtain ⟨q, hq⟩ := inner.op mem_cons_self
      rcases (hs.ops (view_of _ hm)).forks hk with ⟨e, -⟩ | f
      · rw [show p.decision = absent from e] at hq
        exact absurd (at?_lt hq).1 (by decide)
      · exact (siblings_of_forks f).nodup
    | other hm hk hb h =>
      obtain ⟨o', hm', perm⟩ := order_ok h
      exact perm.nodup_iff.mpr (hd.children_nodup hm')
  · obtain ⟨k, hk⟩ := inner.op hc
    exact owned_part hd hs ho (perm.mem_iff.mp hc) hk

theorem Tours.narrow (h : Tours d r ids t) (sib : Siblings d.ops m ids) (hm : Beneath d.ops block m)
    (ha : t.head? = some a) (hb : t.getLast? = some b) (ina : Beneath d.ops a block) (inb : Beneath d.ops b block) :
    ∃ ids', Ordered d block ids' ∧ Tours d r ids' t := by
  induction h generalizing m with
  | nil => cases ha
  | touch _ _ _ _ _ =>
    cases ha
    have around := Lies.around hd.nesting (sib.owned _ mem_cons_self) hm .refl ina
    exact absurd (ina.lt hd.nesting) (Int.not_lt.mpr (Lies.le hd.nesting around))
  | skip _ _ _ _ ih =>
    exact ih sib.tail hm ha hb
  | @module op ids cs u t order inner rest ih1 ih2 =>
    by_cases hu : u = []
    · subst hu
      exact ih2 sib.tail hm ha hb
    have sib' := order.siblings hd hs inner
    have owned := sib.owned op mem_cons_self
    rw [head?_append_of_ne_nil _ hu] at ha
    obtain ⟨c, hc, lies⟩ := inner.lies hd hs (mem_of_mem_head? ha)
    have around := Lies.around hd.nesting owned hm (lies.tail (sib'.owned c hc)) ina
    -- the rest is empty, as the block lies in one child only
    have ht : t = [] := by
      by_contra hne
      rw [getLast?_append_of_ne_nil _ hne] at hb
      obtain ⟨c', hc', lies'⟩ := rest.lies hd hs (mem_of_getLast? hb)
      have owned' := sib.owned c' (mem_cons_of_mem _ hc')
      have := Lies.sibling hd.nesting owned owned' around (Lies.around hd.nesting owned' hm lies' inb)
      exact (nodup_cons.mp sib.nodup).1 (this ▸ hc')
    subst ht
    rw [append_nil] at hb ⊢
    rcases Relation.reflTransGen_iff_eq_or_transGen.mp around with rfl | deeper
    · exact ⟨ids, order, inner⟩
    · exact ih1 sib' deeper ha hb

/-! ### The order of a trail -/

omit hs in
theorem Siblings.at (sib : Siblings d.ops m ids) (ha : a ∈ ids) (hc : c ∈ ids) (lies : Lies d.ops x a)
    (lies' : Lies d.ops x c) : a = c := Lies.sibling hd.nesting (sib.owned a ha) (sib.owned c hc) lies lies'

theorem Tours.uncons {op : OpId} (h : Tours d r (op :: cs) t) :
    ∃ s u, t = s ++ u ∧ Tours d r cs u ∧ ∀ x ∈ s, Lies d.ops x op := by
  cases h with
  | touch _ _ _ rest =>
    refine ⟨[op], _, rfl, rest, fun x hx => ?_⟩
    rw [mem_singleton.mp hx]
  | skip _ _ _ rest => exact ⟨[], _, rfl, rest, nofun⟩
  | module order inner rest =>
    refine ⟨_, _, rfl, rest, fun x hx => ?_⟩
    obtain ⟨c, hc, lies⟩ := inner.lies hd hs hx
    exact lies.tail ((order.siblings hd hs inner).owned c hc)

theorem Tours.before (h : Tours d r ids t) (sib : Siblings d.ops m ids) (ha : t.head? = some a) (hk : k ∈ ids)
    (hak : Lies d.ops a k) (hx : x ∈ t) (hc : c ∈ ids) (hxc : Lies d.ops x c) : ids.idxOf k ≤ ids.idxOf c := by
  induction ids generalizing t with
  | nil => cases hk
  | cons op cs ih =>
    obtain ⟨s, u, rfl, rest, lies⟩ := h.uncons hd hs
    by_cases hne : s = []
    · subst hne
      obtain ⟨k', hk', lies1⟩ := rest.lies hd hs (mem_of_mem_head? ha)
      obtain ⟨c', hc', lies2⟩ := rest.lies hd hs hx
      cases sib.at hd (mem_cons_of_mem _ hk') hk lies1 hak
      cases sib.at hd (mem_cons_of_mem _ hc') hc lies2 hxc
      rw [sib.idxOf hk', sib.idxOf hc']
      exact Nat.succ_le_succ (ih rest sib.tail ha hk' hx hc')
    · rw [head?_append_of_ne_nil _ hne] at ha
      cases sib.at hd mem_cons_self hk (lies a (mem_of_mem_head? ha)) hak
      rw [idxOf_cons_self]
      exact Nat.zero_le _

theorem Tours.after (h : Tours d r ids t) (sib : Siblings d.ops m ids) (hb : t.getLast? = some b) (hk : k ∈ ids)
    (hbk : Lies d.ops b k) (hx : x ∈ t) (hc : c ∈ ids) (hxc : Lies d.ops x c) : ids.idxOf c ≤ ids.idxOf k := by
  induction ids generalizing t with
  | nil => cases hk
  | cons op cs ih =>
    obtain ⟨s, u, rfl, rest, lies⟩ := h.uncons hd hs
    rcases mem_append.mp hx with hx | hx
    · cases sib.at hd mem_cons_self hc (lies x hx) hxc
      rw [idxOf_cons_self]
      exact Nat.zero_le _
    · rw [getLast?_append_of_ne_nil _ (ne_nil_of_mem hx)] at hb
      obtain ⟨k', hk', lies1⟩ := rest.lies hd hs (mem_of_getLast? hb)
      obtain ⟨c', hc', lies2⟩ := rest.lies hd hs hx
      cases sib.at hd (mem_cons_of_mem _ hk') hk lies1 hbk
      cases sib.at hd (mem_cons_of_mem _ hc') hc lies2 hxc
      rw [sib.idxOf hk', sib.idxOf hc']
      exact Nat.succ_le_succ (ih rest sib.tail hb hk' hx hc')

end

end Region

end Datapath
