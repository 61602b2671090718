import Datapath.Proofs.Enclosure

/-!
# Where the last accessors of a resource lie

The last accessors of a resource have to lie in one child of the context. A walk notes more than one only
where a branch ends. Either nothing was noted before, and the first accessors are the same ones; or some
first accessor lies outside the sides, and a block that owns them all has the whole branch in one child.
-/

namespace Datapath

open List

variable {d : Design}

namespace Region

/-! ## Where notes lie -/

def Accessor (d : Design) (x : OpId) : Prop :=
  ∃ o, d.op? x = some o ∧ (o.kind.isAccess = true ∨ o.kind = .taskCall)

/-- What is noted alone lies in itself, what is noted together in the sides of a branch. -/
inductive Note.Home (d : Design) (n : Note) : List OpId → Prop where
  | alone {x : OpId} (h : n.ops = [x]) : n.Home d [x]
  | sides {op : OpId} {o : Operation} (ho : d.op? op = some o) (hk : o.kind = .branch) (forks : o.stem.Forks d op)
    (lies : ∀ x ∈ n.ops, ∃ k ∈ [o.trueSide, o.falseSide], Lies d.ops x k) : n.Home d [o.trueSide, o.falseSide]

structure Note.Within (d : Design) (ids : List OpId) (n : Note) : Prop where
  some : n.ops ≠ []
  accessors : ∀ x ∈ n.ops, Accessor d x
  home : ∃ ks, n.Home d ks ∧ ∀ k ∈ ks, ∃ c ∈ ids, Lies d.ops k c

/-- Nothing in the first note lies where the second one does. -/
def Note.Apart (d : Design) (m n : Note) : Prop := ∃ ks, n.Home d ks ∧ ∀ x ∈ m.ops, ∀ k ∈ ks, ¬ Lies d.ops x k

structure Spread (d : Design) (ids : List OpId) (ns : List Note) : Prop where
  within : ∀ n ∈ ns, n.Within d ids
  apart : ns.Pairwise (Note.Apart d)

section
variable {n : Note}

theorem Note.Home.lies (h : n.Home d ks) (hx : x ∈ n.ops) : ∃ k ∈ ks, Lies d.ops x k := by
  cases h with
  | alone one =>
    rw [one] at hx
    exact ⟨_, mem_cons_self, mem_singleton.mp hx ▸ .refl⟩
  | sides _ _ _ lies => exact lies x hx

theorem Note.Within.lies (h : n.Within d ids) (hx : x ∈ n.ops) : ∃ c ∈ ids, Lies d.ops x c := by
  obtain ⟨ks, home, inside⟩ := h.home
  obtain ⟨k, hk, lies⟩ := home.lies hx
  exact (inside k hk).imp fun _ => And.imp_right lies.trans

theorem Note.Within.mono (h : n.Within d ids) (inside : ∀ c ∈ ids, ∃ k ∈ cs, Lies d.ops c k) : n.Within d cs := by
  refine ⟨h.some, h.accessors, h.home.imp fun ks ⟨home, all⟩ => ⟨home, fun k hk => ?_⟩⟩
  obtain ⟨c, hc, lies⟩ := all k hk
  exact (inside c hc).imp fun _ => And.imp_right lies.trans

theorem Note.Apart.not_mem {m : Note} (h : m.Apart d n) (hx : x ∈ m.ops) : x ∉ n.ops := by
  obtain ⟨ks, home, apart⟩ := h
  intro hx'
  obtain ⟨k, hk, lies⟩ := home.lies hx'
  exact apart x hx k hk lies

theorem Spread.nil (d : Design) (ids : List OpId) : Spread d ids [] := ⟨nofun, .nil⟩

theorem Spread.single (h : n.Within d ids) : Spread d ids [n] := ⟨by simpa using h, pairwise_singleton ..⟩

theorem Spread.alone (accessor : Accessor d op) : Spread d [op] [⟨[op], accesses, false⟩] :=
  .single ⟨by simp, by simpa using accessor, [op], .alone rfl, by simpa using .refl⟩

theorem Spread.append (h : Spread d ids ns) (h' : Spread d cs ms)
    (apart : ∀ c ∈ ids, ∀ k ∈ cs, ∀ x, Lies d.ops x c → ¬ Lies d.ops x k) : Spread d (ids ++ cs) (ns ++ ms) where
  within := forall_mem_append.mpr
    ⟨fun n hn => (h.within n hn).mono fun c hc => ⟨c, mem_append_left _ hc, .refl⟩,
      fun n hn => (h'.within n hn).mono fun c hc => ⟨c, mem_append_right _ hc, .refl⟩⟩
  apart := pairwise_append.mpr ⟨h.apart, h'.apart, fun m hm n hn => by
    obtain ⟨ks, home, inside⟩ := (h'.within n hn).home
    refine ⟨ks, home, fun x hx k hk lies => ?_⟩
    obtain ⟨c, hc, below⟩ := (h.within m hm).lies hx
    obtain ⟨c', hc', above⟩ := inside k hk
    exact apart c hc c' hc' x below (lies.trans above)⟩

theorem Spread.module (h : Spread d ids ns) (owned : ∀ c ∈ ids, Owned d.ops c op) : Spread d [op] ns :=
  ⟨fun n hn => (h.within n hn).mono fun c hc => ⟨op, mem_cons_self, .single (owned c hc)⟩, h.apart⟩

theorem mem_following (h : x ∈ following d ns) : ∃ n ∈ ns, x ∈ n.ops := by
  induction ns with
  | nil => cases h
  | cons n ns ih =>
    rw [following_cons] at h
    split at h
    · rcases mem_append.mp h with h | h
      · exact ⟨n, mem_cons_self, h⟩
      · exact (ih h).imp fun _ => And.imp_left (mem_cons_of_mem _)
    · split at h
      · exact ⟨n, mem_cons_self, h⟩
      · cases h

theorem mem_leading (h : x ∈ leading d ns) : ∃ n ∈ ns, x ∈ n.ops := by
  cases ns with
  | nil => cases h
  | cons n ns =>
    rcases mem_append.mp h with h | h
    · exact ⟨n, mem_cons_self, h⟩
    · split at h
      · exact (mem_following h).imp fun _ => And.imp_left (mem_cons_of_mem _)
      · cases h

theorem mem_closing (h : x ∈ closing ns) : ∃ n ∈ ns, x ∈ n.ops := by
  obtain ⟨n, hn, hx⟩ := mem_flatMap.mp h
  exact ⟨n, mem_of_getLast? (Option.mem_toList.mp hn), hx⟩

theorem mem_ends (h : x ∈ leading d ns ++ closing ns) : ∃ n ∈ ns, x ∈ n.ops :=
  (mem_append.mp h).elim mem_leading mem_closing

theorem Spread.leading_ne_nil (h : Spread d ids ns) (ne : ns ≠ []) : leading d ns ≠ [] := by
  cases ns with
  | nil => exact absurd rfl ne
  | cons n ns => exact append_ne_nil_of_left_ne_nil (h.within n mem_cons_self).some _

theorem Spread.noteSides (ho : d.op? op = some o) (hk : o.kind = .branch) (forks : o.stem.Forks d op)
    (h : Spread d [o.trueSide] ns) (h' : Spread d [o.falseSide] ms) :
    Spread d [o.trueSide, o.falseSide] (noteSides d ns ms) := by
  unfold Region.noteSides
  split
  · exact .nil d _
  next found =>
    have inside : ∀ x ∈ leading d ns ++ closing ns ++ (leading d ms ++ closing ms),
        Accessor d x ∧ ∃ k ∈ [o.trueSide, o.falseSide], Lies d.ops x k := by
      intro x hx
      rcases mem_append.mp hx with hx | hx
      · obtain ⟨n, hn, hx⟩ := mem_ends hx
        obtain ⟨k, hk, lies⟩ := (h.within n hn).lies hx
        exact ⟨(h.within n hn).accessors x hx, k, by simp [mem_singleton.mp hk], lies⟩
      · obtain ⟨n, hn, hx⟩ := mem_ends hx
        obtain ⟨k, hk, lies⟩ := (h'.within n hn).lies hx
        exact ⟨(h'.within n hn).accessors x hx, k, by simp [mem_singleton.mp hk], lies⟩
    refine .single ⟨?_, fun x hx => (inside x hx).1, _, .sides ho hk forks fun x hx => (inside x hx).2,
      fun k hk => ⟨k, hk, .refl⟩⟩
    have := h.leading_ne_nil
    have := h'.leading_ne_nil
    simp only [Bool.and_eq_true, List.isEmpty_iff, not_and_or] at found
    simp only [ne_eq, append_eq_nil_iff]
    tauto

section
variable (hd : WellFormed d)
include hd

theorem Annotates.named (h : Annotates d r ids ns) (none : at? d.resources r = none) : ns = [] := by
  induction h with
  | nil => rfl
  | access ho _ named _ ih =>
    rw [ih, append_nil, if_neg]
    rintro rfl
    obtain ⟨p, hp⟩ := hd.accessed ho named
    cases none.symm.trans hp
  | branch _ _ _ _ _ _ _ ih1 ih2 ih3 ih4 =>
    rw [ih1, ih2, ih3, ih4]
    rfl
  | call _ _ _ _ _ _ ih1 ih2 | module _ _ _ _ _ _ ih1 ih2 =>
    rw [ih1, ih2]
    rfl
  | leaf _ _ _ _ _ ih => exact ih

theorem siblings_of_order (h : (d.order op).run = .ok (.ok cs)) : Siblings d.ops op cs := by
  obtain ⟨o, ho, perm⟩ := order_ok h
  exact ⟨perm.nodup_iff.mpr (hd.children_nodup ho), fun c hc => hd.child ho (perm.mem_iff.mp hc)⟩

theorem Spread.cons (sib : Siblings d.ops k (op :: ids)) (h : Spread d [op] ns) (h' : Spread d ids ms) :
    Spread d (op :: ids) (ns ++ ms) := by
  refine h.append h' fun c hc k hk x lies => ?_
  cases mem_singleton.mp hc
  exact sib.apart hd.nesting hk lies

theorem Annotates.spread (h : Annotates d r ids ns) (sib : Siblings d.ops k ids) : Spread d ids ns := by
  induction h generalizing k with
  | nil => exact .nil d []
  | access ho hk _ _ ih =>
    refine .cons hd sib ?_ (ih sib.tail)
    split
    · exact .alone ⟨_, ho, .inl hk⟩
    · exact .nil d _
  | branch ho hk forks _ _ _ _ ih1 ih2 ih3 ih4 =>
    have only : ∀ {c kind m}, d.place? c = some (kind, m) → Siblings d.ops m [c] := fun place =>
      ⟨nodup_singleton _, by simpa using owned_of_place place⟩
    have sides := Spread.noteSides ho hk forks (ih2 (only forks.trueSide)) (ih3 (only forks.falseSide))
    have parts := siblings_of_forks forks
    exact .cons hd sib (Spread.module (.cons hd parts (ih1 (only forks.decision)) sides) parts.owned) (ih4 sib.tail)
  | call ho hk _ _ _ _ _ ih =>
    refine .cons hd sib ?_ (ih sib.tail)
    unfold noteCall
    split
    · exact .nil d _
    · exact .alone ⟨_, ho, .inr hk⟩
  | module _ _ _ order _ _ ih1 ih2 =>
    have children := siblings_of_order hd order
    exact .cons hd sib ((ih1 children).module children.owned) (ih2 sib.tail)
  | leaf _ _ _ _ _ ih => exact .cons hd sib (.nil d _) (ih sib.tail)

/-! ## The last note -/

theorem beneath_branch (ho : d.op? op = some o) (hk : o.kind = .branch) (hside : Owned d.ops side op)
    (hb : d.op? block = some b) (kind : b.kind = .block) (hx : Lies d.ops x side) (xin : Beneath d.ops x block)
    (hf : ¬ Lies d.ops f side) (fin : Beneath d.ops f block) : Beneath d.ops op block := by
  have ne : block ≠ op := by
    rintro rfl
    cases hb.symm.trans ho
    rw [hk] at kind
    cases kind
  have strict : ∀ {a c}, Lies d.ops a c → a ≠ c → Beneath d.ops a c := fun lies ne =>
    (Relation.reflTransGen_iff_eq_or_transGen.mp lies).resolve_left ne.symm
  rcases Lies.total xin.to_reflTransGen (hx.tail hside) with lies | lies
  -- a block in the branch lies in one of its sides
  · have inner := Lies.around hd.nesting hside (strict lies ne) hx xin
    exact absurd (fin.to_reflTransGen.trans inner) hf
  · exact strict lies ne.symm

theorem Spread.gathered (h : Spread d ids ns) : (∀ x, x ∈ leading d ns ↔ x ∈ closing ns) ∨
    ∀ ⦃block b⦄, d.op? block = some b → b.kind = .block →
      (∀ x ∈ leading d ns ++ closing ns, Beneath d.ops x block) →
      ∃ c, Owned d.ops c block ∧ ∀ x ∈ closing ns, Lies d.ops x c := by
  rcases eq_nil_or_concat' ns with rfl | ⟨before, n, rfl⟩
  · exact .inl fun x => by simp [leading, closing]
  rw [closing_append]
  cases before with
  | nil => exact .inl fun x => by simp [leading, following]
  | cons m rest =>
    refine .inr fun block b hb kind owns => ?_
    obtain ⟨ks, home, apart⟩ : m.Apart d n := rel_of_pairwise_cons h.apart (by simp)
    have last : ∀ x ∈ n.ops, Beneath d.ops x block := fun x hx => owns x (mem_append_right _ hx)
    cases home with
    | alone one =>
      rw [one] at last ⊢
      obtain ⟨c, lies, owned⟩ := Relation.TransGen.tail'_iff.mp (last _ mem_cons_self)
      exact ⟨c, owned, by simpa using lies⟩
    | @sides op o ho hk forks lies =>
      obtain ⟨f, hf⟩ := exists_mem_of_ne_nil _ (h.within m mem_cons_self).some
      obtain ⟨x, hx⟩ := exists_mem_of_ne_nil _ (h.within n (by simp)).some
      have owned : ∀ k ∈ [o.trueSide, o.falseSide], Owned d.ops k op := fun k hk =>
        (siblings_of_forks forks).owned k (mem_cons_of_mem _ hk)
      obtain ⟨side, hside, below⟩ := lies x hx
      have whole := beneath_branch hd ho hk (owned side hside) hb kind below (last x hx) (apart f hf side hside)
        (owns f (mem_append_left _ (mem_append_left _ hf)))
      obtain ⟨c, above, owned'⟩ := Relation.TransGen.tail'_iff.mp whole
      refine ⟨c, owned', fun y hy => ?_⟩
      obtain ⟨side, hside, below⟩ := lies y hy
      exact (below.tail (owned side hside)).trans above

end

end

/-- What the walk through a module has found of a resource. -/
structure Fair (d : Design) (m : OpId) (a : Accessors) : Prop where
  named : ∃ p, at? d.resources a.resource = some p
  first : a.first ≠ []
  accessors : ∀ x ∈ a.first ++ a.last, Accessor d x ∧ Beneath d.ops x m
  gathered : a.first.Perm a.last ∨ ∀ ⦃block b⦄, d.op? block = some b → b.kind = .block →
    (∀ x ∈ a.first ++ a.last, Beneath d.ops x block) → ∃ c, Owned d.ops c block ∧ ∀ x ∈ a.last, Lies d.ops x c

theorem children_fair (hd : WellFormed d) (hs : Shaped d)
    (h : ((children d (visit d n) op).run {}).run = .ok (.ok ((), log))) (ha : log.find? r = some a) :
    Fair d op a := by
  obtain ⟨cs, ns, order, -, noted, records⟩ := children_records (visit_keepsRecords hd hs r n) h
  have sib := siblings_of_order hd order
  have spread := noted.spread hd sib
  have ne : ns ≠ [] := fun e => by
    rw [records.found.mpr e] at ha
    cases ha
  obtain ⟨once, first⟩ := records.first ha
  obtain ⟨once', last⟩ := records.last ha
  refine ⟨?_, ?_, fun x hx => ?_, spread.gathered hd |>.imp (fun same => ?_) fun gathered block b hb kind owns =>
    ?_⟩
  · rw [Log.find?_resource ha]
    exact Option.ne_none_iff_exists'.mp fun none => ne (noted.named hd none)
  · obtain ⟨x, hx⟩ := exists_mem_of_ne_nil _ (spread.leading_ne_nil ne)
    exact ne_nil_of_mem ((first x).mpr hx)
  · obtain ⟨m, hm, hx⟩ := mem_ends (mem_append.mpr ((mem_append.mp hx).imp (first x).mp (last x).mp))
    obtain ⟨c, hc, lies⟩ := (spread.within m hm).lies hx
    exact ⟨(spread.within m hm).accessors x hx, .tail' lies (sib.owned c hc)⟩
  · exact (perm_ext_iff_of_nodup once once').mpr fun x => by rw [first, last, same]
  · simp only [mem_append, first, last] at owns ⊢
    exact gathered hb kind (by simpa using owns)

end Region

end Datapath
