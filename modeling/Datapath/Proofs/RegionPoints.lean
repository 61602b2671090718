import Datapath.Proofs.Identification

/-!
# Contexts and points of regions

The owners that operations share lie in each other, so the last block among them is the deepest one
that owns all operations. The accessors that a region starts with fall into groups, one for each child
of the context that some of them lie in.
-/

namespace Datapath

open List

variable {d : Design} {context : OpId}

namespace Region

/-! ## The deepest common block -/

def Houses (d : Design) (ops : List OpId) (b : OpId) : Prop :=
  (∃ o, d.op? b = some o ∧ o.kind = .block) ∧ ∀ x ∈ ops, Beneath d.ops x b

section

theorem Houses.perm (h : Houses d ops b) (perm : ops'.Perm ops) : Houses d ops' b :=
  h.imp_right fun owns x hx => owns x (perm.mem_iff.mp hx)

theorem ownersFrom_chain (h : d.ownersFrom n x = .ok os) : os.Pairwise (Lies d.ops) := by
  induction n generalizing x os with
  | zero => cases h
  | succ n ih =>
    unfold Design.ownersFrom at h
    split at h
    next =>
      cases h
      exact .nil
    next =>
      obtain ⟨o, ho, h⟩ := bind_ok.mp h
      obtain ⟨above, ha, h⟩ := bind_ok.mp h
      cases h
      exact .cons (fun m hm => .head ⟨o, op_ok ho, rfl⟩ (ownersFrom_ok ha hm)) (ih ha)

theorem commonPath_isPrefix (xs ys : List OpId) : Design.commonPath xs ys <+: xs := by
  induction xs generalizing ys with
  | nil => simp [Design.commonPath]
  | cons x xs ih =>
    cases ys with
    | nil => simp [Design.commonPath]
    | cons y ys =>
      simp only [Design.commonPath]
      split
      · exact (prefix_cons_inj x).mpr (ih ys)
      · exact nil_prefix

theorem commonPaths_isPrefix (paths : List (List OpId)) (path : List OpId) :
    paths.foldl Design.commonPath path <+: path := by
  induction paths generalizing path with
  | nil => exact prefix_refl path
  | cons p paths ih => exact (ih _).trans (commonPath_isPrefix path p)

theorem sharedOwners_chain (h : d.sharedOwners ops = .ok os) : os.Pairwise fun a b => Lies d.ops b a := by
  obtain ⟨paths, hp, h⟩ := bind_ok.mp h
  split at h
  next =>
    cases h
    exact .nil
  next path paths =>
    cases h
    obtain ⟨x, -, hx⟩ := forall₂_right (mapM_pairs hp) path mem_cons_self
    obtain ⟨own, ho, hx⟩ := bind_ok.mp hx
    cases hx
    obtain ⟨o, -, ho⟩ := bind_ok.mp ho
    exact (pairwise_reverse.mpr (ownersFrom_chain ho)).sublist (commonPaths_isPrefix paths _).sublist

theorem regionContext_deepest (h : (d.regionContext ops).run = .ok (.ok c)) (hb : Houses d ops b) :
    Lies d.ops c b := by
  obtain ⟨⟨o, ho, kind⟩, owns⟩ := hb
  unfold Design.regionContext at h
  split at h
  next => exact (reject_ok.mp h).elim
  next =>
    obtain ⟨os, hos, h⟩ := query_bind_ok.mp h
    have hos := query_lift_ok.mp hos
    dsimp only at h
    split at h
    next ctx hctx =>
      cases h
      have mem : b ∈ os.filter fun o => (d.op? o).any (·.kind == .block) :=
        mem_filter.mpr ⟨mem_sharedOwners ho (cons_ne_nil _ _) owns hos, by simp [ho, kind]⟩
      have chain :=
        (sharedOwners_chain hos).sublist (filter_sublist (p := fun o => (d.op? o).any (·.kind == .block)))
      obtain ⟨before, split⟩ := getLast?_eq_some_iff.mp hctx
      rw [split] at mem chain
      rcases mem_append.mp mem with mem | mem
      · exact (pairwise_append.mp chain).2.2 b mem _ (mem_singleton_self _)
      · rw [mem_singleton.mp mem]
    next => exact (reject_ok.mp h).elim

variable (hd : WellFormed d)
include hd

section
variable (ne : ops ≠ []) (there : ∀ x ∈ ops, ∃ o, d.op? x = some o)
include ne there

theorem regionContext_eq_iff :
    (d.regionContext ops).run = .ok (.ok c) ↔ Houses d ops c ∧ ∀ b, Houses d ops b → Lies d.ops c b := by
  constructor
  · exact fun h => ⟨regionContext_ok h, fun b => regionContext_deepest h⟩
  · rintro ⟨hc, deepest⟩
    obtain ⟨⟨o, ho, kind⟩, owns⟩ := hc
    obtain ⟨k, hk, hkc⟩ | ⟨no, -⟩ := regionContext_replies (E := False) hd there (.inr ⟨ne, c, o, ho, kind, owns⟩)
    · -- each of the two lies in the other
      have one := Lies.le hd.nesting (deepest k hkc)
      have other := Lies.le hd.nesting (regionContext_deepest hk ⟨⟨o, ho, kind⟩, owns⟩)
      rw [hk, Int.le_antisymm one other]
    · exact no.elim

theorem regionContext_error_iff : (∃ e, (d.regionContext ops).run = .ok (.error e)) ↔ ¬ ∃ b, Houses d ops b := by
  constructor
  · rintro ⟨e, he⟩ ⟨b, ⟨o, ho, kind⟩, owns⟩
    obtain ⟨k, hk, -⟩ | ⟨no, -⟩ := regionContext_replies (E := False) hd there (.inr ⟨ne, b, o, ho, kind, owns⟩)
    · cases he.symm.trans hk
    · exact no
  · intro none
    obtain ⟨k, -, hk⟩ | ⟨-, e, he⟩ := regionContext_replies (E := True) hd there (.inl trivial)
    · exact absurd ⟨k, hk⟩ none
    · exact ⟨e, he⟩

end

end

/-! ## Groups of accessors -/

/-- The operations fall into groups, one for each child of the context that some of them lie in. -/
structure Grouping (d : Design) (context : OpId) (ops : List OpId) (groups : List (OpId × List OpId)) : Prop where
  children : (groups.map Prod.fst).Nodup
  owned : ∀ g ∈ groups, Owned d.ops g.1 context
  lies : ∀ g ∈ groups, ∀ x ∈ g.2, Lies d.ops x g.1
  some : ∀ g ∈ groups, g.2 ≠ []
  sorted : ∀ g ∈ groups, g.2.Pairwise (· < ·)
  all : (groups.flatMap Prod.snd).Perm ops
  ordered : groups.Pairwise fun g h => ∃ x ∈ g.2, ∀ y ∈ h.2, x < y

section
variable {after : List (OpId × List OpId)}

theorem Grouping.nil (d : Design) (context : OpId) : Grouping d context [] [] :=
  ⟨.nil, nofun, nofun, nofun, nofun, .refl _, .nil⟩

theorem Grouping.mem (h : Grouping d context ops groups) (hg : g ∈ groups) (hx : x ∈ g.2) : x ∈ ops :=
  h.all.subset (mem_flatMap.mpr ⟨g, hg, hx⟩)

theorem Grouping.new (h : Grouping d context ops groups) (larger : ∀ x ∈ ops, x < op) (lies : Lies d.ops op c)
    (owned : Owned d.ops c context) (new : c ∉ groups.map Prod.fst) :
    Grouping d context (ops ++ [op]) (groups ++ [(c, [op])]) where
  children := by
    rw [map_append]
    refine nodup_append.mpr ⟨h.children, nodup_singleton _, fun a ha b hb e => new ?_⟩
    obtain rfl : a = c := e.trans (mem_singleton.mp hb)
    exact ha
  owned := forall_mem_append.mpr ⟨h.owned, by simpa using owned⟩
  lies := forall_mem_append.mpr ⟨h.lies, by simpa using lies⟩
  some := forall_mem_append.mpr ⟨h.some, by simp⟩
  sorted := forall_mem_append.mpr ⟨h.sorted, by simp⟩
  all := by
    rw [flatMap_append]
    exact h.all.append (by simp)
  ordered := by
    refine pairwise_append.mpr ⟨h.ordered, pairwise_singleton .., fun g hg k hk => ?_⟩
    obtain ⟨x, hx⟩ := exists_mem_of_ne_nil _ (h.some g hg)
    refine ⟨x, hx, fun y hy => ?_⟩
    cases mem_singleton.mp hk
    cases mem_singleton.mp hy
    exact larger x (h.mem hg hx)

theorem Grouping.join (h : Grouping d context ops (before ++ (c, xs) :: after))
    (larger : ∀ x ∈ ops, x < op) (lies : Lies d.ops op c) :
    Grouping d context (ops ++ [op]) (before ++ (c, xs ++ [op]) :: after) := by
  have mine : (c, xs) ∈ before ++ (c, xs) :: after := by simp
  have smaller : ∀ x ∈ xs, x < op := fun x hx => larger x (h.mem mine hx)
  -- what holds of all groups so far, and of the enlarged one
  have each : ∀ {P : OpId × List OpId → Prop}, (∀ g ∈ before ++ (c, xs) :: after, P g) → P (c, xs ++ [op]) →
      ∀ g ∈ before ++ (c, xs ++ [op]) :: after, P g := by
    intro P all new
    rw [forall_mem_append, forall_mem_cons] at all ⊢
    exact ⟨all.1, new, all.2.2⟩
  refine ⟨?_, each h.owned (h.owned (c, xs) mine), each h.lies ?_, each h.some (by simp), each h.sorted ?_, ?_, ?_⟩
  · simpa using h.children
  · rw [forall_mem_append]
    exact ⟨h.lies _ mine, by simpa using lies⟩
  · exact pairwise_append.mpr ⟨h.sorted _ mine, pairwise_singleton .., by simpa using smaller⟩
  · refine List.Perm.trans ?_ (h.all.append_right [op])
    simp only [flatMap_append, flatMap_cons, append_assoc, perm_append_left_iff]
    exact perm_append_comm
  · obtain ⟨first, rest, across⟩ := pairwise_append.mp h.ordered
    obtain ⟨mid, rest⟩ := pairwise_cons.mp rest
    refine pairwise_append.mpr ⟨first, pairwise_cons.mpr ⟨fun k hk => ?_, rest⟩, fun g hg k hk => ?_⟩
    · obtain ⟨x, hx, less⟩ := mid k hk
      exact ⟨x, mem_append_left _ hx, less⟩
    · rcases mem_cons.mp hk with rfl | hk
      · obtain ⟨x, hx, less⟩ := across g hg (c, xs) mem_cons_self
        refine ⟨x, hx, forall_mem_append.mpr ⟨less, ?_⟩⟩
        simpa using larger x (h.mem (mem_append_left _ hg) hx)
      · exact across g hg k (mem_cons_of_mem _ hk)

theorem map_group (h : ((before ++ (c, xs) :: after).map Prod.fst).Nodup) :
    ((before ++ (c, xs) :: after).map fun g => if g.1 == c then (c, g.2 ++ ys) else g) =
      before ++ (c, xs ++ ys) :: after := by
  rw [map_append, map_cons, nodup_append, nodup_cons] at h
  obtain ⟨-, ⟨out, -⟩, apart⟩ := h
  have same : ∀ {gs : List (OpId × List OpId)}, c ∉ gs.map Prod.fst →
      gs.map (fun g => if g.1 == c then (c, g.2 ++ ys) else g) = gs := by
    intro gs none
    refine (map_congr_left fun g hg => ?_).trans (map_id gs)
    have ne : g.1 ≠ c := fun e => none (e ▸ mem_map_of_mem hg)
    rw [if_neg (by simpa using ne)]
    rfl
  rw [map_append, map_cons, same out, same fun e => apart c e c mem_cons_self rfl]
  simp

theorem groupByCritical_grouping (h : (d.groupByCritical context groups ops).run = .ok (.ok found))
    (hg : Grouping d context done groups) (sorted : (done ++ ops).Pairwise (· < ·)) :
    Grouping d context (done ++ ops) found := by
  induction ops generalizing done groups with
  | nil =>
    cases h
    simpa using hg
  | cons op ops ih =>
    obtain ⟨c, hc, h⟩ := query_bind_ok.mp h
    obtain ⟨lies, owned⟩ := criticalContext_ok hc
    have larger : ∀ x ∈ done, x < op := fun x hx => (pairwise_append.mp sorted).2.2 x hx op mem_cons_self
    rw [append_cons] at sorted ⊢
    refine ih h ?_ sorted
    split
    next known =>
      obtain ⟨⟨k, xs⟩, hk, e⟩ := any_eq_true.mp known
      obtain rfl : k = c := by simpa using e
      obtain ⟨before, after, rfl⟩ := append_of_mem hk
      rw [map_group hg.children]
      exact hg.join larger lies
    next unknown =>
      refine hg.new larger lies owned fun e => unknown ?_
      obtain ⟨g, hgm, rfl⟩ := mem_map.mp e
      exact any_eq_true.mpr ⟨g, hgm, by simp⟩

end

/-! ## Consistent regions -/

/-- A point has the accessors as its candidates, in ascending order and all in one child of the
context. -/
structure Pointed (d : Design) (context : OpId) (ops : List OpId) (p : RegionPoint) : Prop where
  inside : p.context = context
  candidates : p.candidates.Perm ops
  sorted : p.candidates.Pairwise (· < ·)
  owned : Owned d.ops p.critical context
  lies : ∀ x ∈ p.candidates, Lies d.ops x p.critical

/-- A region from its first accessors to its last ones: the start points are different children of the
context, come in the order of their smallest candidates and share out the first accessors. -/
structure Consistent (d : Design) (r : ResId) (context : OpId) (start finish : List OpId) (p : Region) : Prop where
  id : p.id = d.regions.size
  resource : p.resource = r
  inside : p.context = context
  apart : (p.starts.map (·.point.critical)).Nodup
  ordered : p.starts.Pairwise fun s t => ∃ x ∈ s.point.candidates, ∀ y ∈ t.point.candidates, x < y
  some : ∀ s ∈ p.starts, s.point.candidates ≠ []
  points : ∀ s ∈ p.starts, Pointed d context s.point.candidates s.point
  parts : (p.starts.flatMap (·.point.candidates)).Perm start
  finish : Pointed d context finish p.finish

section
variable {start finish : List OpId}

theorem regionPoint_pointed {p : RegionPoint} (ne : ops ≠ []) (nodup : ops.Nodup)
    (h : (d.regionPoint ops context).run = .ok (.ok p)) : Pointed d context ops p := by
  have point := regionPoint_ok h
  obtain ⟨c, hc, h⟩ := query_bind_ok.mp h
  cases h
  obtain ⟨x, hx⟩ := exists_mem_of_ne_nil _ ne
  exact ⟨rfl, ascending_perm ops, ascending_pairwise nodup, (point x hx).2,
    fun x hx => (point x (mem_ascending.mp hx)).1⟩

theorem Grouping.starts (hd : WellFormed d) (hg : Grouping d context ops groups)
    {starts : List StartPoint} (h : (groups.mapM fun g : OpId × List OpId => (do
      return { point := ← d.regionPoint g.2 context } : Query StartPoint)).run = .ok (.ok starts)) :
    starts = groups.map fun g => { point := ⟨g.2, context, g.1⟩ } := by
  refine (query_mapM_ok (P := fun _ => True) (fun g hgm s hs => ⟨trivial, ?_⟩) h).2
  obtain ⟨p, hp, hs⟩ := query_bind_ok.mp hs
  cases hs
  have nodup : g.2.Nodup := (hg.sorted g hgm).imp fun lt => Int.ne_of_lt lt
  have point := regionPoint_pointed (hg.some g hgm) nodup hp
  obtain ⟨x, hx⟩ := exists_mem_of_ne_nil _ (hg.some g hgm)
  have critical : p.critical = g.1 := by
    refine Lies.sibling hd.nesting point.owned (hg.owned g hgm) (point.lies x ?_) (hg.lies g hgm x hx)
    exact point.candidates.mem_iff.mpr hx
  have candidates : p.candidates = g.2 :=
    point.candidates.eq_of_pairwise (fun a b _ _ lt gt => absurd gt (Int.lt_asymm lt)) point.sorted
      (hg.sorted g hgm)
  rw [← point.inside, ← critical, ← candidates]

theorem describe_consistent (hd : WellFormed d) (first : start.Nodup) (last : finish.Nodup) (ne : finish ≠ [])
    (h : (describe d r start finish).run = .ok (.ok p)) :
    ∃ context, (d.regionContext (start ++ finish)).run = .ok (.ok context) ∧
      Consistent d r context start finish p := by
  simp only [describe, query_bind_ok, query_pure_ok] at h
  obtain ⟨context, hc, groups, hg, starts, hs, finish', hf, rfl⟩ := h
  have grouping : Grouping d context (ascending start) groups :=
    groupByCritical_grouping hg (.nil d context) (ascending_pairwise first)
  cases grouping.starts hd hs
  refine ⟨context, hc, rfl, rfl, rfl, ?_, ?_, ?_, ?_, ?_, regionPoint_pointed ne last hf⟩
  · simpa [Function.comp_def] using grouping.children
  · simpa [pairwise_map] using grouping.ordered
  · exact forall_mem_map.mpr grouping.some
  · exact forall_mem_map.mpr fun g hgm =>
      ⟨rfl, .refl _, grouping.sorted g hgm, grouping.owned g hgm, grouping.lies g hgm⟩
  · rw [flatMap_map]
    exact grouping.all.trans (ascending_perm start)

theorem create_error (h : (describe d r start finish).run = .ok (.error e)) :
    (create r start finish).run d = .ok (.error e, d) := by
  refine step_bind_run.mpr (.inl ⟨e, ?_, rfl⟩)
  show ((describe d r start finish).run >>= fun r => pure (r, d)) = _
  rw [h]
  rfl

variable (hd : WellFormed d) (there : ∀ x ∈ start ++ finish, ∃ o, d.op? x = some o)
include hd there

theorem describe_total (ne : start ++ finish ≠ [])
    (hc : (d.regionContext (start ++ finish)).run = .ok (.ok context)) (owned : Owned d.ops c context)
    (lies : ∀ x ∈ finish, Lies d.ops x c) : ∃ p, (describe d r start finish).run = .ok (.ok p) := by
  obtain ⟨⟨o, ho, kind⟩, owns⟩ := regionContext_ok hc
  have fair : ∀ ⦃block b⦄, d.op? block = some b → b.kind = .block → (∀ x ∈ start ++ finish, Beneath d.ops x block) →
      ∃ k, Owned d.ops k block ∧ ∀ x ∈ finish, Lies d.ops x k := by
    intro block b hb block' around
    rcases Relation.reflTransGen_iff_eq_or_transGen.mp (regionContext_deepest hc ⟨⟨b, hb, block'⟩, around⟩) with rfl
      | above
    · exact ⟨c, owned, lies⟩
    · obtain ⟨k, up, own⟩ := Relation.TransGen.tail'_iff.mp above
      exact ⟨k, own, fun x hx => ((lies x hx).tail owned).trans up⟩
  obtain ⟨p, hp, -⟩ | ⟨no, -⟩ :=
    describe_replies (E := False) (r := r) hd there (.inr ⟨ne, ⟨_, o, ho, kind, owns⟩, fair⟩)
  · exact ⟨p, hp⟩
  · exact no.elim

end

/-- The context of a region is the deepest block that owns all accessors, in whatever order they are
given. A region is created iff there is one and one child of it has all last accessors. Then the region
is consistent and the last one of the design; otherwise the design stays as it is. -/
theorem created_consistent_or_unchanged {d : Design} (hd : WellFormed d) (r : ResId) {start finish : List OpId}
    (first : start ≠ []) (last : finish ≠ []) (distinct : start.Nodup) (distinct' : finish.Nodup)
    (there : ∀ x ∈ start ++ finish, ∃ o, d.op? x = some o) :
    (∀ c, (d.regionContext (start ++ finish)).run = .ok (.ok c) ↔
      Houses d (start ++ finish) c ∧ ∀ b, Houses d (start ++ finish) b → Lies d.ops c b) ∧
    ((∃ e, (d.regionContext (start ++ finish)).run = .ok (.error e)) ↔ ¬ ∃ b, Houses d (start ++ finish) b) ∧
    (∀ ops, ops.Perm (start ++ finish) →
      (∀ c, (d.regionContext ops).run = .ok (.ok c) ↔ (d.regionContext (start ++ finish)).run = .ok (.ok c)) ∧
      ((∃ e, (d.regionContext ops).run = .ok (.error e)) ↔
          ∃ e, (d.regionContext (start ++ finish)).run = .ok (.error e))) ∧
    ((∃ p d', (create r start finish).run d = .ok (.ok p, d')) ↔
      ∃ context c, (d.regionContext (start ++ finish)).run = .ok (.ok context) ∧ Owned d.ops c context ∧
        ∀ x ∈ finish, Lies d.ops x c) ∧
    (∀ p d', (create r start finish).run d = .ok (.ok p, d') →
      ∃ context, (d.regionContext (start ++ finish)).run = .ok (.ok context) ∧
        Consistent d r context start finish p ∧
        d' = { d with regions := d.regions.push p }) ∧
    ((¬ ∃ p d', (create r start finish).run d = .ok (.ok p, d')) → ∃ e,
        (create r start finish).run d = .ok (.error e, d)) := by
  have ne : start ++ finish ≠ [] := by simp [first]
  refine ⟨fun c => regionContext_eq_iff hd ne there, regionContext_error_iff hd ne there, fun ops perm => ?_, ?_,
    ?_, ?_⟩
  · have ne' : ops ≠ [] := fun e => ne (by simpa [e] using perm.symm)
    have there' : ∀ x ∈ ops, ∃ o, d.op? x = some o := fun x hx => there x (perm.mem_iff.mp hx)
    have houses : ∀ {b}, Houses d ops b ↔ Houses d (start ++ finish) b := ⟨(·.perm perm.symm), (·.perm perm)⟩
    refine ⟨fun c => ?_, ?_⟩
    · simp only [regionContext_eq_iff hd ne' there', regionContext_eq_iff hd ne there, houses]
    · simp only [regionContext_error_iff hd ne' there', regionContext_error_iff hd ne there, houses]
  · constructor
    · rintro ⟨p, d', h⟩
      obtain ⟨context, hc, consistent⟩ := describe_consistent hd distinct distinct' last (create_ok.mp h).1
      have point := consistent.finish
      exact ⟨context, p.finish.critical, hc, point.owned,
        fun x hx => point.lies x (point.candidates.mem_iff.mpr hx)⟩
    · rintro ⟨context, c, hc, owned, lies⟩
      obtain ⟨p, hp⟩ := describe_total (r := r) hd there ne hc owned lies
      exact ⟨p, _, create_ok.mpr ⟨hp, rfl⟩⟩
  · intro p d' h
    obtain ⟨hp, rfl⟩ := create_ok.mp h
    obtain ⟨context, hc, consistent⟩ := describe_consistent hd distinct distinct' last hp
    exact ⟨context, hc, consistent, rfl⟩
  · intro none
    obtain ⟨p, hp, -⟩ | ⟨-, e, he⟩ := describe_replies (E := True) (r := r) hd there (.inl trivial)
    · exact absurd ⟨p, _, create_ok.mpr ⟨hp, rfl⟩⟩ none
    · exact ⟨e, create_error he⟩

theorem shared_region_consistent : ∃ d p d' e, runAll sharedCommands { name := "x" } = some d ∧
    (∀ x ∈ [30, 13, 27] ++ [31], ∃ o, d.op? x = some o) ∧ (create 0 [30, 13, 27] [31]).run d = .ok (.ok p, d') ∧
    (p.starts.map fun s => (s.point.critical, s.point.candidates)) = [(13, [13]), (14, [27, 30])] ∧
    Consistent d 0 10 [30, 13, 27] [31] p ∧ d' = { d with regions := d.regions.push p } ∧
    (create 0 [13] [30, 31]).run d = .ok (.error e, d) := by
  obtain ⟨d, hd, there, none, p, d', h, context, starts⟩ : ∃ d, runAll sharedCommands { name := "x" } = some d ∧
      (∀ x ∈ [13, 27, 30, 31], ∃ o, d.op? x = some o ∧ True) ∧
      ¬ (∃ p d', (create 0 [13] [30, 31]).run d = .ok (.ok p, d') ∧ True) ∧ ∃ p d',
      (create 0 [30, 13, 27] [31]).run d = .ok (.ok p, d') ∧ p.context = 10 ∧
      p.starts.map (fun s => (s.point.critical, s.point.candidates)) = [(13, [13]), (14, [27, 30])] := by
    decide +kernel
  simp only [and_true] at there none
  have wf := ((Built.empty "x").runAll hd).wellFormed
  have there' : ∀ x ∈ [30, 13, 27] ++ [31], ∃ o, d.op? x = some o := fun x hx =>
    there x ((by decide : ∀ x ∈ [(30 : OpId), 13, 27] ++ [31], x ∈ [13, 27, 30, 31]) x hx)
  obtain ⟨-, -, -, -, consistent, -⟩ :=
    created_consistent_or_unchanged wf 0 (by decide) (by decide) (by decide) (by decide) there'
  obtain ⟨c, -, consistent, added⟩ := consistent p d' h
  have apart : ∀ x ∈ [13] ++ [30, 31], ∃ o, d.op? x = some o := fun x hx =>
    there x ((by decide : ∀ x ∈ [(13 : OpId)] ++ [30, 31], x ∈ [13, 27, 30, 31]) x hx)
  obtain ⟨-, -, -, -, -, unchanged⟩ :=
    created_consistent_or_unchanged wf 0 (by decide) (by decide) (by decide) (by decide) apart
  obtain ⟨e, he⟩ := unchanged none
  cases consistent.inside.symm.trans context
  exact ⟨d, p, d', e, hd, there', h, starts, consistent, added, he⟩

end Region

end Datapath
