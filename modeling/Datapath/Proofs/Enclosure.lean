import Datapath.Proofs.RegionWalk

/-!
# Regions enclose their accesses

The context of a region owns the two ends of the trail of its resource, so it owns the whole trail.
The children of the context that contain the ends are a start point and the end point of the region,
and in the order of the context everything on the trail lies between them.
-/

namespace Datapath

open List

variable {d : Design}

namespace Region

/-! ## Contexts -/

section
variable {context : OpId}

theorem childToward_ok (h : d.childToward context n x = .ok (some c)) : Lies d.ops x c ∧ Owned d.ops c context := by
  induction n generalizing x with
  | zero => cases h
  | succ n ih =>
    unfold Design.childToward at h
    split at h
    next => cases h
    next =>
      obtain ⟨o, ho, h⟩ := bind_ok.mp h
      split at h
      next hc =>
        cases h
        exact ⟨.refl, o, op_ok ho, beq_iff_eq.mp hc⟩
      next =>
        obtain ⟨lies, owned⟩ := ih h
        exact ⟨.head ⟨o, op_ok ho, rfl⟩ lies, owned⟩

theorem criticalContext_ok (h : (d.criticalContext x context).run = .ok (.ok c)) :
    Lies d.ops x c ∧ Owned d.ops c context := by
  obtain ⟨found, hf, h⟩ := query_bind_ok.mp h
  have hf := query_lift_ok.mp hf
  cases found with
  | none =>
    obtain ⟨_, -, h⟩ := query_bind_ok.mp h
    exact (reject_ok.mp h).elim
  | some k =>
    cases h
    exact childToward_ok hf

theorem run_criticalContext (hn : Nesting d.ops) (hc : Owned d.ops c context) (h : Lies d.ops x c) :
    (d.criticalContext x context).run = .ok (.ok c) := by
  have toward : ∀ n : Nat, x < n → d.childToward context n x = .ok (some c) := by
    induction h using Relation.ReflTransGen.head_induction_on with
    | refl =>
      intro n hlt
      obtain ⟨o, ho, rfl⟩ := hc
      have := (at?_lt ho).1
      obtain _ | n := n
      · exact absurd hlt (Int.not_lt.mpr this)
      · have ne : (c == absent) = false := beq_eq_false_iff_ne.mpr fun e => absurd (e ▸ this) (by decide)
        simp only [Design.childToward, ne]
        refine bind_ok.mpr ⟨o, require_ok.mpr ho, ?_⟩
        simp only [beq_self_eq_true]
        rfl
    | @head x k step lies ih =>
      intro n hlt
      have younger := step.lt hn
      obtain ⟨o, ho, rfl⟩ := step
      have := (at?_lt ho).1
      obtain _ | n := n
      · exact absurd hlt (Int.not_lt.mpr this)
      · have ne : (x == absent) = false := beq_eq_false_iff_ne.mpr fun e => absurd (e ▸ this) (by decide)
        have out : (o.owner == context) = false := by
          refine beq_eq_false_iff_ne.mpr fun e => ?_
          have := Lies.le hn lies
          exact absurd (hc.lt hn) (Int.not_lt.mpr (e ▸ this))
        simp only [Design.childToward, ne]
        refine bind_ok.mpr ⟨o, require_ok.mpr ho, ?_⟩
        simp only [out]
        exact ih n (by push_cast at hlt; exact Int.lt_of_lt_of_le younger (Int.lt_add_one_iff.mp hlt))
  have hx : x < d.ops.size := by
    rcases h.cases_head with rfl | ⟨k, ⟨o, ho, -⟩, -⟩
    · obtain ⟨o, ho, -⟩ := hc
      exact (at?_lt ho).2
    · exact (at?_lt ho).2
  refine query_bind_ok.mpr ⟨some c, query_lift_ok.mpr (toward _ ?_), rfl⟩
  exact Int.lt_trans hx (Int.lt_succ _)

theorem ownersFrom_ok (h : d.ownersFrom n x = .ok os) (hm : m ∈ os) : Lies d.ops x m := by
  induction n generalizing x os with
  | zero => cases h
  | succ n ih =>
    unfold Design.ownersFrom at h
    split at h
    next =>
      cases h
      cases hm
    next =>
      obtain ⟨o, ho, h⟩ := bind_ok.mp h
      obtain ⟨os, hos, h⟩ := bind_ok.mp h
      cases h
      rcases mem_cons.mp hm with rfl | hm
      · exact .refl
      · exact .head ⟨o, op_ok ho, rfl⟩ (ih hos hm)

theorem owners_ok (h : d.owners x = .ok os) (hm : m ∈ os) : Beneath d.ops x m := by
  obtain ⟨o, ho, h⟩ := bind_ok.mp h
  exact .head' ⟨o, op_ok ho, rfl⟩ (ownersFrom_ok h hm)

theorem mem_commonPath (h : c ∈ Design.commonPath xs ys) : c ∈ xs ∧ c ∈ ys := by
  induction xs generalizing ys with
  | nil => simp [Design.commonPath] at h
  | cons x xs ih =>
    cases ys with
    | nil => simp [Design.commonPath] at h
    | cons y ys =>
      simp only [Design.commonPath] at h
      split at h
      next e =>
        cases beq_iff_eq.mp e
        rcases mem_cons.mp h with rfl | h
        · exact ⟨mem_cons_self, mem_cons_self⟩
        · exact ⟨mem_cons_of_mem _ (ih h).1, mem_cons_of_mem _ (ih h).2⟩
      next => cases h

theorem mem_commonPaths (h : c ∈ paths.foldl Design.commonPath path) : ∀ p ∈ path :: paths, c ∈ p := by
  induction paths generalizing path with
  | nil => simpa using h
  | cons p paths ih =>
    have := ih h
    rw [forall_mem_cons] at this
    obtain ⟨both, rest⟩ := this
    exact forall_mem_cons.mpr ⟨(mem_commonPath both).1, forall_mem_cons.mpr ⟨(mem_commonPath both).2, rest⟩⟩

theorem sharedOwners_ok (h : d.sharedOwners ops = .ok os) (hm : m ∈ os) : ∀ x ∈ ops, Beneath d.ops x m := by
  obtain ⟨paths, hp, h⟩ := bind_ok.mp h
  have all : ∀ p ∈ paths, m ∈ p := by
    split at h
    next => nofun
    next =>
      cases h
      exact mem_commonPaths hm
  intro x hx
  obtain ⟨p, hpm, hp⟩ := forall₂_left (mapM_pairs hp) x hx
  obtain ⟨above, ha, hp⟩ := bind_ok.mp hp
  cases hp
  exact owners_ok ha (mem_reverse.mp (all _ hpm))

theorem regionContext_ok (h : (d.regionContext ops).run = .ok (.ok context)) :
    (∃ o, d.op? context = some o ∧ o.kind = .block) ∧ ∀ x ∈ ops, Beneath d.ops x context := by
  unfold Design.regionContext at h
  split at h
  next => exact (reject_ok.mp h).elim
  next =>
    obtain ⟨os, hos, h⟩ := query_bind_ok.mp h
    dsimp only at h
    split at h
    next ctx hctx =>
      cases h
      obtain ⟨hm, hk⟩ := mem_filter.mp (mem_of_getLast? hctx)
      simp only [Option.any_eq_true, beq_iff_eq] at hk
      obtain ⟨o, ho, hk⟩ := hk
      exact ⟨⟨o, ho, hk⟩, sharedOwners_ok (query_lift_ok.mp hos) hm⟩
    next => exact (reject_ok.mp h).elim

/-! ## Points -/

theorem checkPoint_ok (h : (d.checkPoint context critical ops).run = .ok (.ok c)) :
    (critical ≠ absent → c = critical) ∧ ∀ x ∈ ops, Lies d.ops x c ∧ Owned d.ops c context := by
  induction ops generalizing critical with
  | nil =>
    cases h
    exact ⟨fun _ => rfl, nofun⟩
  | cons op ops ih =>
    obtain ⟨k, hk, h⟩ := query_bind_ok.mp h
    obtain ⟨lies, owned⟩ := criticalContext_ok hk
    split at h
    next first =>
      obtain ⟨same, rest⟩ := ih h
      have ne : k ≠ absent := by
        intro e
        obtain ⟨o, ho, -⟩ := owned
        rw [e] at ho
        exact absurd (at?_lt ho).1 (by decide)
      cases same ne
      exact ⟨fun hne => absurd (beq_iff_eq.mp first) hne, forall_mem_cons.mpr ⟨⟨lies, owned⟩, rest⟩⟩
    next ne =>
      split at h
      next e =>
        obtain ⟨same, rest⟩ := ih h
        have hne : critical ≠ absent := by simpa using ne
        cases same hne
        cases beq_iff_eq.mp e
        exact ⟨fun _ => rfl, forall_mem_cons.mpr ⟨⟨lies, owned⟩, rest⟩⟩
      next =>
        obtain ⟨_, -, h⟩ := query_bind_ok.mp h
        obtain ⟨_, -, h⟩ := query_bind_ok.mp h
        exact (reject_ok.mp h).elim

theorem regionPoint_ok {p : RegionPoint} (h : (d.regionPoint ops context).run = .ok (.ok p)) :
    ∀ x ∈ ops, Lies d.ops x p.critical ∧ Owned d.ops p.critical context := by
  obtain ⟨c, hc, h⟩ := query_bind_ok.mp h
  cases h
  exact fun x hx => (checkPoint_ok hc).2 x (mem_ascending.mpr hx)

theorem regionPoint_candidates {p : RegionPoint} (h : (d.regionPoint ops context).run = .ok (.ok p)) :
    p.candidates = ascending ops := by
  obtain ⟨c, -, h⟩ := query_bind_ok.mp h
  cases h
  rfl

section
variable (h : (d.groupByCritical context groups ops).run = .ok (.ok found))
include h

theorem groupByCritical_ok : (∃ g ∈ found, x ∈ g.2) ↔ x ∈ ops ∨ ∃ g ∈ groups, x ∈ g.2 := by
  induction ops generalizing groups with
  | nil =>
    cases h
    simp
  | cons op ops ih =>
    obtain ⟨c, -, h⟩ := query_bind_ok.mp h
    rw [ih h, mem_cons, or_comm (a := x = op), or_assoc, or_comm (a := x = op)]
    refine or_congr_right ?_
    by_cases hc : groups.any (·.1 == c) = true
    · obtain ⟨k, hk, hkc⟩ := any_eq_true.mp hc
      rw [if_pos hc]
      constructor
      · rintro ⟨g', hg', hx⟩
        obtain ⟨g, hg, rfl⟩ := mem_map.mp hg'
        split at hx
        · exact (mem_append.mp hx).imp (fun hx => ⟨g, hg, hx⟩) mem_singleton.mp
        · exact .inl ⟨g, hg, hx⟩
      · rintro (⟨g, hg, hx⟩ | rfl)
        · refine ⟨_, mem_map_of_mem hg, ?_⟩
          split
          · exact mem_append_left _ hx
          · exact hx
        · exact ⟨_, mem_map_of_mem hk, by simp [hkc]⟩
    · rw [if_neg hc]
      simp

theorem groupByCritical_nonempty (hg : ∀ g ∈ groups, g.2 ≠ []) : ∀ g ∈ found, g.2 ≠ [] := by
  induction ops generalizing groups with
  | nil =>
    cases h
    exact hg
  | cons op ops ih =>
    obtain ⟨c, -, h⟩ := query_bind_ok.mp h
    refine ih h fun g hgm => ?_
    split at hgm
    · obtain ⟨g', hg', rfl⟩ := mem_map.mp hgm
      split
      · simp
      · exact hg g' hg'
    · rcases mem_append.mp hgm with hgm | hgm
      · exact hg g hgm
      · rw [mem_singleton.mp hgm]
        simp

end

end

/-- The context of a region owns its accessors, and its points are the children that contain them. -/
structure Spans (ops : Array Operation) (p : Region) (start finish : List OpId) : Prop where
  block : ∃ o, at? ops p.context = some o ∧ o.kind = .block
  owns : ∀ x ∈ start ++ finish, Beneath ops x p.context
  starts : ∀ x ∈ start, ∃ s ∈ p.starts, Lies ops x s.point.critical ∧ Owned ops s.point.critical p.context
  candidates : ∀ x, (∃ s ∈ p.starts, x ∈ s.point.candidates) ↔ x ∈ start
  points : ∀ s ∈ p.starts, Owned ops s.point.critical p.context
  ends : ∀ x ∈ finish, Lies ops x p.finish.critical ∧ Owned ops p.finish.critical p.context

theorem describe_ok {start finish : List OpId} (h : (describe d r start finish).run = .ok (.ok p)) :
    p.resource = r ∧ Spans d.ops p start finish := by
  simp only [describe, query_bind_ok, query_pure_ok] at h
  obtain ⟨context, hc, groups, hg, starts, hs, last, hf, rfl⟩ := h
  obtain ⟨block, owns⟩ := regionContext_ok hc
  have grouped : ∀ {x}, (∃ g ∈ groups, x ∈ g.2) ↔ x ∈ start := by
    intro x
    rw [groupByCritical_ok hg, mem_ascending]
    simp
  refine ⟨rfl, block, owns, fun x hx => ?_, fun x => ⟨?_, fun hx => ?_⟩, fun s hsm => ?_, regionPoint_ok hf⟩
  · obtain ⟨g, hgm, hxg⟩ := grouped.mpr hx
    obtain ⟨s, hsm, hs⟩ := forall₂_left (query_mapM_pairs hs) g hgm
    obtain ⟨point, hp, hs⟩ := query_bind_ok.mp hs
    cases hs
    exact ⟨_, hsm, regionPoint_ok hp x hxg⟩
  · rintro ⟨s, hsm, hx⟩
    obtain ⟨g, hgm, hs⟩ := forall₂_right (query_mapM_pairs hs) s hsm
    obtain ⟨point, hp, hs⟩ := query_bind_ok.mp hs
    cases hs
    rw [regionPoint_candidates hp, mem_ascending] at hx
    exact grouped.mp ⟨g, hgm, hx⟩
  · obtain ⟨g, hgm, hxg⟩ := grouped.mpr hx
    obtain ⟨s, hsm, hs⟩ := forall₂_left (query_mapM_pairs hs) g hgm
    obtain ⟨point, hp, hs⟩ := query_bind_ok.mp hs
    cases hs
    refine ⟨_, hsm, ?_⟩
    rw [regionPoint_candidates hp, mem_ascending]
    exact hxg
  · obtain ⟨g, hgm, hs⟩ := forall₂_right (query_mapM_pairs hs) s hsm
    obtain ⟨point, hp, hs⟩ := query_bind_ok.mp hs
    cases hs
    obtain ⟨x, hx⟩ := exists_mem_of_ne_nil _ (groupByCritical_nonempty hg (by simp) g hgm)
    exact (regionPoint_ok hp x hx).2

/-! ## Tasks -/

section
variable {d' : Design}

theorem create_ok {start finish : List OpId} : (create r start finish).run d = .ok (.ok p, d') ↔
    (describe d r start finish).run = .ok (.ok p) ∧ d' = { d with regions := d.regions.push p } := by
  constructor
  · intro h
    obtain ⟨q, hq, h⟩ := passQuery_bind_ok.mp h
    obtain ⟨_, e, he, h⟩ := step_bind_ok.mp h
    cases step_modify_ok.mp he
    cases h
    exact ⟨hq, rfl⟩
  · rintro ⟨hp, rfl⟩
    exact passQuery_bind_ok.mpr ⟨p, hp, rfl⟩

theorem identifyOne_ok (h : (identifyOne log r).run d = .ok (.ok found, d')) :
    d'.ops = d.ops ∧ ∀ p, found = some p →
      p.resource = r ∧ ∃ a, log.find? r = some a ∧ Spans d.ops p a.first a.last := by
  unfold identifyOne at h
  split at h
  next =>
    cases h
    exact ⟨rfl, nofun⟩
  next a ha =>
    split at h
    next =>
      cases h
      exact ⟨rfl, nofun⟩
    next =>
      obtain ⟨q, e, hq, h⟩ := step_bind_ok.mp h
      obtain ⟨_, -, h⟩ := look_bind_ok.mp h
      cases h
      obtain ⟨described, rfl⟩ := create_ok.mp hq
      refine ⟨rfl, fun p hp => ?_⟩
      cases hp
      obtain ⟨hr, spans⟩ := describe_ok described
      exact ⟨hr, a, ha, spans⟩

theorem identifyAll_ok {found : List (Option Region)}
    (h : (rs.mapM (identifyOne log)).run d = .ok (.ok found, d')) :
    ((found.filterMap fun p => p).map Region.resource).Sublist rs ∧
      ∀ p ∈ found.filterMap fun p => p, ∃ a, log.find? p.resource = some a ∧ Spans d.ops p a.first a.last := by
  induction rs generalizing d d' found with
  | nil =>
    cases h
    exact ⟨.slnil, nofun⟩
  | cons r rs ih =>
    rw [mapM_cons] at h
    obtain ⟨one, e, h1, h⟩ := step_bind_ok.mp h
    obtain ⟨rest, f, h2, h⟩ := step_bind_ok.mp h
    cases h
    obtain ⟨same, spans⟩ := identifyOne_ok h1
    obtain ⟨sorted, all⟩ := ih h2
    rw [same] at all
    cases one with
    | none => exact ⟨sorted.cons r, all⟩
    | some p =>
      obtain ⟨rfl, spans⟩ := spans p rfl
      exact ⟨sorted.cons_cons p.resource, forall_mem_cons.mpr ⟨spans, all⟩⟩

theorem identify_ok (h : (identify task).run d = .ok (.ok regions, d')) :
    ∃ log, ((children d (visit d (d.ops.size + 1)) task.call).run {}).run = .ok (.ok ((), log)) ∧
      (regions.map Region.resource).Sublist log.resources ∧
      ∀ p ∈ regions, ∃ a, log.find? p.resource = some a ∧ Spans d.ops p a.first a.last := by
  obtain ⟨⟨⟨⟩, log⟩, hq, h⟩ := passQuery_bind_ok.mp h
  obtain ⟨found, f, hf, h⟩ := step_bind_ok.mp h
  cases h
  exact ⟨log, hq, identifyAll_ok hf⟩

theorem beneath_call (hb : d.op? block = some b) (hc : d.op? call = some c)
    (kind : b.kind = .block) (called : c.kind = .call) (owner : c.owner = absent) (hx : Beneath d.ops x block)
    (hx' : Beneath d.ops x call) : Beneath d.ops block call := by
  have none : ∀ {m}, ¬ Owned d.ops absent m := by
    rintro m ⟨o, ho, -⟩
    exact absurd (at?_lt ho).1 (by decide)
  have ne : call ≠ block := by
    rintro rfl
    cases hb.symm.trans hc
    rw [kind] at called
    cases called
  rcases Lies.total hx.to_reflTransGen hx'.to_reflTransGen with h | h
  · rcases Relation.reflTransGen_iff_eq_or_transGen.mp h with e | h
    · exact absurd e ne
    · exact h
  -- above the call there is nothing
  · exfalso
    rcases h.cases_head with e | ⟨k, step, h⟩
    · exact ne e
    · cases Owned.unique ⟨c, hc, owner⟩ step
      rcases h.cases_head with e | ⟨k, step, -⟩
      · rw [← e] at hb
        exact none ⟨b, hb, rfl⟩
      · exact none step

theorem task_call (hs : Shaped d) (ht : task ∈ d.tasks) :
    ∃ call, d.op? task.call = some call ∧ call.kind = .call ∧ call.owner = absent := by
  obtain ⟨n, hn, e⟩ := Array.mem_iff_getElem.mp ht
  have hv : view d.tasks Task.call n = some task.call := by
    simp [view, at?, hn, e]
  obtain ⟨s, hs, called⟩ := hs.tasks hv
  obtain ⟨call, hcall, rfl⟩ := view_some.mp hs
  exact ⟨call, hcall, called.kind, called.owner⟩

theorem Ordered.order (h : Ordered d block ids)
    (ho : d.op? block = some o) (hk : o.kind = .block) : (d.order block).run = .ok (.ok ids) := by
  cases h with
  | branch hm hb =>
    cases ho.symm.trans hm
    rw [hk] at hb
    cases hb
  | other _ _ _ h => exact h

end

/-- The regions of a task come in ascending order of their resources, one for each. The context of a
region encloses every operation that a walk through the task opens and that touches the resource, by
itself or through a call: the child of the context that contains it is, in the order of the context,
no earlier than some start point and no later than the end point. -/
theorem regions_enclose_accesses {d d' : Design} {task : Task} {regions : List Region} (hd : Built d)
    (ht : task ∈ d.tasks) (h : (identify task).run d = .ok (.ok regions, d')) :
    (regions.map Region.resource).Pairwise (· < ·) ∧
    ∀ p ∈ regions, ∃ ids, (d.order p.context).run = .ok (.ok ids) ∧ p.finish.critical ∈ ids ∧
      ∀ x, Inhabits d task.call x → Touches d p.resource x → Beneath d.ops x p.context ∧
        ∃ c ∈ ids, (d.criticalContext x p.context).run = .ok (.ok c) ∧
          (∃ s ∈ p.starts, ids.idxOf s.point.critical ≤ ids.idxOf c) ∧
          ids.idxOf c ≤ ids.idxOf p.finish.critical := by
  have wf := hd.wellFormed
  have shaped := hd.shaped
  obtain ⟨log, hlog, sorted, spans⟩ := identify_ok h
  refine ⟨(ascendingSet_pairwise _).sublist sorted, fun p hp => ?_⟩
  obtain ⟨a, ha, spans⟩ := spans p hp
  -- the trail of the task
  obtain ⟨top, t, x, y, order, tours, hx, hy, first, last⟩ := children_tours wf shaped hlog ha
  obtain ⟨call, hcall, kind, owner⟩ := task_call shaped ht
  have ordered : Ordered d task.call top := .other hcall (by rw [kind]; rfl) (by rw [kind]; decide) order
  have sib := ordered.siblings wf shaped tours
  -- it is the trail of the context
  obtain ⟨b, hb, block⟩ := spans.block
  have inx := spans.owns x (mem_append_left _ first)
  have iny := spans.owns y (mem_append_right _ last)
  obtain ⟨c, hc, lies⟩ := tours.lies wf shaped (mem_of_mem_head? hx)
  have inside := beneath_call hb hcall block kind owner inx (.tail' lies (sib.owned c hc))
  obtain ⟨ids, ordered', tours'⟩ := tours.narrow wf shaped sib inside hx hy inx iny
  have sib' := ordered'.siblings wf shaped tours'
  obtain ⟨liesEnd, ownedEnd⟩ := spans.ends y last
  have finish : p.finish.critical ∈ ids := by
    obtain ⟨c, hc, lies⟩ := tours'.lies wf shaped (mem_of_getLast? hy)
    rw [Lies.sibling wf.nesting ownedEnd (sib'.owned c hc) liesEnd lies]
    exact hc
  refine ⟨ids, ordered'.order hb block, finish, fun z hz touches => ?_⟩
  obtain ⟨o, k, ho, hk, hz⟩ := hz.first
  obtain ⟨o', ho', -, perm⟩ := ordered.parts
  cases ho.symm.trans ho'
  have hzt := tours.complete touches (perm.mem_iff.mpr hk) hz
  obtain ⟨c, hc, lies⟩ := tours'.lies wf shaped hzt
  have owned := sib'.owned c hc
  refine ⟨.tail' lies owned, c, hc, run_criticalContext wf.nesting owned lies, ?_, ?_⟩
  · obtain ⟨s, hs, liesStart, ownedStart⟩ := spans.starts x first
    obtain ⟨k, hk, lies'⟩ := tours'.lies wf shaped (mem_of_mem_head? hx)
    cases Lies.sibling wf.nesting ownedStart (sib'.owned k hk) liesStart lies'
    exact ⟨s, hs, tours'.before wf shaped sib' hx hk lies' hzt hc lies⟩
  · exact tours'.after wf shaped sib' hy finish liesEnd hzt hc lies

/-- A register that is read first, in a side of a branch, through a call in the other side, and written
last. -/
def sharedCommands : List Command :=
  [.newResource .register "y" false, .newTask "u" 0 0 .zero true, .newAccess .registerWrite 3 "w" 0 .zero,
   .newTask "t" 0 0 .zero true, .newAccess .registerRead 10 "r" 0 .zero, .newBranch 10 "b" 0 0 .zero,
   .newTaskCall 24 "c" 0, .newAccess .registerRead 21 "s" 0 .zero, .newAccess .registerWrite 10 "z" 0 .zero]

theorem shared_region_encloses_call : ∃ d d' task p ids c, runAll sharedCommands { name := "x" } = some d ∧
    task ∈ d.tasks ∧ (identify task).run d = .ok (.ok [p], d') ∧ p.context = 10 ∧ p.finish.critical = 31 ∧
    Inhabits d task.call 27 ∧ Touches d p.resource 27 ∧ (d.order p.context).run = .ok (.ok ids) ∧
    (d.criticalContext 27 p.context).run = .ok (.ok c) ∧
    (∃ s ∈ p.starts, ids.idxOf s.point.critical ≤ ids.idxOf c) ∧ ids.idxOf c ≤ ids.idxOf p.finish.critical := by
  obtain ⟨d, hd, task, ht, hcall, regions, d', h, hr, ⟨_, h₁, p₁⟩, ⟨_, h₂, p₂⟩, ⟨_, h₃, p₃⟩, ⟨_, h₄, p₄⟩, ⟨_, h₅,
      p₅⟩, ⟨call, hc, hk, hb⟩, write, hw, hwk, hwr⟩ :
      ∃ d, runAll sharedCommands { name := "x" } = some d ∧ ∃ task, at? d.tasks 1 = some task ∧ task.call = 7 ∧
      ∃ regions d', (identify task).run d = .ok (.ok regions, d') ∧
      (regions.map fun p => (p.resource, p.context, p.finish.critical)) = [(0, 10, 31)] ∧
      (∃ o, d.op? 7 = some o ∧ 10 ∈ o.parts) ∧ (∃ o, d.op? 10 = some o ∧ 14 ∈ o.parts) ∧
      (∃ o, d.op? 14 = some o ∧ 24 ∈ o.parts) ∧ (∃ o, d.op? 24 = some o ∧ 27 ∈ o.parts) ∧
      (∃ o, d.op? 3 = some o ∧ 6 ∈ o.parts) ∧ (∃ o, d.op? 27 = some o ∧ o.kind = .taskCall ∧ o.body = 3) ∧
      ∃ o, d.op? 6 = some o ∧ o.kind = .registerWrite ∧ o.resource = 0 := by
    set_option synthInstance.maxSize 100000 in decide +kernel
  obtain ⟨p, rfl, hp⟩ := map_eq_singleton_iff.mp hr
  have hres : p.resource = 0 := congrArg Prod.fst hp
  have hctx : p.context = 10 := congrArg (fun q => q.2.1) hp
  have inside : Inhabits d task.call 27 := by
    rw [hcall]
    exact .deeper (.deeper (.deeper (.part h₁ p₁) h₂ p₂) h₃ p₃) h₄ p₄
  have touches : Touches d p.resource 27 := by
    rw [hres]
    exact .call hc hk (hb ▸ .part h₅ p₅) (.access hw (by rw [hwk]; rfl) hwr)
  obtain ⟨-, encloses⟩ := regions_enclose_accesses ((Built.empty "x").runAll hd) (mem_of_at? ht) h
  obtain ⟨ids, order, -, encloses⟩ := encloses p mem_cons_self
  obtain ⟨-, c, -, critical, start, finish⟩ := encloses 27 inside touches
  exact ⟨d, d', task, p, ids, c, hd, mem_of_at? ht, h, hctx, congrArg (fun q => q.2.2) hp, inside, touches, order,
    critical, start, finish⟩

/-- A memory that is written twice in a block, and read in a block that stands in a branch beside its
decision and its sides. -/
def besideCommands : List Command :=
  [.newResource .memory "x" false, .newTask "t" 0 0 .zero true, .newBlock 3 "y" 0 0 .zero,
   .newAccess .memoryWrite 6 "v" 0 .zero, .newAccess .memoryWrite 6 "w" 0 .zero, .newBranch 3 "b" 0 0 .zero,
   .newBlock 11 "e" 0 0 .zero, .newAccess .memoryRead 24 "a" 0 .zero]

/-- What stands in a branch beside its decision and its sides may lie outside the region. -/
theorem beside_access_outside : ∃ d d' task p o b, runAll besideCommands { name := "x" } = some d ∧
    task ∈ d.tasks ∧ (identify task).run d = .ok (.ok [p], d') ∧ Nested d task.call 27 ∧ d.op? 27 = some o ∧
    o.kind = .memoryRead ∧ o.resource = p.resource ∧ d.op? o.owner = some b ∧ b.kind = .block ∧
    ¬ Beneath d.ops 27 p.context := by
  obtain ⟨d, hd, task, ht, hcall, regions, d', h, hr, ⟨_, h₁, p₁⟩, ⟨_, h₂, m₂, p₂⟩, ⟨_, h₃, m₃, p₃⟩, ⟨b, h₄, m₄,
      p₄⟩, ⟨o, h₅, hk, hres, hown⟩, x, out, none⟩ :
      ∃ d, runAll besideCommands { name := "x" } = some d ∧ ∃ task, at? d.tasks 0 = some task ∧ task.call = 0 ∧
      ∃ regions d', (identify task).run d = .ok (.ok regions, d') ∧
      (regions.map fun p => (p.resource, p.context)) = [((0 : Int), (6 : Int))] ∧
      (∃ o, d.op? 0 = some o ∧ 3 ∈ o.children) ∧ (∃ o, d.op? 3 = some o ∧ o.kind.isInlineModule = true ∧
      11 ∈ o.children) ∧ (∃ o, d.op? 11 = some o ∧ o.kind.isInlineModule = true ∧ 24 ∈ o.children) ∧
      (∃ o, d.op? 24 = some o ∧ o.kind = .block ∧ 27 ∈ o.children) ∧
      (∃ o, d.op? 27 = some o ∧ o.kind = .memoryRead ∧ o.resource = 0 ∧ o.owner = 24) ∧
      ∃ x, (d.criticalContext 27 6).run = .ok x ∧ x.toOption = none := by
    set_option synthInstance.maxSize 100000 in decide +kernel
  obtain ⟨p, rfl, hp⟩ := map_eq_singleton_iff.mp hr
  have nested : Nested d task.call 27 := by
    rw [hcall]
    exact .deeper (.deeper (.deeper (.child h₁ p₁) h₂ m₂ p₂) h₃ m₃ p₃) h₄ (by rw [m₄]; rfl) p₄
  refine ⟨d, d', task, p, o, b, hd, mem_of_at? ht, h, nested, h₅, hk, ?_,
    by rw [hown]; exact h₄, m₄, fun beneath => ?_⟩
  · rw [hres]
    exact (congrArg Prod.fst hp).symm
  · rw [show p.context = 6 from congrArg Prod.snd hp] at beneath
    obtain ⟨c, lies, owned⟩ := Relation.TransGen.tail'_iff.mp beneath
    rw [run_criticalContext ((Built.empty "x").runAll hd).wellFormed.nesting owned lies] at out
    cases out
    cases none

end Region

end Datapath
