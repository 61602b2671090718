import Datapath.Proofs.Signals

/-!
# Back-pressure

The regions of a task lie in modules that the tracking of the task passes through. There the end of a
region holds back every start, and the first start of a region that is met stalls the module. Tracking
another module or another task does not take this back.
-/

namespace Datapath

open List

variable {d e e' : Design}

namespace Region

/-! ## The place of a region -/

section

theorem inline_of_part {o : Operation} (h : c ∈ o.parts) : o.kind.isInlineModule = true := by
  by_contra hk
  rw [parts_of_leaf (by simpa using hk)] at h
  cases h

variable (hd : WellFormed d) (hs : Shaped d)
include hd hs

theorem mem_children_of_part (hm : d.op? m = some o) (hx : x ∈ o.parts) (hk : d.op? x = some k) :
    x ∈ o.children := by
  obtain ⟨k', hk', own⟩ := owned_part hd hs hm hx hk
  cases hk.symm.trans hk'
  have ne : k.owner ≠ absent := by
    rw [own]
    exact ne_absent hm
  obtain ⟨p, hp, mem⟩ := hd.mem_children hk ne
  rw [own] at hp
  cases hm.symm.trans hp
  exact mem

theorem Inhabits.nested (h : Inhabits d m x) (hx : d.op? x = some k) : Nested d m x := by
  induction h generalizing k with
  | part hm hc => exact .child hm (mem_children_of_part hd hs hm hc hx)
  | deeper _ hk hc ih => exact .deeper (ih hk) hk (inline_of_part hc) (mem_children_of_part hd hs hk hc hx)

theorem Inhabits.between (h : Inhabits d m x) (hx : d.op? x = some k) (inside : Beneath d.ops x b)
    (below : Beneath d.ops b m) : Nested d m b := by
  induction h generalizing k with
  | part hm hc =>
    have own := owned_part hd hs hm hc hx
    obtain ⟨a, step, lies⟩ := Relation.TransGen.head'_iff.mp inside
    cases own.unique step
    exact absurd (below.lt hd.nesting) (Int.not_lt.mpr (Lies.le hd.nesting lies))
  | deeper hin hk hc ih =>
    have own := owned_part hd hs hk hc hx
    obtain ⟨a, step, lies⟩ := Relation.TransGen.head'_iff.mp inside
    cases own.unique step
    rcases Relation.reflTransGen_iff_eq_or_transGen.mp lies with rfl | inside
    · exact hin.nested hd hs hk
    · exact ih hk inside

end

/-- Where a region of a task with the given call lies: in the order of its context some start comes no
later than the end. -/
structure Fits (d : Design) (call : OpId) (p : Region) : Prop where
  block : ∃ o, d.op? p.context = some o ∧ o.kind = .block
  inside : Nested d call p.context
  starts : ∀ k ∈ p.stallPoints, Owned d.ops k p.context
  finish : ∃ o, d.op? p.finish.critical = some o ∧ o.owner = p.context ∧ o.kind ≠ .inBuf
  order : ∃ ids, (d.order p.context).run = .ok (.ok ids) ∧ p.finish.critical ∈ ids ∧
    ∃ k ∈ p.stallPoints, k ∈ ids ∧ ids.idxOf k ≤ ids.idxOf p.finish.critical

theorem Fits.gains (h : Fits d call p) (g : p.Gains p') : Fits d call p' := by
  obtain ⟨block, inside, starts, finish, order⟩ := h
  rw [← g.context] at block inside starts finish order
  rw [← g.stallPoints] at starts order
  rw [← g.finish] at finish order
  exact ⟨block, inside, starts, finish, order⟩

theorem fits_of_spans (wf : WellFormed e) (shaped : Shaped e) (ht : task ∈ e.tasks)
    (hlog : ((children e (visit e (e.ops.size + 1)) task.call).run {}).run = .ok (.ok ((), log)))
    (ha : log.find? p.resource = some a) (spans : Spans e.ops p a.first a.last) : Fits e task.call p := by
  -- the trail of the task is the trail of the context
  obtain ⟨top, t, x, y, order, tours, hx, hy, first, last⟩ := children_tours wf shaped hlog ha
  obtain ⟨call, hcall, kind, owner⟩ := task_call shaped ht
  have ordered : Ordered e task.call top := .other hcall (by rw [kind]; rfl) (by rw [kind]; decide) order
  have sib := ordered.siblings wf shaped tours
  obtain ⟨b, hb, block⟩ := spans.block
  have inx := spans.owns x (mem_append_left _ first)
  have iny := spans.owns y (mem_append_right _ last)
  obtain ⟨touches, c, hc, opened⟩ := tours.sound (mem_of_mem_head? hx)
  obtain ⟨o, ho⟩ := touches.op
  obtain ⟨q, hq, -, perm⟩ := ordered.parts
  have inhabits := Inhabits.of_part hq (perm.mem_iff.mp hc) opened
  have below := beneath_call hb hcall block kind owner inx (inhabits.beneath wf shaped ho)
  obtain ⟨ids, ordered', tours'⟩ := tours.narrow wf shaped sib below hx hy inx iny
  have sib' := ordered'.siblings wf shaped tours'
  -- its end is no buffer
  obtain ⟨touches', c', hc', opened'⟩ := tours'.sound (mem_of_getLast? hy)
  obtain ⟨o', ho'⟩ := touches'.op
  obtain ⟨liesEnd, ownedEnd⟩ := spans.ends y last
  have lies' : Lies e.ops y c' := by
    rcases opened' with rfl | opened'
    · exact .refl
    · exact (opened'.beneath wf shaped ho').to_reflTransGen
  cases Lies.sibling wf.nesting ownedEnd (sib'.owned c' hc') liesEnd lies'
  refine ⟨⟨b, hb, block⟩, inhabits.between wf shaped ho inx below, fun k hk => ?_, ?_, ids, ordered'.order hb block,
    hc', ?_⟩
  · obtain ⟨s, hs, rfl⟩ := mem_map.mp hk
    exact spans.points s hs
  · obtain ⟨f, hf, own⟩ := ownedEnd
    refine ⟨f, hf, own, fun buffer => ?_⟩
    rcases opened' with same | opened'
    · rw [same] at touches'
      cases touches' with
      | access hx hk =>
        cases hf.symm.trans hx
        rw [buffer] at hk
        cases hk
      | call hx hk =>
        cases hf.symm.trans hx
        rw [buffer] at hk
        cases hk
    · exact not_inhabits hf (parts_of_leaf (by rw [buffer]; rfl)) opened'
  · obtain ⟨s, hs, liesStart, ownedStart⟩ := spans.starts x first
    obtain ⟨k, hk, lies⟩ := tours'.lies wf shaped (mem_of_mem_head? hx)
    cases Lies.sibling wf.nesting ownedStart (sib'.owned k hk) liesStart lies
    refine ⟨_, mem_map.mpr ⟨s, hs, rfl⟩, hk, ?_⟩
    exact tours'.before wf shaped sib' hx hk lies (mem_of_getLast? hy) hc' lies'

/-! ### Designs that differ in regions and stalls only -/

theorem nested_of_reset (same : reset e = reset d) {m : OpId} (h : Nested e m c) : Nested d m c := by
  induction h with
  | child hm hc =>
    obtain ⟨_, hm⟩ := op_of_reset same hm
    exact .child hm hc
  | deeper _ ho hk hc ih =>
    obtain ⟨_, ho⟩ := op_of_reset same ho
    exact .deeper ih ho hk hc

theorem owned_of_reset (same : reset e = reset d) {m : OpId} (h : Owned e.ops c m) : Owned d.ops c m := by
  obtain ⟨o, ho, own⟩ := h
  obtain ⟨_, ho⟩ := op_of_reset same ho
  exact ⟨_, ho, own⟩

theorem order_of_reset (hd : WellFormed d) (he : WellFormed e) (same : reset e = reset d) (m : OpId) :
    e.order m = d.order m := by
  have outlines : e.outline = d.outline := by
    rw [← outline_reset e, same, outline_reset]
  rw [← outline_order he, outlines, outline_order hd]

theorem portDeps_of_reset (same : reset e = reset d) (port : PortId) : e.portDeps port = d.portDeps port := by
  have fresh : ∀ d : Design, (reset d).portDeps port = d.portDeps port := by
    intro d
    have one : ∀ p, (reset d).depsOnPort p = d.depsOnPort p := by
      intro p
      unfold Design.depsOnPort
      rw [show (reset d).op? p.owner = (d.op? p.owner).map _ from at?_map ..]
      cases d.op? p.owner <;> rfl
    simp only [Design.portDeps, one]
    rfl
  rw [← fresh e, same, fresh]

theorem busOwner?_of_reset (same : reset e = reset d) (b : BusId) : e.busOwner? b = d.busOwner? b := by
  have fresh : ∀ d : Design, (reset d).busOwner? b = d.busOwner? b := fun _ => rfl
  rw [← fresh e, same, fresh]

theorem Fits.of_reset (hd : WellFormed d) (he : WellFormed e) (same : reset e = reset d) (h : Fits e call p) :
    Fits d call p := by
  obtain ⟨⟨o, ho, block⟩, inside, starts, ⟨f, hf, own, kind⟩, order⟩ := h
  rw [order_of_reset hd he same] at order
  obtain ⟨_, ho⟩ := op_of_reset same ho
  obtain ⟨_, hf⟩ := op_of_reset same hf
  exact ⟨⟨_, ho, block⟩, nested_of_reset same inside, fun k hk => owned_of_reset same (starts k hk), ⟨_, hf, own,
    kind⟩, order⟩

/-! ## The regions of a task -/

theorem create_pushes {start finish : List OpId}
    (h : (create r start finish).run e = .ok (.ok p, e')) : e' = { e with regions := e.regions.push p } := by
  obtain ⟨q, hq, h⟩ := passQuery_bind_ok.mp h
  obtain ⟨_, f, hf, h⟩ := step_bind_ok.mp h
  cases step_modify_ok.mp hf
  cases h
  rfl

theorem identifyOne_pushes (h : (identifyOne log r).run e = .ok (.ok found, e')) :
    e' = { e with regions := e.regions ++ found.toList } := by
  have none : e = { e with regions := e.regions ++ (none : Option Region).toList } := by simp
  unfold identifyOne at h
  split at h
  next =>
    cases h
    exact none
  next =>
    split at h
    next =>
      cases h
      exact none
    next =>
      obtain ⟨q, f, hq, h⟩ := step_bind_ok.mp h
      obtain ⟨_, -, h⟩ := look_bind_ok.mp h
      cases h
      rw [create_pushes hq]
      simp

theorem identifyAll_pushes {rs : List ResId} (h : (rs.mapM (identifyOne log)).run e = .ok (.ok found, e')) :
    e' = { e with regions := e.regions ++ found.filterMap fun p => p } := by
  induction rs generalizing e found with
  | nil =>
    cases h
    simp
  | cons r rs ih =>
    rw [mapM_cons] at h
    obtain ⟨one, f, h1, h⟩ := step_bind_ok.mp h
    obtain ⟨rest, g, h2, h⟩ := step_bind_ok.mp h
    cases h
    rw [ih h2, identifyOne_pushes h1]
    cases one <;> simp

theorem identify_pushes (h : (identify task).run e = .ok (.ok regions, e')) :
    e' = { e with regions := e.regions ++ regions } := by
  obtain ⟨⟨⟨⟩, log⟩, hq, h⟩ := passQuery_bind_ok.mp h
  obtain ⟨found, f, hf, h⟩ := step_bind_ok.mp h
  cases h
  exact identifyAll_pushes hf

/-! ## Tracking a module -/

inductive Opened (regions : List Int) (n : Nat) (c : OpId) : Design → Design → Prop where
  | leaf {e : Design} {o : Operation} (ho : e.op? c = some o) (hk : o.kind.isInlineModule = false) :
    Opened regions n c e e
  | module {e e' : Design} {o : Operation} (ho : e.op? c = some o) (hk : o.kind.isInlineModule = true)
    (tracked : (track regions n c).run e = .ok (.ok (), e')) : Opened regions n c e e'

inductive Registers (regions : List Int) (n : Nat) : List OpId → Tracker → Design → Tracker → Design → Prop where
  | nil {t : Tracker} {e : Design} : Registers regions n [] t e t e
  | cons {c : OpId} {cs : List OpId} {t t₁ t' : Tracker} {e f e₁ e' : Design} (opened : Opened regions n c e f)
    (registered : t.register c f = .ok (t₁, e₁)) (rest : Registers regions n cs t₁ e₁ t' e') :
    Registers regions n (c :: cs) t e t' e'

section
variable {t : Tracker}

theorem Opened.follows (hR : Signals R) (h : Opened regions n c e e') : R e e' := by
  cases h with
  | leaf => exact hR.refl _
  | module _ _ tracked => exact (hR.track ..).run tracked

theorem Registers.follows (hR : Signals R) (h : Registers regions n cs t e t' e') : R e e' := by
  induction h with
  | nil => exact hR.refl _
  | cons opened registered _ ih =>
    exact hR.trans (opened.follows hR) (hR.trans ((hR.register ..).run registered) ih)

theorem Registers.regions_eq (h : Registers regions n cs t e t' e') : t'.regions = t.regions := by
  induction h with
  | nil => rfl
  | cons _ registered _ ih =>
    obtain ⟨_, _, -, -, same, -⟩ := register_ok registered
    exact ih.trans same

theorem foldlM_registers (h : (cs.foldlM (fun (t : Tracker) c => do
      let o ← Pass.look (·.op c)
      if o.kind.isInlineModule then track regions n c
      Pass.ofBuild (t.register c)) t).run e = .ok (.ok t', e')) : Registers regions n cs t e t' e' := by
  induction cs generalizing t e with
  | nil =>
    cases h
    exact .nil
  | cons c cs ih =>
    obtain ⟨t1, e1, h1, h2⟩ := step_bind_ok.mp h
    obtain ⟨o, ho, h1⟩ := look_bind_ok.mp h1
    split at h1
    next hk =>
      obtain ⟨⟨⟩, f, tracked, h1⟩ := step_bind_ok.mp h1
      exact .cons (.module (op_ok ho) hk tracked) (ofBuild_ok.mp h1) (ih h2)
    next hk => exact .cons (.leaf (op_ok ho) (by simpa using hk)) (ofBuild_ok.mp h1) (ih h2)

theorem track_ok (h : (track regions (n + 1) mod).run e = .ok (.ok (), e')) :
    ∃ m ids t t' f f', e.op? mod = some m ∧ (e.order mod).run = .ok (.ok ids) ∧
      Tracker.register { mod, regions } m.inBuf e = .ok (t, f) ∧
      Registers regions n (ids.filter (· != m.inBuf)) t f t' f' ∧
      changeOp mod (fun o => { o with stalls := t'.moduleStalls f' }) f' = .ok ((), e') := by
  obtain ⟨m, hm, h⟩ := look_bind_ok.mp h
  obtain ⟨ids, hids, h⟩ := passQuery_bind_ok.mp h
  obtain ⟨t, f, ht, h⟩ := step_bind_ok.mp h
  obtain ⟨t', f', hf, h⟩ := step_bind_ok.mp h
  obtain ⟨stalls, hs, h⟩ := look_bind_ok.mp h
  cases hs
  exact ⟨m, ids, t, t', f, f', op_ok hm, hids, ofBuild_ok.mp ht, foldlM_registers hf, ofBuild_ok.mp h⟩

/-! ### What is met before an operation -/

theorem met_before {b : OpId} (h : b :: ids.filter (· != b) = met ++ c :: cs) :
    c = b ∨ ∃ before after, ids = before ++ c :: after ∧ ∀ k ∈ before, k ∈ met := by
  cases met with
  | nil =>
    cases h
    exact .inl rfl
  | cons a met =>
    obtain ⟨e, tail⟩ := cons.inj h
    subst e
    obtain ⟨before, rest, rfl, hb, hc⟩ := filter_eq_append_iff.mp tail
    obtain ⟨skipped, after, rfl, hs, -, -⟩ := filter_eq_cons_iff.mp hc
    refine .inr ⟨before ++ skipped, after, by simp, fun k hk => ?_⟩
    rcases mem_append.mp hk with hk | hk
    · by_cases e : k = b
      · exact e ▸ mem_cons_self
      · refine mem_cons_of_mem _ (hb ▸ mem_filter.mpr ⟨hk, by simpa using e⟩)
    · have e : k = b := by simpa using hs k hk
      exact e ▸ mem_cons_self

theorem mem_of_idxOf_le {after : List OpId}
    (h : (before ++ c :: after).idxOf k ≤ (before ++ c :: after).idxOf c) : k ∈ before ∨ k = c := by
  by_contra! ne
  rw [idxOf_append, idxOf_append, if_neg ne.1, idxOf_cons_ne _ (Ne.symm ne.2), idxOf_cons_self] at h
  split at h
  next hc => exact absurd (idxOf_lt_length_of_mem hc) (by omega)
  next => omega

/-- Every dependency comes from a sibling of the operation that it targets, and outside the feedback path
from another one. -/
def FromSiblings (d : Design) : Prop :=
  ∀ ⦃i v a p s t⦄, d.dep? i = some v → d.busOwner? v.source = some a → d.port? v.target = some p →
    d.op? a = some s → d.op? p.owner = some t →
    s.owner = t.owner ∧ (a = p.owner → ∃ n, d.entryAt? v.entry = some n ∧ n.feedback = true)

theorem forward_entry (hd : WellFormed d) (laid : Laid d) (hm : d.op? mod = some m)
    (block : m.kind = .block) (hc : d.op? c = some o) (own : o.owner = mod) {n : Entry} (hj : j ∈ o.entries)
    (hn : d.entryAt? j = some n) : n.feedback = false := by
  by_contra back
  obtain ⟨n', hn', holder⟩ := hd.entries.holds hc j hj
  cases hn.symm.trans hn'
  have face : view d.entries Entry.face j = some (c, true) := by
    rw [view_of _ hn, Entry.face, Option.some.inj holder, Bool.not_eq_false n.feedback |>.mp back]
  obtain ⟨l, m', placed, loop⟩ := laid.again face
  have at_c : (Kind.whileBody, l) = o.place := Option.some.inj (placed.symm.trans (view_of _ hc))
  have outer : l = mod := (congrArg Prod.snd at_c).trans own
  rw [outer] at loop
  have at_mod : (Kind.loop, m') = m.place := Option.some.inj (loop.symm.trans (view_of _ hm))
  have kind : Kind.loop = m.kind := congrArg Prod.fst at_mod
  rw [block] at kind
  cases kind

theorem drivers_of_port (hd : WellFormed d) (laid : Laid d) (sib : FromSiblings d)
    (hm : d.op? mod = some m) (block : m.kind = .block) (hc : d.op? c = some o) (own : o.owner = mod)
    (hport : port ∈ o.ports) (hdeps : d.portDeps port = .ok deps) (hv : v ∈ deps)
    (hs : d.busOwner? v.source = some src) : src ∈ d.drivers mod c := by
  obtain ⟨p, hp, h⟩ := bind_ok.mp hdeps
  cases h
  have hp : d.port? port = some p := require_ok.mp hp
  obtain ⟨p', hp', holder⟩ := hd.ports.holds hc port (mem_cons_of_mem _ hport)
  cases hp.symm.trans hp'
  have ofPort : p.owner = c := Option.some.inj holder
  unfold Design.depsOnPort at hv
  rw [ofPort, hc] at hv
  obtain ⟨n, hn, hv⟩ := mem_flatMap.mp hv
  obtain ⟨hv, target⟩ := mem_filter.mp hv
  obtain ⟨j, hj, hnj⟩ := mem_filterMap.mp hn
  obtain ⟨i, hi, hvi⟩ := mem_filterMap.mp hv
  have entry : v.entry = j := by
    obtain ⟨w, hw, holder⟩ := hd.deps.holds hnj i hi
    cases hvi.symm.trans hw
    exact Option.some.inj holder
  have forward := forward_entry hd laid hm block hc own hj hnj
  obtain ⟨s, hsrc⟩ := hd.op_of_busOwner? hs
  have port : d.port? v.target = some p := by
    rw [beq_iff_eq.mp target, hd.portIds port p hp]
    exact hp
  obtain ⟨same, other⟩ := sib hvi hs port hsrc (ofPort.symm ▸ hc)
  unfold Design.drivers
  rw [hc]
  refine mem_filter.mpr ⟨mem_filterMap.mpr ⟨v, ?_, hs⟩, ?_⟩
  · refine mem_flatMap.mpr ⟨n, mem_filter.mpr ⟨hn, by rw [forward]; rfl⟩, hv⟩
  · have ne : src ≠ c := by
      intro e
      obtain ⟨n', hn', back⟩ := other (e.trans ofPort.symm)
      rw [entry, hnj] at hn'
      cases hn'
      rw [forward] at back
      cases back
    simp [ne, hsrc, same, own]

/-! ### What is noted of a block -/

def Noted (t : Tracker) (e : Design) (mod : OpId) : Prop :=
  ∃ i ∈ t.stallingRegions, ∃ p, at? e.regions i = some p ∧ p.context = mod

def Fit (d : Design) (call : OpId) (regions : List Int) (e : Design) : Prop :=
  ∀ i ∈ regions, ∃ p, at? e.regions i = some p ∧ Fits d call p

theorem Noted.grown (h : Noted t e mod) (g : Grown e e') : Noted t e' mod := by
  obtain ⟨i, hi, p, hp, ctx⟩ := h
  obtain ⟨q, hq, gains⟩ := g.region hp
  exact ⟨i, hi, q, hq, gains.context.trans ctx⟩

theorem Quiet.grown (h : Quiet t e met) (g : Grown e e') : Quiet t e' met := by
  refine ⟨h.reached, fun p' hp' => ?_, fun p' hp' k hk => ?_⟩
  · obtain ⟨p, hp, gains⟩ := tracked_gains g hp'
    rw [gains.finish]
    exact h.ends p hp
  · obtain ⟨p, hp, gains⟩ := tracked_gains g hp'
    rw [gains.stallPoints] at hk
    exact h.starts p hp k hk

theorem Fit.grown (h : Fit d call regions e) (g : Grown e e') : Fit d call regions e' := by
  intro i hi
  obtain ⟨p, hp, fits⟩ := h i hi
  obtain ⟨q, hq, gains⟩ := g.region hp
  exact ⟨q, hq, fits.gains gains⟩

theorem Fit.of_tracked (h : Fit d call t.regions e) (hp : p ∈ t.tracked e) : Fits d call p := by
  obtain ⟨i, hi, hp⟩ := mem_tracked.mp hp
  obtain ⟨q, hq, fits⟩ := h i hi
  cases hp.symm.trans hq
  exact fits

theorem inBuf_ok (hd : WellFormed d) (laid : Laid d) (hm : d.op? mod = some m)
    (ho : d.op? m.inBuf = some o) : o.kind = .inBuf ∧ o.owner = mod ∧ o.ports = [] := by
  have place := hd.nesting.inBufs (view_of _ hm) (ne_absent ho)
  rw [view_of _ ho] at place
  have place : (o.kind, o.owner) = (.inBuf, mod) := Option.some.inj place
  exact ⟨congrArg Prod.fst place, congrArg Prod.snd place, laid.bare hm ho⟩

section
variable (hd : WellFormed d) (laid : Laid d) (sib : FromSiblings d) (hm : d.op? mod = some m)
  (block : m.kind = .block) (hids : (d.order mod).run = .ok (.ok ids))
include hd laid sib hm block hids

theorem Quiet.next (quiet : Quiet t e met) (all : m.inBuf :: ids.filter (· != m.inBuf) = met ++ c :: cs)
    (he : Running d e) (fit : Fit d call t.regions e) (h : t.register c e = .ok (t', e')) :
    Noted t' e' mod ∨ Quiet t' e' (met ++ [c]) := by
  obtain ⟨o, _, ho, -⟩ := register_ok h
  obtain ⟨_, hc⟩ := op_of_reset he.same ho
  have split := met_before all
  have owned : Owned d.ops c mod := by
    rcases split with rfl | ⟨before, after, rfl, -⟩
    · exact ⟨_, hc, (inBuf_ok hd laid hm hc).2.1⟩
    · obtain ⟨m', hm', perm⟩ := order_ok hids
      exact hd.child hm' (perm.mem_iff.mp (by simp))
  have opens : ∀ p ∈ t.tracked e, p.finish.critical = c → ∃ k ∈ p.stallPoints, k ∈ met ∨ k = c := by
    intro p hp ends
    obtain ⟨-, -, -, ⟨q, hq, own, kind⟩, ids', hids', -, k, hk, -, le⟩ := fit.of_tracked hp
    rw [ends] at hq le
    cases hc.symm.trans hq
    rcases split with rfl | ⟨before, after, rfl, met⟩
    · exact absurd (inBuf_ok hd laid hm hc).1 kind
    · have ctx : p.context = mod := Owned.unique ⟨_, hc, own⟩ owned
      rw [ctx, hids] at hids'
      cases hids'
      exact ⟨k, hk, (mem_of_idxOf_le le).imp_left (met k)⟩
  have drivers : ∀ o', e.op? c = some o' → ∀ port ∈ o'.ports, ∀ deps, e.portDeps port = .ok deps → ∀ v ∈ deps,
      ∀ src, e.busOwner? v.source = some src → src ∈ met := by
    intro o' ho' port hport deps hdeps v hv src hsrc
    cases ho.symm.trans ho'
    rw [portDeps_of_reset he.same] at hdeps
    rw [busOwner?_of_reset he.same] at hsrc
    rcases split with rfl | ⟨before, after, rfl, met⟩
    · rw [show o.ports = [] from (inBuf_ok hd laid hm hc).2.2] at hport
      cases hport
    · obtain ⟨q, hq, own⟩ := owned
      cases hc.symm.trans hq
      exact met src (order_after hids src (drivers_of_port hd laid sib hm block hc own hport hdeps hv hsrc))
  rcases quiet.register he.wf h opens drivers with quiet | ⟨p, hp, start, stalling⟩
  · exact .inr quiet
  · obtain ⟨i, hi, hpi⟩ := mem_tracked.mp hp
    obtain ⟨q, hq, gains⟩ := ((Grown.signals.register ..).run h).region hpi
    rw [← he.wf.regionIds i p hpi] at hq
    exact .inl ⟨p.id, stalling, q, hq, gains.context.trans (((fit.of_tracked hp).starts c start).unique owned)⟩

theorem Registers.noted (h : Registers regions n cs t e t' e') (he : Running d e) (fit : Fit d call t.regions e)
    (all : m.inBuf :: ids.filter (· != m.inBuf) = met ++ cs) (now : Noted t e mod ∨ Quiet t e met) :
    Noted t' e' mod ∨ Quiet t' e' (met ++ cs) := by
  induction h generalizing met with
  | nil =>
    rw [append_nil]
    exact now
  | @cons c cs t t1 t' e f e1 e' opened registered rest ih =>
    have grown := opened.follows Grown.signals
    have hf := opened.follows (Running.signals d) he
    have grown' := (Grown.signals.register ..).run registered
    have regions : t1.regions = t.regions := by
      obtain ⟨_, _, -, -, same, -⟩ := register_ok registered
      exact same
    have fit' := fit.grown grown
    rw [append_cons] at all ⊢
    refine ih (((Running.signals d).register ..).run registered hf) (regions ▸ fit'.grown grown') all ?_
    rcases now with noted | quiet
    · obtain ⟨i, hi, p, hp, ctx⟩ := noted.grown (Grown.chains.trans grown grown')
      exact .inl ⟨i, register_stalling registered hi, p, hp, ctx⟩
    · rw [← append_cons] at all
      exact (quiet.grown grown).next hd laid sib hm block hids all hf fit' registered

end

/-! ### What tracking a module leaves -/

theorem Registers.heeds (h : Registers regions n cs t e t' e') (he : Running d e)
    (hi : i ∈ t.regions) (hp : at? e.regions i = some p) (ends : p.finish.critical ∈ cs) :
    ∃ q, at? e'.regions i = some q ∧ q.Heeds p.finish.critical := by
  induction h generalizing p with
  | nil => cases ends
  | @cons c cs t t1 t' e f e1 e' opened registered rest ih =>
    have hf := opened.follows (Running.signals d) he
    obtain ⟨p1, hp1, gains1⟩ := (opened.follows Grown.signals).region hp
    obtain ⟨p2, hp2, gains2⟩ := ((Grown.signals.register ..).run registered).region hp1
    rcases mem_cons.mp ends with ends | ends
    · obtain ⟨q, hq, heeds⟩ := register_heeds hf.wf registered hi hp1 (by rw [gains1.finish]; exact ends)
      obtain ⟨r, hr, gains⟩ := (rest.follows Grown.signals).region hq
      exact ⟨r, hr, ends ▸ gains.heeds heeds⟩
    · obtain ⟨_, _, -, -, same, -⟩ := register_ok registered
      have finish : p2.finish = p.finish := gains2.finish.trans gains1.finish
      rw [← finish] at ends ⊢
      exact ih (((Running.signals d).register ..).run registered hf) (same ▸ hi) hp2 ends

theorem register_ops (h : t.register op e = .ok (t', e')) : e'.ops = e.ops := by
  have chains : Chains fun e e' : Design => e'.ops = e.ops := ⟨fun _ => rfl, fun h h' => h'.trans h⟩
  refine (chains.register ⟨fun h => ?_⟩ t op).run h
  obtain ⟨-, rfl⟩ := changeRegion_ok h
  rfl

theorem Registers.ops (frame : ∀ {c e e'}, Running d e → (track regions n c).run e = .ok (.ok (), e') →
      ∀ k, ¬ Lies d.ops k c → at? e'.ops k = at? e.ops k)
    (h : Registers regions n cs t e t' e') (he : Running d e) (out : ∀ c ∈ cs, ¬ Lies d.ops k c) :
    at? e'.ops k = at? e.ops k := by
  induction h with
  | nil => rfl
  | @cons c cs t t1 t' e f e1 e' opened registered rest ih =>
    have hf := opened.follows (Running.signals d) he
    have one : at? f.ops k = at? e.ops k := by
      cases opened with
      | leaf => rfl
      | module _ _ tracked => exact frame he tracked k (out c mem_cons_self)
    rw [ih (((Running.signals d).register ..).run registered hf) fun a ha => out a (mem_cons_of_mem _ ha),
      register_ops registered, one]

theorem track_ops (he : Running d e) (h : (track regions n mod).run e = .ok (.ok (), e')) (k : OpId)
    (out : ¬ Lies d.ops k mod) : at? e'.ops k = at? e.ops k := by
  induction n generalizing mod e e' k with
  | zero => cases h
  | succ n ih =>
    obtain ⟨m, ids, t, t', f, f', hm, hids, first, rest, last⟩ := track_ok h
    have hf := ((Running.signals d).register ..).run first he
    obtain ⟨-, rfl⟩ := changeOp_ok last
    have ne : k ≠ mod := by
      rintro rfl
      exact out .refl
    rw [at?_edit_ne ne, rest.ops (fun he h k => ih he h k) hf, register_ops first]
    intro c hc lies
    obtain ⟨m', hm', perm⟩ := order_ok hids
    have owned : Owned e.ops c mod := he.wf.child hm' (perm.mem_iff.mp (mem_filter.mp hc).1)
    exact out (lies.tail (owned_of_reset he.same owned))

def Stalled (e : Design) (mod : OpId) : Prop :=
  ∃ m, e.op? mod = some m ∧ ∃ s ∈ m.stalls, 0 ≤ s.region ∧ ∃ q, at? e.regions s.region = some q ∧ q.context = mod ∧
    s.components = q.stallPoints

def Pressed (regions : List Int) (e : Design) (mod : OpId) : Prop :=
  ∀ i ∈ regions, ∀ p, at? e.regions i = some p → p.context = mod → p.Heeds p.finish.critical ∧ Stalled e mod

theorem Stalled.grown (h : Stalled e mod) (g : Grown e e') (same : at? e'.ops mod = at? e.ops mod) :
    Stalled e' mod := by
  obtain ⟨m, hm, s, hs, nonneg, q, hq, ctx, components⟩ := h
  obtain ⟨r, hr, gains⟩ := g.region hq
  exact ⟨m, same.trans hm, s, hs, nonneg, r, hr, gains.context.trans ctx, components.trans gains.stallPoints.symm⟩

theorem Pressed.grown (h : Pressed regions e mod) (g : Grown e e') (same : at? e'.ops mod = at? e.ops mod) :
    Pressed regions e' mod := by
  intro i hi p' hp' ctx
  obtain ⟨p, hp, gains⟩ := g.back hp'
  obtain ⟨heeds, stalled⟩ := h i hi p hp (gains.context.symm.trans ctx)
  rw [gains.finish]
  exact ⟨gains.heeds heeds, stalled.grown g same⟩

theorem stalled_of_noted (noted : Noted t e mod)
    (h : changeOp mod (fun o => { o with stalls := t.moduleStalls e }) e = .ok ((), e')) : Stalled e' mod := by
  obtain ⟨i, hi, p, hp, ctx⟩ := noted
  obtain ⟨⟨m, hm⟩, rfl⟩ := changeOp_ok h
  refine ⟨{ m with stalls := t.moduleStalls e }, ?_, ⟨i, p.stallPoints⟩, ?_, (at?_lt hp).1, p, hp, ctx, rfl⟩
  · unfold Design.op?
    rw [at?_editAt, if_pos rfl, hm]
    rfl
  · refine mem_append_left _ (mem_filterMap.mpr ⟨i, mem_ascending.mpr hi, ?_⟩)
    rw [hp]
    rfl

theorem Nested.lies (hd : WellFormed d) (h : Nested d mod k) : Lies d.ops k mod := by
  induction h with
  | child hm hc => exact .single (hd.child hm hc)
  | deeper _ ho _ hc ih => exact .head (hd.child ho hc) ih

theorem Registers.pressed (hd : WellFormed d)
    (inner : ∀ {c e e'}, Running d e → Fit d call regions e → (track regions n c).run e = .ok (.ok (), e') →
      ∀ {k o}, k = c ∨ Nested d c k → d.op? k = some o → o.kind.isInlineModule = true → Pressed regions e' k)
    (h : Registers regions n cs t e t' e') (he : Running d e) (fit : Fit d call regions e)
    (sib : Siblings d.ops mod cs) (hc : c ∈ cs) (hq : d.op? c = some q) (module : q.kind.isInlineModule = true)
    (hk : k = c ∨ Nested d c k) (ho : d.op? k = some o) (inline : o.kind.isInlineModule = true) :
    Pressed regions e' k := by
  induction h with
  | nil => cases hc
  | @cons a cs t t1 t' e f e1 e' opened registered rest ih =>
    have hf := opened.follows (Running.signals d) he
    have he1 := ((Running.signals d).register ..).run registered hf
    have grown := opened.follows Grown.signals
    have grown' := (Grown.signals.register ..).run registered
    rcases mem_cons.mp hc with rfl | hc
    · have pressed : Pressed regions f k := by
        cases opened with
        | leaf hl leaf =>
          obtain ⟨_, hl⟩ := op_of_reset he.same hl
          cases hq.symm.trans hl
          rw [leaf] at module
          cases module
        | module _ _ tracked => exact inner he fit tracked hk ho inline
      have lies : Lies d.ops k c := by
        rcases hk with rfl | hk
        · exact .refl
        · exact Nested.lies hd hk
      -- the modules that are tracked later are others
      have out : ∀ a ∈ cs, ¬ Lies d.ops k a := by
        intro a ha lies'
        have same := Lies.sibling hd.nesting (sib.owned c mem_cons_self) (sib.owned a (mem_cons_of_mem _ ha))
          lies lies'
        exact (nodup_cons.mp sib.nodup).1 (same ▸ ha)
      refine pressed.grown (Grown.chains.trans grown' (rest.follows Grown.signals)) ?_
      rw [rest.ops (fun he h => track_ops he h) he1 out, register_ops registered]
    · exact ih he1 (fit.grown (Grown.chains.trans grown grown')) sib.tail hc

theorem track_presses (hd : WellFormed d) (laid : Laid d)
    (sib : FromSiblings d) (he : Running d e) (fit : Fit d call regions e)
    (h : (track regions n mod).run e = .ok (.ok (), e')) (hk : k = mod ∨ Nested d mod k)
    (ho : d.op? k = some o) (inline : o.kind.isInlineModule = true) : Pressed regions e' k := by
  induction n generalizing mod e e' k o with
  | zero => cases h
  | succ n ih =>
    obtain ⟨m, ids, t, t', f, f', hm, hids, first, rest, last⟩ := track_ok h
    rw [order_of_reset hd he.wf he.same] at hids
    obtain ⟨_, hm⟩ := op_of_reset he.same hm
    obtain ⟨ib, _, hib, -⟩ := register_ok first
    obtain ⟨_, hib'⟩ := op_of_reset he.same hib
    have buffer := inBuf_ok hd laid hm hib'
    obtain ⟨m', hm', perm⟩ := order_ok hids
    cases hm.symm.trans hm'
    have grown := (Grown.signals.register ..).run first
    rcases hk with rfl | hk
    · have all : Registers regions n (m.inBuf :: ids.filter (· != m.inBuf)) { mod := k, regions } e t' f' :=
        .cons (.leaf hib (by rw [show ib.kind = .inBuf from buffer.1]; rfl)) first rest
      intro i hi p hp ctx
      obtain ⟨p0, hp0, fits⟩ := fit i hi
      obtain ⟨q, hq, gains⟩ := (all.follows Grown.signals).region hp0
      have same : at? e'.regions i = at? f'.regions i := by
        obtain ⟨-, rfl⟩ := changeOp_ok last
        rfl
      rw [same, hq] at hp
      cases hp
      have ctx0 : p0.context = k := gains.context.symm.trans ctx
      obtain ⟨ids', hids', mem, -⟩ := fits.order
      obtain ⟨b, hb, block⟩ := fits.block
      rw [ctx0] at hids' hb
      cases hids.symm.trans hids'
      cases hm.symm.trans hb
      have ends : p0.finish.critical ∈ m.inBuf :: ids.filter (· != m.inBuf) := by
        by_cases e : p0.finish.critical = m.inBuf
        · exact e ▸ mem_cons_self
        · exact mem_cons_of_mem _ (mem_filter.mpr ⟨mem, by simpa using e⟩)
      obtain ⟨r, hr, heeds⟩ := all.heeds he hi hp0 ends
      cases hq.symm.trans hr
      refine ⟨by rw [gains.finish]; exact heeds, ?_⟩
      have fresh : Quiet { mod := k, regions } e [] := ⟨nofun, fun _ _ => by simp, fun _ _ _ _ => by simp⟩
      rcases all.noted hd laid sib hm block hids he fit rfl (.inr fresh) with noted | quiet
      · exact stalled_of_noted noted last
      · refine absurd ends (gains.finish ▸ quiet.ends _ (mem_tracked.mpr ⟨i, ?_, hq⟩))
        rw [all.regions_eq]
        exact hi
    · have hf := ((Running.signals d).register ..).run first he
      obtain ⟨c, hc, inside⟩ := (nested_iff_within hm).mp hk
      obtain ⟨q, hq, module, inside⟩ : ∃ q, d.op? c = some q ∧ q.kind.isInlineModule = true ∧
        (k = c ∨ Nested d c k) := by
        rcases inside with rfl | ⟨inside, q, hq, module⟩
        · exact ⟨o, ho, inline, .inl rfl⟩
        · exact ⟨q, hq, module, .inr inside⟩
      have ne : c ≠ m.inBuf := by
        rintro rfl
        cases hib'.symm.trans hq
        rw [buffer.1] at module
        cases module
      have listed : c ∈ ids.filter (· != m.inBuf) := mem_filter.mpr ⟨perm.mem_iff.mpr hc, by simpa using ne⟩
      have siblings : Siblings d.ops mod (ids.filter (· != m.inBuf)) :=
        ⟨(perm.nodup_iff.mpr (hd.children_nodup hm)).filter _,
          fun a ha => hd.child hm (perm.mem_iff.mp (mem_filter.mp ha).1)⟩
      have pressed :=
        rest.pressed hd (fun run fit ran => ih run fit ran) hf (fit.grown grown) siblings listed hq module
        inside ho inline
      refine pressed.grown (Grown.signals.stall.run last) ?_
      obtain ⟨-, rfl⟩ := changeOp_ok last
      exact at?_edit_ne (Int.ne_of_gt (hk.lt hd))

end

/-! ## Tracking all tasks -/

theorem root_lies (hcall : d.op? call = some o) (owner : o.owner = absent) (h : Lies d.ops call x)
    (hx : d.op? x = some q) : x = call := by
  rcases h.cases_head with rfl | ⟨k, step, h⟩
  · rfl
  · cases Owned.unique ⟨o, hcall, owner⟩ step
    rcases h.cases_head with rfl | ⟨k, ⟨o, ho, -⟩, -⟩
    · exact absurd rfl (ne_absent hx)
    · exact absurd rfl (ne_absent ho)

theorem calls_nodup (hd : Called d) : (d.tasks.toList.map Task.call).Nodup := by
  rw [List.Nodup, pairwise_map, pairwise_iff_getElem]
  intro i j hi hj lt same
  have there : ∀ {i} (hi : i < d.tasks.toList.length), view d.tasks Task.call i = some d.tasks.toList[i].call := by
    intro i hi
    simp at hi
    simp [view, at?, hi]
  have := hd.apart (there hi) (same ▸ there hj)
  omega

def Settled (d e : Design) (done : List Task) : Prop :=
  ∀ ⦃i p⦄, at? e.regions i = some p → p.Heeds p.finish.critical ∧ Stalled e p.context ∧
    ∃ task ∈ done, Lies d.ops p.context task.call

theorem identify_fit (hd : WellFormed d) (he : Running d e) (ht : task ∈ d.tasks)
    (h : (identify task).run e = .ok (.ok regions, e')) : ∀ p ∈ regions, Fits d task.call p := by
  intro p hp
  obtain ⟨log, hlog, -, spans⟩ := identify_ok h
  obtain ⟨a, ha, spans⟩ := spans p hp
  have tasks : (reset e).tasks = (reset d).tasks := by rw [he.same]
  have ht : task ∈ e.tasks := tasks.symm ▸ ht
  exact (fits_of_spans he.wf he.shaped ht hlog ha spans).of_reset hd he.wf he.same

section
variable (hd : Built d) (sib : FromSiblings d) (he : Running d e)
include hd sib he

theorem settled_task
    (settled : Settled d e done) (ht : task ∈ d.tasks) (hdone : ∀ u ∈ done, u ∈ d.tasks ∧ u.call ≠ task.call)
    (h : (do
      let ps ← identify task
      track (ps.map Region.id) n task.call : Pass Unit).run e = .ok (.ok (), e')) :
    Running d e' ∧ Settled d e' (task :: done) := by
  have wf := hd.wellFormed
  obtain ⟨ps, f, hps, h⟩ := step_bind_ok.mp h
  have hf : Running d f := ((Running.signals d).identify Running.create task).run hps he
  have pushed := identify_pushes hps
  have fits := identify_fit wf he ht hps
  have fit : Fit d task.call (ps.map Region.id) f := by
    intro i hi
    obtain ⟨p, hp, rfl⟩ := mem_map.mp hi
    refine ⟨p, hf.wf.regionIds.at?_of_mem ?_, fits p hp⟩
    rw [pushed]
    simp [hp]
  have grown := (Grown.signals.track ..).run h
  refine ⟨((Running.signals d).track ..).run h hf, fun i q hq => ?_⟩
  obtain ⟨p, hp, gains⟩ := grown.back hq
  rw [gains.context, gains.finish]
  have id : p.id = i := hf.wf.regionIds i p hp
  rw [pushed, at?_append] at hp
  split at hp
  -- the regions of other tasks are left as they are
  · obtain ⟨heeds, stalled, u, hu, lies⟩ := settled hp
    have out : ¬ Lies d.ops p.context task.call := by
      intro lies'
      obtain ⟨ofTask, other⟩ := hdone u hu
      obtain ⟨c, hc, -, owner⟩ := task_call hd.shaped ht
      obtain ⟨c', hc', -, owner'⟩ := task_call hd.shaped ofTask
      rcases lies.total lies' with above | above
      · exact other (root_lies hc' owner' above hc).symm
      · exact other (root_lies hc owner above hc')
    have same : at? e'.ops p.context = at? e.ops p.context := by
      rw [track_ops hf h _ out, pushed]
    obtain ⟨m, hm, s, hs, nonneg, r, hr, ctx, components⟩ := stalled
    have found : at? f.regions s.region = some r := by
      rw [pushed]
      exact at?_append_of _ hr
    have stalled : Stalled f p.context := ⟨m, by rw [pushed]; exact hm, s, hs, nonneg, r, found, ctx, components⟩
    refine ⟨gains.heeds heeds, stalled.grown grown ?_, u, mem_cons_of_mem _ hu, lies⟩
    rw [same, pushed]
  · have hp := mem_of_getElem? hp
    have inside := (fits p hp).inside
    obtain ⟨b, hb, block⟩ := (fits p hp).block
    have pressed := track_presses wf hd.laid sib hf fit h (.inr inside) hb (by rw [block]; rfl)
    obtain ⟨heeds, stalled⟩ := pressed i (mem_map.mpr ⟨p, hp, id⟩) q hq gains.context
    exact ⟨gains.finish ▸ heeds, stalled, task, mem_cons_self, Nested.lies wf inside⟩

theorem settled_tasks (settled : Settled d e done) (all : ∀ u ∈ tasks ++ done, u ∈ d.tasks)
    (apart : ((tasks ++ done).map Task.call).Nodup)
    (h : (tasks.forM fun task => Pass.within s!"task {task.name}" do
      let ps ← identify task
      track (ps.map Region.id) n task.call).run e = .ok (.ok (), e')) : Running d e' ∧ ∃ done,
        Settled d e' done := by
  induction tasks generalizing e done with
  | nil =>
    cases h
    exact ⟨he, done, settled⟩
  | cons task tasks ih =>
    obtain ⟨⟨⟩, f, h1, h2⟩ := step_bind_ok.mp h
    have perm : (tasks ++ task :: done).Perm (task :: tasks ++ done) := perm_middle
    rw [cons_append, map_cons, nodup_cons] at apart
    have others : ∀ u ∈ done, u ∈ d.tasks ∧ u.call ≠ task.call := by
      intro u hu
      have later : u ∈ tasks ++ done := mem_append_right _ hu
      exact ⟨all u (mem_cons_of_mem _ later), fun e => apart.1 (e ▸ mem_map_of_mem later)⟩
    obtain ⟨hf, settled⟩ := settled_task hd sib he settled (all task mem_cons_self) others (within_ok.mp h1)
    refine ih hf settled (fun u hu => all u (perm.mem_iff.mp hu)) ?_ h2
    rw [(perm.map Task.call).nodup_iff]
    exact nodup_cons.mpr apart

end

/-- Where every dependency comes from a sibling, every region that is found presses back: its end is a
signal of all its starts, none of which has a signal twice, and its context records a stall by a region
with this context, which lists the start points of that region. -/
theorem regions_press_back {d d' : Design} {n : Nat} (hd : Built d) (sib : FromSiblings d)
    (h : (trackStalls).run d = .ok (.ok n, d')) : ∀ p ∈ d'.regions,
      (∀ s ∈ p.starts, p.finish.critical ∈ s.stallSignals ∧ s.stallSignals.Nodup) ∧
      ∃ m, d'.op? p.context = some m ∧ ∃ s ∈ m.stalls, 0 ≤ s.region ∧
        ∃ q, at? d'.regions s.region = some q ∧ q.context = p.context ∧ s.components = q.stallPoints := by
  have wf := hd.wellFormed
  obtain ⟨_, e, he, h⟩ := step_bind_ok.mp h
  cases step_modify_ok.mp he
  obtain ⟨f, g, hf, h⟩ := step_bind_ok.mp h
  obtain ⟨rfl, rfl⟩ := step_get_ok.mp hf
  obtain ⟨⟨⟩, e, tracked, h⟩ := step_bind_ok.mp h
  obtain ⟨g, g', hg, h⟩ := step_bind_ok.mp h
  obtain ⟨-, same⟩ := step_get_ok.mp hg
  rw [same] at h
  obtain ⟨-, rfl⟩ := step_pure_ok.mp h
  have start : Settled d (reset d) [] := by
    intro i p hp
    rw [show at? (reset d).regions i = none from at?_empty i] at hp
    cases hp
  have apart : (d.tasks.toList.map Task.call).Nodup := calls_nodup hd.called
  obtain ⟨running, done, settled⟩ := settled_tasks hd sib (running_reset wf hd.shaped) start
    (fun u hu => by simpa [reset] using hu) (by rw [append_nil]; exact apart) tracked
  intro p hp
  have hp := running.wf.regionIds.at?_of_mem (Array.mem_toList_iff.mpr hp)
  obtain ⟨heeds, stalled, -⟩ := settled hp
  exact ⟨fun s hs => ⟨heeds s hs, running.once hp s hs⟩, stalled⟩

def fromSibling (d : Design) (v : Dependency) : Bool :=
  (d.busOwner? v.source).all fun a => (d.port? v.target).all fun p =>
    (d.op? a).all fun s => (d.op? p.owner).all fun t =>
    s.owner == t.owner && (a != p.owner || (d.entryAt? v.entry).any Entry.feedback)

theorem fromSiblings_of_all (h : d.deps.toList.all (fromSibling d) = true) : FromSiblings d := by
  intro i v a p s t hv ha hp hs ht
  have one := all_eq_true.mp h v (Array.mem_toList_iff.mpr (mem_of_at? hv))
  simp only [fromSibling, ha, hp, hs, ht, Option.all_some, Bool.and_eq_true, Bool.or_eq_true, bne_iff_ne,
    Option.any_eq_true, beq_iff_eq] at one
  exact ⟨one.1, fun e => one.2.resolve_left fun ne => ne e⟩

def pressingCommands : List Command :=
  [.newResource .register "y" false, .newResource .memory "x" false, .newTask "t" 0 0 .zero true,
   .newAccess .memoryWrite 3 "v" 1 .one, .newLoop 3 "l" 0 0 .one, .start 7 4,
   .newAccess .registerRead 18 "a" 0 .zero, .newAccess .registerWrite 18 "b" 0 .one, .connect 24 19 28,
   .newAccess .memoryRead 3 "r" 1 .one, .start 24 6]

theorem nested_regions_press_back : ∃ d d' p q, runAll pressingCommands { name := "x" } = some d ∧ FromSiblings d ∧
    (trackStalls).run d = .ok (.ok 2, d') ∧ p ∈ d'.regions ∧ q ∈ d'.regions ∧ (p.context, q.context) = (18, 3) ∧
    ∀ r ∈ [p, q], (∀ s ∈ r.starts, r.finish.critical ∈ s.stallSignals ∧ s.stallSignals.Nodup) ∧
      ∃ m, d'.op? r.context = some m ∧ ∃ s ∈ m.stalls, 0 ≤ s.region ∧
        ∃ u, at? d'.regions s.region = some u ∧ u.context = r.context ∧ s.components = u.stallPoints := by
  obtain ⟨d, hd, siblings, n, d', h, rfl, p, hp, q, hq, contexts⟩ :
      ∃ d, runAll pressingCommands { name := "x" } = some d ∧ d.deps.toList.all (fromSibling d) = true ∧
      ∃ n d', (trackStalls).run d = .ok (.ok n, d') ∧ n = 2 ∧ ∃ p, at? d'.regions 0 = some p ∧
      ∃ q, at? d'.regions 1 = some q ∧ (p.context, q.context) = (18, 3) := by
    decide +kernel
  have siblings := fromSiblings_of_all siblings
  have all := regions_press_back ((Built.empty "x").runAll hd) siblings h
  refine ⟨d, d', p, q, hd, siblings, h, mem_of_at? hp, mem_of_at? hq, contexts, fun r hr => all r ?_⟩
  rcases mem_cons.mp hr with rfl | hr
  · exact mem_of_at? hp
  · rw [mem_singleton.mp hr]
    exact mem_of_at? hq

end Region

end Datapath
