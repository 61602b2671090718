import Datapath.Proofs.TidySteps
import Datapath.Proofs.Totality

/-!
# Builders that keep designs tidy

The calls that make branches, loops, tasks and the calls of tasks add several operations that drive
each other. Each of them leaves a tidy design.
-/

namespace Datapath

open List

variable {e g d d' : Design}

/-! ## Modules -/

theorem raises_newModule {id : Int} (v : Unfolds d' g)
    (h : newModule kind owner name inputs outputs latency d = .ok (id, d'))
    (fits : kind.fits ((g.place? owner).map Prod.fst) = true)
    (body : kind = .block → (g.place? owner).map Prod.fst = some .call → id = owner + 3)
    (whole : kind.isPlain = true ∨ ∀ {o}, at? g.ops id = some o → o.Whole g id) : Raises g M d d' := by
  obtain ⟨hid, here⟩ := placed_newModule.run h
  exact .module v (newModule_places h) (deps_kept.newModule.run h) (by simp) hid here (newModule_ok h).1 fits body
    whole

theorem raises_fork {id count : Int} {e' : Design} (v : Unfolds d' g)
    (framed : newFrame kind owner name inputs d = .ok (id, e))
    (left : addModuleExit id tag latency count e = .ok (x, e'))
    (right : addModuleExit id tag' latency' outputs e' = .ok (y, d')) (hk : kind = .decision ∨ kind = .whileBody)
    (fits : kind.fits ((g.place? owner).map Prod.fst) = true)
    (whole : kind.isPlain = true ∨ ∀ {o}, at? g.ops id = some o → o.Whole g id) : Raises g M d d' := by
  have a := deps_kept
  obtain ⟨hid, go, stem, -⟩ := newFrame_opens framed
  have more := (Grows.assembles (fun _ => True) fun _ => False).trans ((Grows.assembles _ _).addModuleExit.run left)
    ((Grows.assembles _ _).addModuleExit.run right)
  refine .module v ?_
    (a.trans (a.newFrame.run framed) (a.trans (a.addModuleExit.run left) (a.addModuleExit.run right)))
    (l := [(.outBuf, id), (.outBuf, id)]) (by simp) hid (more.place (place_of_stem stem)) ?_ fits ?_ whole
  · rw [addModuleExit_places right, addModuleExit_places left, newFrame_places framed, append_assoc, append_assoc]
    rfl
  · rcases hk with rfl | rfl <;> rfl
  · rcases hk with rfl | rfl <;> exact nofun

/-! ## Dependencies -/

theorem raises_depend {kind : DepKind} (face : view g.entries Entry.face entry = some (k, b)) (hM : M k)
    (up : b = false → ∃ s, Carried g source s ∧ Climbs g s k) :
    Along (Raises g M) (addDependency entry kind source target clocks) := by
  constructor
  intro d id d' h
  obtain ⟨rfl, -, _, _, _, -, -, -, -, rfl⟩ := addDependency_ok h
  refine ⟨.inl, fun {i v} hi => ?_⟩
  rw [at?_push] at hi
  split at hi
  · cases hi
    exact .inr ⟨k, b, face, hM, up⟩
  · exact .inl hi

theorem raises_drive {kind : DepKind} (face : view g.entries Entry.face entry = some (k, b))
    (carried : Carried g source s) (up : Climbs g s k) (hM : M k) :
    Along (Raises g M) (addDependency entry kind source target clocks) :=
      raises_depend face hM fun _ => ⟨s, carried, up⟩

theorem raises_connectAll (face : view g.entries Entry.face entry = some (k, b)) (carried : ∀ b ∈ bs, Carried g b s)
    (up : Climbs g s k) (hM : M k) : Along (Raises g M) (connectAll entry bs ps) := by
  have c := Raises.chains g M
  refine c.closed.forM_of_mem fun q hq => c.discard (c.ask_bind fun _ => ?_)
  exact raises_drive face (carried _ (of_mem_zip hq).1) up hM

section
variable (w : WellFormed g)
include w

section
variable (v : Unfolds d' g)
include v

theorem raises_start {id : DepId} (h : start k source d = .ok (id, d')) (carried : Carried g source s)
    (up : Climbs g s k) (hM : M k) : Raises g M d d' := by
  have v := Unfolds.chains.trans (Unfolds.builds.start.run h) v
  obtain ⟨o, ho, h⟩ := ask_bind_ok.mp h
  obtain ⟨e, he, h⟩ := ask_bind_ok.mp h
  obtain ⟨b, face⟩ := v.first w ho he
  exact (raises_drive face carried up hM).run h

theorem raises_finish {id : DepId} (h : finish mod tag k d = .ok (id, d'))
    (up : ∀ ob, g.place? ob = some (.outBuf, mod) → Climbs g k ob ∧ M ob) : Raises g M d d' := by
  have v := Unfolds.chains.trans (Unfolds.builds.finish.run h) v
  obtain ⟨ob, hob, h⟩ := ask_bind_ok.mp h
  obtain ⟨i, hi, hob⟩ := bind_ok.mp hob
  obtain ⟨e, he, h⟩ := ask_bind_ok.mp h
  obtain ⟨x, hx, h⟩ := ask_bind_ok.mp h
  obtain ⟨b, face⟩ := v.first w hob he
  obtain ⟨up, hM⟩ := up i (v.outBuf w hi (ne_absent (op_ok hob)))
  exact (raises_drive face (v.mainExit w hx _ mem_cons_self) up hM).run h

theorem raises_startSide (h : startSide decision tag side bs d = .ok (u, d')) (starts : Climbs g decision side)
    (carried : ∀ b ∈ bs, Carried g b ib) (feeds : Climbs g ib side) : Raises g (fun _ => True) d d' := by
  have v0 := Unfolds.chains.trans (Unfolds.builds.startSide.run h) v
  obtain ⟨x, hx, h⟩ := ask_bind_ok.mp h
  obtain ⟨_, e, started, h⟩ := build_bind_ok.mp h
  obtain ⟨q, hq, h⟩ := ask_bind_ok.mp h
  obtain ⟨i, hi, h⟩ := ask_bind_ok.mp h
  have v1 := Unfolds.chains.trans (Unfolds.builds.connectAll.run h) v
  obtain ⟨b, face⟩ := v1.first w hq hi
  exact (Raises.chains g _).trans (raises_start w v1 started (v0.exitOf w hx _ mem_cons_self) starts trivial)
    ((raises_connectAll face carried feeds trivial).run h)

theorem raises_finishSide (h : finishSide side ob entry d = .ok (u, d'))
    (face : view g.entries Entry.face entry = some (ob, b)) (up : Climbs g side ob) :
    Raises g (fun _ => True) d d' := by
  have v := Unfolds.chains.trans (Unfolds.builds.finishSide.run h) v
  obtain ⟨x, hx, h⟩ := ask_bind_ok.mp h
  obtain ⟨q, -, h⟩ := ask_bind_ok.mp h
  obtain ⟨_, e, ended, h⟩ := build_bind_ok.mp h
  have carried := v.mainExit w hx
  exact (Raises.chains g _).trans ((raises_drive face (carried _ mem_cons_self) up trivial).run ended)
    ((raises_connectAll face (fun c hc => carried c (mem_cons_of_mem _ hc)) up trivial).run h)

/-! ## Branches -/

theorem raises_newDecision {id : Int} (h : newDecision owner name d = .ok (id, d'))
    (fits : Kind.decision.fits ((g.place? owner).map Prod.fst) = true)
    (hM : ∀ {k j}, g.place? k = some (j, id) → M k) : Raises g M d d' := by
  have own := v.place (placed_newDecision.run h).2
  simp only [newDecision, build_bind_ok, ask_ok, build_pure_ok] at h
  obtain ⟨_, d1, h1, _, d2, h2, _, _, h3, o, d3, ⟨ho, rfl⟩, _, d4, h4, _, d5, h5, rfl, rfl⟩ := h
  have c := Raises.chains g M
  have t := Unfolds.builds
  have v4 := t.trans (t.finish.run h5) v
  have v3 := t.trans (t.finish.run h4) v4
  -- the input buffer completes both exits
  obtain ⟨-, q, _, _, _, _, hq, -, -, -, -, -, -, hib, -, -, -, -, -, front, -⟩ := newFrame_makes h1
  have v1 := t.trans (unfolds_addModuleExit.run h2) (unfolds_addModuleExit.run h3)
  obtain ⟨_, ho', stays⟩ := v1.op hq
  cases (op_ok ho).symm.trans ho'
  have up ob (hob : g.place? ob = some (.outBuf, id)) : Climbs g o.inBuf ob ∧ M ob := by
    refine ⟨climbs_front ?_ hob own (by decide), hM hob⟩
    rw [stays.inBuf]
    exact (t.trans v1 v3).place ((view_of _ hib).trans (congrArg some front))
  exact c.trans (raises_fork v3 h1 h2 h3 (.inl rfl) fits (.inl rfl))
    (c.trans (raises_finish w v4 h4 up) (raises_finish w v h5 up))

end

end

theorem raises_newBranch {id : Int} (w : WellFormed d')
    (hn : newBranch owner name inputs outputs latency d = .ok (id, d'))
    (fits : Kind.branch.fits ((d'.place? owner).map Prod.fst) = true) : Raises d' (fun _ => True) d d' := by
  obtain ⟨_, _, _, _, stem, forks, -⟩ := newBranch_forks (C := fun _ => True) hn
  simp only [Datapath.newBranch, ↓ask_bind_ok, build_bind_ok, build_pure_ok] at hn
  obtain ⟨id, d1, h1, ix, hix, bx, d2, h2, dec, d3, h3, _, d4, h4, _, d5, h5, trueSide, d6, h6, falseSide, d7, h7,
    _, d8, h8, _, d9, h9, _, e1, k1, ob, hob, te, hte, tx, -, _, e2, k2, fx, -, fe, e3, k3, _, e4, k4, _, _, k5,
    rfl, rfl⟩ := hn
  have made : newModule .branch owner name inputs outputs latency d = .ok (id, d2) :=
    build_bind_ok.mpr ⟨id, d1, h1, build_bind_ok.mpr ⟨bx, d2, h2, rfl⟩⟩
  -- what is made stays
  have t := Unfolds.builds
  have c := Raises.chains d' fun _ => True
  have v4 := t.finishSide.run k5
  have v3 := t.trans (t.finishSide.run k4) v4
  have v1 := t.trans (t.drive.run k2) (t.trans (t.enter.run k3) v3)
  have u9 := t.trans (t.startSide.run k1) v1
  have u8 := t.trans (t.startSide.run h9) u9
  have u7 := t.trans ((t.refer fun _ => by rfl).run h8) u8
  have u6 := t.trans (t.newModule.run h7) u7
  have u5 := t.trans (t.newModule.run h6) u6
  have u3 := t.trans ((t.refer fun _ => by rfl).run h4) (t.trans (t.start.run h5) u5)
  have u2 := t.trans (t.newDecision.run h3) u3
  have u1 := t.trans (unfolds_addModuleExit.run h2) u2
  obtain ⟨hid, pid⟩ := placed_newModule.run made
  obtain ⟨ht, pt⟩ := placed_newModule.run h6
  obtain ⟨hf, pf⟩ := placed_newModule.run h7
  have pdec3 := (placed_newDecision.run h3).2
  have pid := u2.place pid
  have pt := u6.place pt
  have pf := u7.place pf
  have pdec := u3.place pdec3
  obtain ⟨ib, pib, carried⟩ := u1.inBufExit w hix
  have inputs b (hb : b ∈ ix.buses) : Carried d' b ib := carried b (mem_cons_of_mem _ hb)
  have whole {o} (ho : at? d'.ops id = some o) : o.Whole d' id := by
    rw [← hid, view_of _ ho, Option.some.injEq] at stem
    rw [Operation.Whole, show o.kind = .branch from congrArg Stem.kind stem]
    show o.decision ≠ absent
    rw [show o.decision = _ from congrArg Stem.decision stem]
    exact ne_absent (view_some.mp forks.decision).choose_spec.1
  -- the decision comes before the sides
  have pdec5 := (t.trans ((t.refer fun _ => by rfl).run h4) (t.start.run h5)).place pdec3
  have before {side : Int} {e : Design} (here : side = e.ops.size) (there : e.place? dec = some (.decision, id))
      (ps : d'.place? side = some (.block, id)) : Climbs d' dec side :=
    ⟨_, _, _, _, _, pdec, ps, pid, .inr ⟨rfl, rfl, here ▸ (view_lt there).2⟩⟩
  -- both sides complete the branch
  obtain ⟨-, m, _, _, _, _, hm, -⟩ := newFrame_makes h1
  obtain ⟨-, q, -, z, -, hz, -, -, -, hq, -, qplace, -⟩ := addModuleExit_makes h2 hm
  obtain ⟨y, hy, hob⟩ := bind_ok.mp hob
  have pob : d'.place? y.peer = some (.outBuf, id) := by
    obtain ⟨y', hy', -, -, peer, -⟩ := v1.found (exit_ok hy)
    obtain ⟨z', hz', -, -, peer', -⟩ := u2.found hz
    cases hy'.symm.trans hz'
    rw [← peer, peer']
    exact u2.place ((view_of _ hq).trans (congrArg some qplace))
  obtain ⟨r, hr, stays⟩ := v1.op (op_ok hob)
  rw [← stays.id, w.nesting.ids _ _ hr] at k3 k4 k5
  obtain ⟨_, face⟩ := v1.first w hob hte
  obtain ⟨-, ⟨r, hr⟩, -⟩ := addEntry_ok k3
  obtain ⟨_, face'⟩ := v3.entry w (addEntry_makes k3 hr).1 (mem_append_right _ (mem_singleton_self _))
  refine c.trans (raises_newModule u2 made fits (by simp) (.inr whole)) <|
    c.trans (raises_newDecision w u3 h3 (by rw [pid]; rfl) fun _ => trivial) <|
    c.trans ((raises_changeOp fun _ => by rfl).run h4) <|
    c.trans (raises_start w u5 h5 (carried _ mem_cons_self) (climbs_front pib pdec pid (by decide)) trivial) <|
    c.trans (raises_newModule u6 h6 (by rw [pid]; rfl) (by rw [pid]; simp) (.inl rfl)) <|
    c.trans (raises_newModule u7 h7 (by rw [pid]; rfl) (by rw [pid]; simp) (.inl rfl)) <|
    c.trans ((raises_changeOp fun _ => by rfl).run h8) <|
    c.trans (raises_startSide w u9 h9 (before ht pdec5 pt) inputs (climbs_front pib pt pid (by decide))) <|
    c.trans (raises_startSide w v1 k1 (before hf ((t.newModule.run h6).place pdec5) pf) inputs
    (climbs_front pib pf pid (by decide))) <| c.trans (raises_changeEntry.run k2) <|
    c.trans (raises_addEntry.run k3) <|
    c.trans (raises_finishSide w v4 k4 face (climbs_back pt pob pid (by decide))) ?_
  exact raises_finishSide w (t.refl d') k5 face' (climbs_back pf pob pid (by decide))

/-! ## Loops -/

theorem register_whole {id : Int} (v : Unfolds d' g) (sits : AllSit (fun _ => False) g)
    (h : newPrimitive .reg owner name inputs outputs latency d = .ok (id, d')) (takes : 0 < inputs)
    (gives : 0 < outputs) (ho : at? g.ops id = some o) : o.Whole g id := by
  obtain ⟨-, q, _, x, y, hq, place, ports, -, -, exits, hy, buses, -⟩ := newPrimitive_makes h
  obtain ⟨_, ho', stays⟩ := v.op hq
  cases ho.symm.trans ho'
  have kind : o.kind = .reg := congrArg Prod.fst (stays.place.trans place)
  rw [Operation.Whole, kind]
  refine fun _ => ⟨fun none => ?_, fun z hz => ?_⟩
  · rw [← stays.ports, none, length_nil] at ports
    omega
  · obtain ⟨x', _, only, -⟩ := (sits.sits (fun no => no) ho).exit (by rw [kind]; rfl)
    obtain ⟨l, more⟩ := stays.exits
    rw [exits, only] at more
    cases more
    rw [only, mem_singleton] at hz
    obtain ⟨y', hy', -, -, -, -, same⟩ := v.found hy
    refine ⟨y', hz ▸ hy', fun none => ?_⟩
    rw [← same, none, length_nil] at buses
    omega

structure Loop.Shell.Lies (g : Design) (loop : OpId) (b : Loop.Shell) : Prop where
  place : g.place? b.body = some (.whileBody, loop)
  again : view g.exits Exit.owner b.again = some b.body
  entry : view g.entries Entry.face b.entry = some (b.body, true)
  front : ∃ ib, g.place? ib = some (.inBuf, b.body) ∧ ∀ c ∈ b.front.done :: b.front.buses, Carried g c ib

section
variable (w : WellFormed g) {b : Loop.Shell} (v : Unfolds d' g)
include w v

theorem makeBody_lies (h : Loop.makeBody loop name inputs outputs drive d = .ok (b, d')) :
    b.body = d.ops.size ∧ b.Lies g loop ∧ (g.place? loop = some (.loop, owner) →
      (∀ {o}, at? g.ops b.body = some o → o.Whole g b.body) → Raises g M d d') := by
  simp only [Loop.makeBody, ↓ask_bind_ok, build_bind_ok, build_pure_ok] at h
  obtain ⟨bd, d1, h1, front, hf, fb, d2, h2, cx, d3, h3, fe, d4, h4, _, d5, h5, ie, -, _, _, h6, rfl, rfl⟩ := h
  have t := Unfolds.builds
  have v5 := t.trans (t.drive.run h6) v
  have v3 := t.trans (t.enter.run h4) (t.trans (unfolds_feedback.run h5) v5)
  have v2 := t.trans (unfolds_addModuleExit.run h3) v3
  have v1 := t.trans (unfolds_addModuleExit.run h2) v2
  obtain ⟨hbd, o, _, _, _, _, ho, place, -⟩ := newFrame_makes h1
  obtain ⟨_, -, -, x, ho2, hx, -, own, -⟩ := addModuleExit_makes h2 ho
  obtain ⟨y, hy, -, own', -⟩ := v2.found hx
  obtain ⟨_, -, -, -, ho3, -⟩ := addModuleExit_makes h3 ho2
  obtain ⟨-, fed, -⟩ := feedback_made (T := fun _ => True) trivial ho3 h4 h5
  refine ⟨hbd, ⟨v1.place ((view_of _ ho).trans (congrArg some place)), ?_, v5.again fed, v1.inBufExit w hf⟩,
    fun pl whole => ?_⟩
  · rw [view_of _ hy, own', own]
  · have c := Raises.chains g M
    exact c.trans (raises_fork v3 h1 h2 h3 (.inr rfl) (by rw [pl]; rfl) (.inr whole)) <|
      c.trans (raises_addEntry.run h4) <| c.trans (raises_changeEntry.run h5) (raises_changeEntry.run h6)

variable (lies : b.Lies g loop)
include lies

theorem raises_wireBlock (pdec : g.place? dec = some (.decision, b.body))
    (pblk : g.place? blk = some (.block, b.body)) (lt : dec < blk)
    (hM : ∀ {k j}, g.place? k = some (j, b.body) → M k) (h : Loop.wireBlock b dec blk d = .ok ((), d')) :
    Raises g M d d' := by
  obtain ⟨pbd, again, -, ib, pib, carried⟩ := lies
  simp only [Loop.wireBlock, ↓ask_bind_ok, build_bind_ok, build_pure_ok] at h
  obtain ⟨_, d1, h1, holds, hh, _, d2, h2, o, hb, i, hi, _, d3, h3, fo, hf, _, d4, h4, _, he, j, hj, _, d5, h5, co,
    hc, fails, hfails, k, hk, _, _, h6, -, rfl⟩ := h
  have t := Unfolds.builds
  have c := Raises.chains g M
  have v5 := t.trans (t.depend.run h6) v
  have v4 := t.trans (t.connectAll.run h5) v5
  have v3 := t.trans (t.finish.run h4) v4
  have v2 := t.trans (t.connectAll.run h3) v3
  have v1 := t.trans (t.start.run h2) v2
  have back {s ob : OpId} {k : Kind} (ps : g.place? s = some (k, b.body)) (level : k.level .whileBody = 1)
      (pob : g.place? ob = some (.outBuf, b.body)) : Climbs g s ob := climbs_back ps pob pbd (by rw [level]; decide)
  obtain ⟨_, into⟩ := v2.first w hb hi
  -- the block ends in the exit that feeds back, the decision in the one that completes the loop
  obtain ⟨y, hy, hf⟩ := bind_ok.mp hf
  have pfb : g.place? y.peer = some (.outBuf, b.body) := by
    obtain ⟨z, hz, -, -, peer, -⟩ := v3.found (exit_ok hy)
    rw [view_of _ hz, Option.some.injEq] at again
    rw [← peer, ← again]
    exact w.outBufs hz (peer ▸ ne_absent (op_ok hf))
  obtain ⟨_, out⟩ := v3.first w hf hj
  obtain ⟨ob, hob, hc⟩ := bind_ok.mp hc
  obtain ⟨_, past⟩ := v5.first w hc hk
  refine c.trans (raises_start w v1 h1 (carried _ mem_cons_self) (climbs_front pib pdec pbd (by decide))
      (hM pdec)) <|
    c.trans (raises_start w v2 h2 (v1.exitOf w hh _ mem_cons_self)
      ⟨_, _, _, _, _, pdec, pblk, pbd, .inr ⟨rfl, rfl, lt⟩⟩ (hM pblk)) <|
    c.trans ((raises_connectAll into (fun b hb => carried b (mem_cons_of_mem _ hb))
      (climbs_front pib pblk pbd (by decide)) (hM pblk)).run h3) <|
    c.trans (raises_finish w v4 h4 fun _ pob => ⟨back pblk rfl pob, hM pob⟩) <|
    c.trans ((raises_connectAll out (fun b hb => v4.mainExit w he b (mem_cons_of_mem _ hb))
      (back pblk rfl pfb) (hM pfb)).run h5) ?_
  have pob := v5.outBuf w hob (ne_absent (op_ok hc))
  exact (raises_drive past (v5.exitOf w hfails _ mem_cons_self) (back pdec rfl pob) (hM pob)).run h6

theorem raises_fillBody (pl : g.place? loop = some (.loop, owner))
    (hM : ∀ {k j m}, m ≠ loop → g.place? k = some (j, m) → M k)
    (h : Loop.fillBody b.body name inputs d = .ok (p, e)) (h' : Loop.wireBlock b p.1 p.2 e = .ok ((), d')) :
    Raises g M d d' := by
  obtain ⟨dec, d1, h1, h⟩ := build_bind_ok.mp h
  obtain ⟨blk, d2, h2, h⟩ := build_bind_ok.mp h
  obtain ⟨_, _, h3, h⟩ := build_bind_ok.mp h
  cases h
  have t := Unfolds.builds
  have c := Raises.chains g M
  have v2 := t.trans ((t.refer fun _ => by rfl).run h3) (t.trans (t.wireBlock.run h') v)
  have v1 := t.trans (t.newModule.run h2) v2
  have pdec := (placed_newDecision.run h1).2
  obtain ⟨hblk, pblk⟩ := placed_newModule.run h2
  have inner {m : OpId} {k : Kind} (hm : g.place? m = some (k, b.body)) (hk : k ≠ .loop) : m ≠ loop := by
    rintro rfl
    cases hm.symm.trans pl
    exact hk rfl
  have ne : b.body ≠ loop := by
    intro same
    cases lies.place.symm.trans (same ▸ pl)
  exact c.trans (raises_newDecision w v1 h1 (by rw [lies.place]; rfl) (hM (inner (v1.place pdec) nofun))) <|
    c.trans (raises_newModule v2 h2 (by rw [lies.place]; rfl) (by rw [lies.place]; exact nofun) (.inl rfl)) <|
    c.trans ((raises_changeOp fun _ => by rfl).run h3) <|
    raises_wireBlock w v lies (v1.place pdec) (v2.place pblk) (hblk ▸ (view_lt pdec).2) (hM ne) h'

theorem raises_startBody (sits : AllSit (fun _ => False) g) (pl : g.place? loop = some (.loop, owner))
    (pib : g.place? ib = some (.inBuf, loop)) (carried : Carried g source ib)
    (h : Loop.startBody b loop source name d = .ok ((), d')) : Raises g (fun _ => True) d d' := by
  obtain ⟨pbd, again, fed, -⟩ := lies
  simp only [Loop.startBody, ↓ask_bind_ok, build_bind_ok, build_pure_ok] at h
  obtain ⟨_, d1, h1, _, d2, h2, ctl, d3, h3, _, d4, h4, cr, hcr, ce, hce, _, d5, h5, fbDone, hfd, _, -, _, d6, h6,
    _, -, _, -, _, d7, h7, _, _, h8, -, rfl⟩ := h
  have t := Unfolds.builds
  have c := Raises.chains g fun _ => True
  have v7 := t.trans (t.finish.run h8) v
  have v5 := t.trans (t.connect.run h6) (t.trans (t.depend.run h7) v7)
  have v4 := t.trans (t.drive.run h5) v5
  have v3 := t.trans ((t.note fun _ => by rfl).run h4) v4
  have v2 := t.trans (unfolds_newPrimitive.run h3) v3
  -- the control register
  obtain ⟨-, o, _, _, _, ho, place, -⟩ := newPrimitive_makes h3
  have pctl := v3.place ((view_of _ ho).trans (congrArg some place))
  obtain ⟨_, face⟩ := v4.first w hcr hce
  have ends : Carried g fbDone b.body := by
    obtain ⟨y, hy, hfd⟩ := bind_ok.mp hfd
    cases hfd
    obtain ⟨z, hz, -, -, -, done, -⟩ := v5.found (exit_ok hy)
    rw [view_of _ hz, Option.some.injEq] at again
    rw [← done, ← again]
    exact carried_exit w hz mem_cons_self
  refine c.trans ((raises_changeOp fun _ => by rfl).run h1) <|
    c.trans (raises_start w v2 h2 carried (climbs_front pib pbd pl (by decide)) trivial) <|
    c.trans (raises_newPrimitive v3 h3 (by rw [pl]; rfl) (by simp)
    (.inr (register_whole v3 sits h3 (by decide) (by decide)))) <|
    c.trans ((raises_changeOp fun _ => by rfl).run h4) <| c.trans (raises_changeEntry.run h5) <|
    c.trans (Along.run (c.ask_bind fun _ =>
      raises_drive face ends ⟨_, _, _, _, _, pbd, pctl, pl, .inl (by decide)⟩ trivial) h6) <|
    c.trans ((raises_depend fed trivial (by simp)).run h7) ?_
  exact raises_finish w v h8 fun ob hob => ⟨climbs_back pbd hob pl (by decide), trivial⟩

end

theorem raises_newLoop {id : Int} (w : WellFormed d') (sits : AllSit (fun _ => False) d')
    (hn : newLoop owner name inputs outputs latency d = .ok (id, d'))
    (fits : Kind.loop.fits ((d'.place? owner).map Prod.fst) = true) : Raises d' (fun _ => True) d d' := by
  obtain ⟨_, body, _, _, block, hid, hbody, stem, stem', pblock, -⟩ := newLoop_runs (C := fun _ => True) hn
  obtain ⟨e1, lx, dx, e2, b, e3, p, e4, e5, h1, hlx, h2, h3, h4, h5, h6⟩ := newLoop_ok hn
  have made : newModule .loop owner name inputs outputs latency d = .ok (id, e2) :=
    build_bind_ok.mpr ⟨id, e1, h1, build_bind_ok.mpr ⟨dx, e2, h2, rfl⟩⟩
  have t := Unfolds.builds
  have c := Raises.chains d' fun _ => True
  have v5 := t.startBody.run h6
  have v3 := t.trans (t.fillBody.run h4) (t.trans (t.wireBlock.run h5) v5)
  have v2 := t.trans ((t.makeBody (t.bind t.enter fun _ => unfolds_feedback)).run h3) v3
  obtain ⟨ib, pib, outer⟩ := (t.trans (unfolds_addModuleExit.run h2) v2).inBufExit w hlx
  have pid := place_of_stem stem
  obtain ⟨hb, lies, shell⟩ := makeBody_lies w v3 h3
  obtain rfl : b.body = body := by
    rw [hb, newModule_size made, hbody, hid]
    rfl
  have whole {i o} {s : Stem} (hs : view d'.ops Operation.stem i = some s) (ho : at? d'.ops i = some o) :
    o.stem = s :=
    Option.some.inj ((view_of _ ho).symm.trans hs)
  refine c.trans (raises_newModule v2 made fits nofun (.inr fun {o} ho => ?_)) <|
    c.trans (shell pid fun {o} ho => ?_) <| c.trans (raises_fillBody w v5 lies pid (fun _ _ => trivial) h4 h5)
      (raises_startBody w (t.refl d') lies sits pid pib (outer _ mem_cons_self) h6)
  · have same := whole stem ho
    rw [Operation.Whole, show o.kind = .loop from congrArg Stem.kind same]
    rw [show o.body = b.body from congrArg Stem.body same]
    exact place_of_stem stem'
  · have same := whole stem' ho
    rw [Operation.Whole, show o.kind = .whileBody from congrArg Stem.kind same]
    rw [show o.body = block from congrArg Stem.body same]
    exact ne_absent (view_some.mp pblock).choose_spec.1

/-! ## Tasks -/

theorem raises_newTask (w : WellFormed d')
    (hn : newTask name inputs outputs latency balanced d = .ok (task, d')) : Raises d' (fun _ => True) d d' := by
  simp only [newTask, ↓ask_bind_ok, build_bind_ok, build_pure_ok] at hn
  obtain ⟨call, d1, h1, cx, hcx, body, d2, h2, _, d3, h3, _, d4, h4, b, hb, i, hi, _, d5, h5, ob, hob, _, d6, h6,
    bx, hbx, j, hj, _, d7, h7, hn⟩ := hn
  have last : Unfolds d7 d' ∧ Raises d' (fun _ => True) d7 d' := by
    obtain ⟨_, _, ⟨⟩, _, _, ⟨⟩, -, rfl⟩ := hn
    exact ⟨.same (fun ho => ⟨_, ho, .refl _⟩) rfl rfl id id id, .same rfl rfl⟩
  -- what is made stays
  have t := Unfolds.builds
  have c := Raises.chains d' fun _ => True
  have u6 := t.trans (t.connectAll.run h7) last.1
  have u5 := t.trans (t.finish.run h6) u6
  have u4 := t.trans (t.connectAll.run h5) u5
  have u2 := t.trans ((t.refer fun _ => by rfl).run h3) (t.trans (t.start.run h4) u4)
  have u1 := t.trans (t.newModule.run h2) u2
  obtain ⟨hcall, pcall⟩ := placed_newModule.run h1
  obtain ⟨hbody, pbody⟩ := placed_newModule.run h2
  have pcall := u1.place pcall
  have pbody := u2.place pbody
  obtain ⟨ib, pib, carried⟩ := u1.inBufExit w hcx
  have front := climbs_front pib pbody pcall (by decide)
  have back ob (pob : d'.place? ob = some (.outBuf, call)) : Climbs d' body ob :=
    climbs_back pbody pob pcall (by decide)
  obtain ⟨_, into⟩ := u4.first w hb hi
  obtain ⟨k, out, hob⟩ := bind_ok.mp hob
  obtain ⟨_, past⟩ := u5.first w hob hj
  refine c.trans (raises_newModule u1 h1 (by rw [Design.place?, view_absent]; rfl) (by simp) (.inl rfl)) <|
    c.trans (raises_newModule u2 h2 (by rw [pcall]; rfl) (fun _ _ => ?_) (.inl rfl)) <|
    c.trans ((raises_changeOp fun _ => by rfl).run h3) <|
    c.trans (raises_start w u4 h4 (carried _ mem_cons_self) front trivial) <|
    c.trans ((raises_connectAll into (fun b hb => carried b (mem_cons_of_mem _ hb)) front trivial).run h5) <|
    c.trans (raises_finish w u6 h6 fun ob pob => ⟨back ob pob, trivial⟩) <| c.trans (Along.run ?_ h7) last.2
  · rw [hbody, newModule_size h1, hcall]
    rfl
  · exact raises_connectAll past (fun b hb => u6.mainExit w hbx b (mem_cons_of_mem _ hb))
      (back k (u5.outBuf w out (ne_absent (op_ok hob)))) trivial

theorem raises_newTaskCall {id : Int} (hs : Shaped d) (hn : newTaskCall owner name task d = .ok (id, d'))
    (fits : Kind.taskCall.fits ((d'.place? owner).map Prod.fst) = true) (top : Top d owner r)
    (lt : ∀ a, view d.tasks Task.call task = some a → a < r) : Raises d' (fun _ => True) d d' := by
  have u := Unfolds.builds.newTaskCall.run hn
  unfold newTaskCall at hn
  simp only [↓ask_bind_ok, build_bind_ok, build_pure_ok] at hn
  obtain ⟨t, ht, c, hc, x, -, id, d1, h1, _, d2, h2, rfl, rfl⟩ := hn
  have u1 := (Unfolds.builds.refer fun _ => by rfl).run h2
  have call := view_of Task.call (require_ok.mp ht)
  obtain ⟨s, hs, called⟩ := hs.tasks call
  have body : d.place? c.body = some (.block, t.call) := by
    rw [view_of _ (op_ok hc)] at hs
    cases hs
    exact called.body
  refine (Raises.chains _ _).trans (raises_newModule u1 h1 fits nofun (.inr fun {o} ho => ?_))
    ((raises_changeOp fun _ => by rfl).run h2)
  obtain ⟨q, hq, qkind, qown⟩ := op_of_place (placed_newModule.run h1).2
  cases (changeOp_makes h2 hq).symm.trans ho
  rw [Operation.Whole, show Operation.kind { q with body := c.body } = .taskCall from qkind]
  obtain ⟨lies, outer⟩ := top.grow u.place
  exact ⟨t.call, r, u.place body, ⟨.head ⟨_, ho, qown⟩ lies, outer⟩, lt _ call⟩

/-! ## Primitives -/

theorem raises_newConstant {id : Int} (hn : newConstant owner name value d = .ok (id, d'))
    (fits : Kind.constant.fits ((d'.place? owner).map Prod.fst) = true) : Raises d' (fun _ => True) d d' := by
  simp only [newConstant, ↓ask_bind_ok, build_bind_ok, build_pure_ok] at hn
  obtain ⟨id, d1, h1, _, d2, h2, o, -, x, -, b, -, _, d3, h3, rfl, rfl⟩ := hn
  have t := Unfolds.builds
  have c := Raises.chains d' fun _ => True
  have u := t.trans ((t.note fun _ => by rfl).run h2) (t.mark.run h3)
  refine c.trans (raises_newPrimitive u h1 fits nofun (.inl rfl))
    (c.trans ((raises_changeOp fun _ => by rfl).run h2) ?_)
  obtain ⟨_, -, h3⟩ := bind_ok.mp h3
  cases h3
  exact .same rfl rfl

theorem raises_newAccess {id : Int} (hn : newAccess kind owner name resource latency d = .ok (id, d'))
    (fits : kind.fits ((d'.place? owner).map Prod.fst) = true) : Raises d' (fun _ => True) d d' := by
  obtain ⟨r, inputs, outputs, d1, hr, access, h1, rfl⟩ := newAccess_ok hn
  refine (Raises.chains _ _).trans (raises_newPrimitive (Unfolds.builds.assign (ne_absent hr)) h1 fits ?_
    (.inr fun {o} ho => ?_))
    (.same (view_edit_same _ _ fun _ => by rfl) rfl)
  · rintro rfl
    cases access
  · obtain ⟨-, q, _, _, _, hq, place, -⟩ := newPrimitive_makes h1
    rw [at?_editAt, if_pos rfl, hq] at ho
    cases ho
    rw [Operation.Whole, show Operation.kind { q with resource } = kind from congrArg Prod.fst place]
    split
    case h_6 => exact fun _ => ne_absent hr
    all_goals cases access

/-! ## Tidy designs -/

theorem Operation.Whole.stay (h : o.Whole d i) (hd : WellFormed d) (ho : at? d.ops i = some o) (u : Unfolds d d')
    (s : o.Stays p) (stem : p.stem = o.stem) (sits : o.Sits d i) (sits' : p.Sits d' i) : p.Whole d' i := by
  have kind : p.kind = o.kind := congrArg Stem.kind stem
  have own : p.owner = o.owner := congrArg Stem.owner stem
  have body : p.body = o.body := congrArg Stem.body stem
  unfold Operation.Whole at h ⊢
  rw [kind]
  split at h
  case h_1 =>
    have decision : p.decision = o.decision := congrArg Stem.decision stem
    exact decision ▸ h
  case h_2 => exact body ▸ u.place h
  case h_3 => exact body ▸ h
  case h_4 =>
    obtain ⟨k, r, there, top, lt⟩ := h
    exact ⟨k, r, body ▸ u.place there, top.grow u.place, lt⟩
  case h_5 reg =>
    intro loop
    rw [own, hd.owner_place ho u.place] at loop
    obtain ⟨ports, buses⟩ := h loop
    refine ⟨s.ports ▸ ports, fun x hx => ?_⟩
    -- both have one exit
    obtain ⟨_, _, only, -⟩ := sits.exit (by rw [reg]; rfl)
    obtain ⟨_, _, only', -⟩ := sits'.exit (by rw [kind, reg]; rfl)
    obtain ⟨l, more⟩ := s.exits
    rw [only, only'] at more
    cases more
    obtain ⟨y, hy, ne⟩ := buses x (by rw [only, ← only']; exact hx)
    obtain ⟨z, hz, -, -, -, -, same⟩ := u.found hy
    exact ⟨z, hz, same ▸ ne⟩
  case h_6 => exact fun access => s.resource (h access)

theorem Orderly.raise (hd : Orderly d) (w : WellFormed d') (u : Unfolds d d')
    (stem : ∀ {i s}, view d.ops Operation.stem i = some s → view d'.ops Operation.stem i = some s)
    (all : AllSit (fun _ => False) d') (r : Raises d' (fun _ => True) d d')
    (tasks : ∀ {i j a b : Int}, i < j → view d'.tasks Task.call i = some a → view d'.tasks Task.call j = some b →
        a < b) : Tidy d' where
  lodged hi := (r.place hi).elim (fun old => (hd.tidy.lodged old).grow hd.wf old u.place) And.left
  sits := all.sits fun no => no
  whole {i o} ho := by
    rcases r.place (place_of_op ho) with old | ⟨-, whole⟩
    · obtain ⟨q, hq, -⟩ := view_some.mp old
      obtain ⟨_, ho', stays⟩ := u.op hq
      cases ho.symm.trans ho'
      refine (hd.tidy.whole hq).stay hd.wf hq u stays ?_ (hd.tidy.sits hq) (all.sits (fun no => no) ho)
      exact Option.some.inj ((view_of _ ho).symm.trans (stem (view_of _ hq)))
    · exact whole ho
  tasks := tasks
  rises e i face v hv := by
    obtain ⟨n, hn, own⟩ := view_some.mp face
    rw [depsIn_of hn] at hv
    obtain ⟨j, hj, hv⟩ := mem_filterMap.mp hv
    obtain ⟨_, hv', entry⟩ := w.deps.holds hn j hj
    cases hv.symm.trans hv'
    have entry := Option.some.inj entry
    rcases r.dep hv with old | up
    · obtain ⟨m, hm, mem⟩ := hd.wf.deps.held old rfl
      obtain ⟨o, ho, inside⟩ := hd.wf.entries.held hm rfl
      obtain ⟨_, face'⟩ := u.entry w ho inside
      rw [entry] at hm face'
      cases face.symm.trans face'
      have first : m.feedback = false := by
        cases again : m.feedback with
        | false => rfl
        | true => cases (u.again (view_some.mpr ⟨m, hm, Prod.ext rfl again⟩)).symm.trans face
      obtain ⟨s, carried, climbs⟩ := hd.tidy.rises (view_some.mpr ⟨m, hm, Prod.ext rfl first⟩) v (by
        rw [depsIn_of hm]
        exact mem_filterMap.mpr ⟨j, mem, old⟩)
      exact ⟨s, u.carried carried, climbs.mono u.place⟩
    · obtain ⟨_, _, face', -, up⟩ := up
      cases (entry ▸ face').symm.trans face
      exact up rfl

end Datapath
