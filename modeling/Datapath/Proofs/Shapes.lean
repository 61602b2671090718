import Datapath.Proofs.Builders
import Datapath.Proofs.Nested
import Datapath.Proofs.Additions

/-!
# The shapes of modules

A branch owns its decision and its two sides, unless it is made as a plain module and has none, a loop
runs its body, the body runs its block and a call runs the block of a task. No step changes this once a
module is complete: operations keep their stem, the part of them that says what they run.
-/

namespace Datapath

variable {d d' : Design} {s : Stem}

def Design.place? (d : Design) (i : OpId) : Option (Kind × OpId) := view d.ops Operation.place i

theorem place_of_op (h : d.op? i = some o) : d.place? i = some (o.kind, o.owner) := view_of _ h

theorem op_of_place (h : d.place? i = some p) : ∃ o, d.op? i = some o ∧ o.kind = p.1 ∧ o.owner = p.2 := by
  obtain ⟨o, ho, place⟩ := view_some.mp h
  exact ⟨o, ho, congrArg Prod.fst place, congrArg Prod.snd place⟩

theorem kind_of_op (h : d.op? i = some o) : (d.place? i).map Prod.fst = some o.kind := by
  rw [place_of_op h]
  rfl

theorem Operation.place_of {owner : OpId} {kind : Kind} (ho : at? d.ops i = some o)
  (h : d.place? i = some (kind, owner)) :
    o.kind = kind ∧ o.owner = owner := by
  rw [place_of_op ho] at h
  cases h
  exact ⟨rfl, rfl⟩

def Carried (d : Design) (b : BusId) (op : OpId) : Prop :=
  ∃ x, view d.buses Bus.exit b = some x ∧ view d.exits Exit.owner x = some op

theorem carried_exit (hd : WellFormed d) (hx : at? d.exits i = some x)
    (hb : b ∈ x.done :: x.buses) : Carried d b x.owner := by
  obtain ⟨bus, hbus, exit⟩ := hd.buses.holds hx b hb
  exact ⟨i, view_some.mpr ⟨bus, hbus, Option.some.inj exit⟩, view_of _ hx⟩

theorem Carried.busOwner? (h : Carried d b op) : d.busOwner? b = some op := by
  obtain ⟨x, hb, hx⟩ := h
  rw [busOwner?_eq, hb]
  exact hx

/-- The decision and the two sides of a branch belong to it, and so does the input buffer that shows
its go port. -/
structure Stem.Forks (d : Design) (i : OpId) (s : Stem) : Prop where
  decision : d.place? s.decision = some (.decision, i)
  trueSide : d.place? s.trueSide = some (.block, i)
  falseSide : d.place? s.falseSide = some (.block, i)
  sides : s.trueSide ≠ s.falseSide
  go : ∃ b ib, view d.ports Port.peer s.go = some b ∧ Carried d b ib ∧ d.place? ib = some (.inBuf, i)

structure Stem.Shaped (C : OpId → Prop) (d : Design) (i : OpId) (s : Stem) : Prop where
  forks : s.kind = .branch → s.decision = absent ∧ s.trueSide = absent ∧ s.falseSide = absent ∨ s.Forks d i
  calls : s.kind = .taskCall → s.body ≠ absent → C s.body
  loops : s.kind = .loop → s.body ≠ absent → d.place? s.body = some (.whileBody, i)
  bodies : s.kind.isLoopBody = true → s.body ≠ absent → d.place? s.body = some (.block, i)

structure Stem.Called (d : Design) (i : OpId) (s : Stem) : Prop where
  kind : s.kind = .call
  owner : s.owner = absent
  body : d.place? s.body = some (.block, i)

/-- The block is the body of a task. -/
def Design.IsTaskBody (d : Design) (b : OpId) : Prop :=
  ∃ i call s, view d.tasks Task.call i = some call ∧ view d.ops Operation.stem call = some s ∧ s.body = b

structure Shaped (d : Design) : Prop where
  ops : ∀ {i s}, view d.ops Operation.stem i = some s → s.Shaped d.IsTaskBody d i
  tasks : ∀ {i call}, view d.tasks Task.call i = some call →
    ∃ s, view d.ops Operation.stem call = some s ∧ s.Called d call

/-! ## Growth -/

/-- From one design to the next, operations keep their stem and ports and buses stay where they are.
Operations that are new are shaped and call only what `C` allows. Those in `K` are still being built. -/
structure Grows (C K : OpId → Prop) (d d' : Design) : Prop where
  place : ∀ {i p}, d.place? i = some p → d'.place? i = some p
  peer : ∀ {p b}, b ≠ absent → view d.ports Port.peer p = some b → view d'.ports Port.peer p = some b
  bus : ∀ {b x}, view d.buses Bus.exit b = some x → view d'.buses Bus.exit b = some x
  exit : ∀ {x o}, view d.exits Exit.owner x = some o → view d'.exits Exit.owner x = some o
  tasks : view d'.tasks Task.call = view d.tasks Task.call
  stem : ∀ {i s}, ¬ K i → view d.ops Operation.stem i = some s → view d'.ops Operation.stem i = some s
  shaped : ∀ {i s}, ¬ K i → view d'.ops Operation.stem i = some s →
    view d.ops Operation.stem i = some s ∨ s.Shaped C d' i

abbrev Widens (C : OpId → Prop) : Design → Design → Prop := Grows C fun _ => False

section
variable {e : Design}

theorem Design.place?_eq : d.place? i = (view d.ops Operation.stem i).map fun s => (s.kind, s.owner) := by
  unfold place? view
  cases at? d.ops i <;> rfl

theorem place_of_stem (h : view d.ops Operation.stem i = some s) : d.place? i = some (s.kind, s.owner) := by
  rw [Design.place?_eq, h]; rfl

theorem Grows.refl (C K : OpId → Prop) (d : Design) : Grows C K d d :=
  ⟨id, fun _ => id, id, id, rfl, fun _ => id, fun _ => .inl⟩

theorem Grows.carried (g : Grows C K d d') (h : Carried d b op) : Carried d' b op := by
  obtain ⟨x, hb, hx⟩ := h
  exact ⟨x, g.bus hb, g.exit hx⟩

theorem Carried.ne_absent (h : Carried d b op) : b ≠ absent := by
  rintro rfl
  obtain ⟨x, hx, -⟩ := h
  cases hx

theorem Grows.forks (g : Grows C K d d') (h : s.Forks d i) : s.Forks d' i := by
  obtain ⟨b, ib, hb, hc, hib⟩ := h.go
  exact ⟨g.place h.decision, g.place h.trueSide, g.place h.falseSide, h.sides,
    b, ib, g.peer hc.ne_absent hb, g.carried hc, g.place hib⟩

theorem Grows.keeps_shaped (g : Grows C K d d') (h : s.Shaped C d i) : s.Shaped C d' i where
  forks hk := (h.forks hk).imp_right g.forks
  calls := h.calls
  loops hk hb := g.place (h.loops hk hb)
  bodies hk hb := g.place (h.bodies hk hb)

theorem Grows.trans (g : Grows C K d e) (g' : Grows C K e d') : Grows C K d d' where
  place h := g'.place (g.place h)
  peer hb h := g'.peer hb (g.peer hb h)
  bus h := g'.bus (g.bus h)
  exit h := g'.exit (g.exit h)
  tasks := g'.tasks.trans g.tasks
  stem hi h := g'.stem hi (g.stem hi h)
  shaped hi h := by
    rcases g'.shaped hi h with h | h
    · exact (g.shaped hi h).imp_right g'.keeps_shaped
    · exact .inr h

theorem Grows.mono (g : Grows C K d d') (h : ∀ i, K i → K' i) : Grows C K' d d' :=
  { g with
    stem := fun hi => g.stem fun hk => hi (h _ hk)
    shaped := fun hi => g.shaped fun hk => hi (h _ hk) }

theorem Grows.close (g : Grows C T d d')
    (h : ∀ {i s}, T i → view d'.ops Operation.stem i = some s → s.Shaped C d' i)
    (new : ∀ i : Int, T i → d.ops.size ≤ i) : Grows C K d d' :=
  { g with
    stem := by
      intro i s hi hs
      refine g.stem (fun hk => ?_) hs
      have := view_lt hs
      have := new i hk
      omega
    shaped := by
      intro i s hi hs
      by_cases hk : T i
      · exact .inr (h hk hs)
      · exact g.shaped hk hs }

theorem Grows.same (ops : view d'.ops Operation.stem = view d.ops Operation.stem)
    (peers : ∀ {p b}, b ≠ absent → view d.ports Port.peer p = some b → view d'.ports Port.peer p = some b)
    (buses : ∀ {b x}, view d.buses Bus.exit b = some x → view d'.buses Bus.exit b = some x)
    (exits : ∀ {x o}, view d.exits Exit.owner x = some o → view d'.exits Exit.owner x = some o)
    (tasks : view d'.tasks Task.call = view d.tasks Task.call) : Grows C K d d' where
  place h := by
    rw [Design.place?_eq] at h ⊢
    rw [ops]
    exact h
  peer := peers
  bus := buses
  exit := exits
  tasks := tasks
  stem _ h := ops ▸ h
  shaped _ h := .inl (ops ▸ h)

end

theorem Grows.chains (C K : OpId → Prop) : Chains (Grows C K) := ⟨Grows.refl C K, Grows.trans⟩

theorem Grows.aside (h : Aside d d') : Grows C K d d' :=
  .same (by rw [h.ops]) (by rw [h.ports]; exact fun _ => id) (by rw [h.buses]; exact id) (by rw [h.exits]; exact id)
    h.tasks

/-! ## Steps of building -/

theorem grows_setLatency : Along (Grows C K) (setLatency op latency) := by
  constructor
  intro d u d' h
  obtain ⟨x, rfl⟩ := setLatency_ok h
  exact .same rfl (fun _ hp => hp) id (view_edit_of fun _ => rfl) rfl

theorem grows_changeOp (hf : ∀ o, (f o).stem = o.stem) : Along (Grows C K) (changeOp k f) := by
  constructor
  intro d u d' h
  obtain ⟨-, rfl⟩ := changeOp_ok h
  exact .same (view_edit_same _ _ hf) (fun _ hp => hp) id id rfl

theorem grows_changeOpen (hk : K k) (hf : ∀ o, (f o).place = o.place) : Along (Grows C K) (changeOp k f) := by
  constructor
  intro d u d' h
  obtain ⟨-, rfl⟩ := changeOp_ok h
  have other : ∀ {i}, ¬ K i → view (editAt d.ops k f) Operation.stem i = view d.ops Operation.stem i := by
    intro i hi
    have ne : i ≠ k := fun e => hi (e ▸ hk)
    simp only [view, at?_editAt, if_neg ne]
  constructor
  · intro i p hp
    unfold Design.place? at hp ⊢
    rw [view_edit_same _ _ hf]
    exact hp
  · exact fun _ hp => hp
  · exact id
  · exact id
  · rfl
  · exact fun hi hs => (other hi).trans hs
  · exact fun hi hs => .inl ((other hi).symm.trans hs)

theorem grows_changeEntry {f : Entry → Entry} : Along (Grows C K) (changeEntry k f) := by
  constructor
  intro d u d' h
  obtain ⟨-, rfl⟩ := changeEntry_ok h
  exact .same rfl (fun _ hp => hp) id id rfl

theorem grows_addExit : Along (Grows C K) (addExit op tag latency count) := by
  constructor
  intro d id d' h
  obtain ⟨-, -, rfl⟩ := addExit_ok h
  refine .same ?_ (fun _ hp => hp) (fun hb => view_append_of _ _ (view_push_of _ hb)) (view_push_of _) rfl
  exact view_edit_same _ _ fun _ => rfl

/-! ### Peers -/

theorem linkPeers_fold {l : List (PortId × BusId)} : let d' := l.foldl (fun d (p, b) =>
      (d.editPort p fun q => { q with peer := b }).editBus b fun c => { c with peer := p }) d
    d'.ops = d.ops ∧ d'.exits = d.exits ∧ d'.tasks = d.tasks ∧
      view d'.buses Bus.exit = view d.buses Bus.exit ∧
      ∀ p, p ∉ l.map Prod.fst → view d'.ports Port.peer p = view d.ports Port.peer p := by
  induction l generalizing d with
  | nil => exact ⟨rfl, rfl, rfl, rfl, fun _ _ => rfl⟩
  | cons q l ih =>
    obtain ⟨h1, h2, h3, h4, h5⟩ := ih (d := (d.editPort q.1 fun p => { p with peer := q.2 }).editBus q.2
      fun c => { c with peer := q.1 })
    refine ⟨h1, h2, h3, h4.trans (view_edit_same _ _ fun _ => rfl), ?_⟩
    intro p hp
    simp only [List.map_cons, List.mem_cons, not_or] at hp
    rw [List.foldl_cons, h5 p hp.2]
    change view (editAt d.ports q.1 _) Port.peer p = _
    simp only [view, at?_editAt, if_neg hp.1]

theorem grows_linkPeers (hp : ∀ p ∈ ps, view d.ports Port.peer p = some absent)
    (h : linkPeers ps bs d = .ok (u, d')) : Grows C K d d' := by
  cases h
  obtain ⟨h1, h2, h3, h4, h5⟩ := linkPeers_fold (d := d) (l := ps.zip bs)
  refine .same (by dsimp only; rw [h1]) ?_ (by dsimp only; rw [h4]; exact id) (by dsimp only; rw [h2]; exact id)
    (by dsimp only; rw [h3])
  intro p b hb h
  rw [h5 p ?_]
  · exact h
  · intro hm
    obtain ⟨q, hq, rfl⟩ := List.mem_map.mp hm
    rw [hp q.1 (List.of_mem_zip hq).1] at h
    cases h
    exact hb rfl

/-! ### New operations -/

theorem Stem.new_shaped {owner : OpId} {kind : Kind} {go : PortId} : (Stem.new kind owner go).Shaped C d i :=
  ⟨fun _ => .inl ⟨rfl, rfl, rfl⟩, fun _ e => absurd rfl e, fun _ e => absurd rfl e, fun _ e => absurd rfl e⟩

theorem addOp_opens {id owner : OpId} (h : addOp kind owner name d = .ok (id, d')) : id = d.ops.size ∧
      Grows C (· = id) d d' ∧ view d'.ops Operation.stem id = some (.new kind owner d.ports.size) := by
  obtain ⟨rfl, -, rfl⟩ := addOp_ok h
  have stems : view (editAt (d.ops.push { id := d.ops.size, kind, name, owner, go := d.ports.size }) owner fun m =>
      { m with children := m.children ++ [(d.ops.size : Int)] }) Operation.stem =
      put (view d.ops Operation.stem) d.ops.size (.new kind owner d.ports.size) := by
    rw [view_edit_same, view_push]
    · rfl
    · exact fun _ => rfl
  refine ⟨rfl, ?_, by dsimp only; rw [stems, put_self]⟩
  constructor
  · intro i p hp
    have := view_lt hp
    rw [Design.place?_eq] at hp ⊢
    rw [stems, put_ne _ (by omega)]
    exact hp
  · exact fun _ hp => view_push_of _ hp
  · exact id
  · exact id
  · rfl
  · exact fun hi hs => by dsimp only; rw [stems, put_ne _ hi]; exact hs
  · exact fun hi hs => .inl (by dsimp only at hs; rw [stems, put_ne _ hi] at hs; exact hs)

theorem grows_addOp : Along (Grows C K) (addOp kind owner name) := by
  constructor
  intro d id d' h
  obtain ⟨hid, g, hs⟩ := addOp_opens h
  refine g.close ?_ ?_
  · rintro i s rfl hs'
    rw [hs] at hs'
    cases hs'
    exact Stem.new_shaped
  · rintro i rfl
    exact Int.le_of_eq hid.symm

theorem Grows.assembles (C K : OpId → Prop) : Assembles (Grows C K) :=
  { Grows.chains C K with
    op := grows_addOp
    ports := ⟨fun h => by
      rw [addPorts_ok h]
      exact .same (view_edit_same _ _ fun _ => rfl) (fun _ hp => view_append_of _ _ hp) id id rfl⟩
    exit := grows_addExit
    entry := ⟨fun h => by
      obtain ⟨-, -, rfl⟩ := addEntry_ok h
      exact .same (view_edit_same _ _ fun _ => rfl) (fun _ hp => hp) id id rfl⟩
    front := grows_changeOp fun _ => rfl
    peers := grows_linkPeers
    complete := ⟨fun h => by
      obtain ⟨-, rfl⟩ := changeExit_ok h
      exact .same rfl (fun _ hp => hp) id (view_edit_of fun _ => rfl) rfl⟩ }

theorem Operation.stem_of_base {o p : Operation} (h : o.base = p.base) : o.stem = p.stem :=
  show o.base.stem = p.base.stem by rw [h]

theorem Grows.connects : Connects (Grows C K) :=
  Aside.connects Grows.aside (Grows.assembles C K)
    (fun hf => grows_changeOp fun o => Operation.stem_of_base (hf o)) fun _ =>
    .same (view_edit_same _ _ fun _ => rfl) (fun _ hp => hp) id id rfl

theorem Grows.builds : Builds (Grows C fun _ => True) :=
  { Grows.connects with
    refer := fun {_ f} hf => grows_changeOpen trivial fun o => show (f o).core.place = o.core.place by rw [hf] }

theorem newFrame_opens {id owner : OpId} (h : newFrame kind owner name inputs d = .ok (id, d')) :
    id = d.ops.size ∧ ∃ go, view d'.ops Operation.stem id = some (.new kind owner go) ∧
      ∃ b ib, view d'.ports Port.peer go = some b ∧ Carried d' b ib ∧ d'.place? ib = some (.inBuf, id) := by
  obtain ⟨hid, o, q, e, x, y, ho, -, -, -, -, -, -, hq, -, hy, -, own, -, place, -, -, -, -, peer, bus, stem⟩ :=
    newFrame_makes h
  refine ⟨hid, o.go, stem ▸ view_of _ ho, y.done, o.inBuf, peer, ⟨x, bus, ?_⟩, place ▸ view_of _ hq⟩
  rw [view_of _ hy, own]

/-! ### Modules -/

structure Placed (kind : Kind) (owner : OpId) (m : Build OpId) : Prop where
  run : ∀ {d id d'}, m d = .ok (id, d') → id = d.ops.size ∧ d'.place? id = some (kind, owner)

theorem newModule_opens {id owner : OpId} (h : newModule kind owner name inputs outputs latency d = .ok (id, d')) :
    id = d.ops.size ∧ ∃ go, view d'.ops Operation.stem id = some (.new kind owner go) ∧
      ∃ b ib, view d'.ports Port.peer go = some b ∧ Carried d' b ib ∧ d'.place? ib = some (.inBuf, id) := by
  obtain ⟨-, e, _, framed, left⟩ := newModule_ok h
  obtain ⟨hid, go, stem, b, ib, hb, hc, place⟩ := newFrame_opens framed
  have g := (Grows.assembles (fun _ => True) fun _ => False).addModuleExit.run left
  exact ⟨hid, go, g.stem (fun no => no) stem, b, ib, g.peer hc.ne_absent hb, g.carried hc, g.place place⟩

theorem placed_newModule : Placed kind owner (newModule kind owner name inputs outputs latency) := by
  constructor
  intro d id d' h
  obtain ⟨hid, go, stem, -⟩ := newModule_opens h
  exact ⟨hid, place_of_stem stem⟩

theorem placed_newDecision : Placed .decision owner (newDecision owner name) := by
  constructor
  intro d id d' h
  simp only [newDecision, build_bind_ok, ask_ok, build_pure_ok] at h
  obtain ⟨_, d1, h1, _, d2, h2, _, _, h3, _, d3, ⟨-, rfl⟩, _, d4, h4, _, _, h5, rfl, rfl⟩ := h
  have c : Connects (Widens fun _ => True) := Grows.connects
  have a := Grows.assembles (fun _ => True) fun _ => False
  obtain ⟨hid, go, stem, -⟩ := newFrame_opens h1
  have g3 := c.trans (a.addModuleExit.run h2) (a.addModuleExit.run h3)
  have g5 := c.trans (c.finish.run h4) (c.finish.run h5)
  exact ⟨hid, g5.place (g3.place (place_of_stem stem))⟩

theorem changeOp_stem {F : Stem → Stem} (h : changeOp k f d = .ok (u, d'))
    (hs : view d.ops Operation.stem k = some s) (hF : ∀ o, (f o).stem = F o.stem) :
    view d'.ops Operation.stem k = some (F s) := by
  obtain ⟨-, rfl⟩ := changeOp_ok h
  obtain ⟨o, ho, rfl⟩ := view_some.mp hs
  rw [view_edit ho, put_self, hF]

theorem newBranch_forks {id owner : OpId} (h : newBranch owner name inputs outputs latency d = .ok (id, d')) :
    ∃ go decision trueSide falseSide,
      let s : Stem := { Stem.new .branch owner go with decision, trueSide, falseSide }
      view d'.ops Operation.stem d.ops.size = some s ∧ s.Forks d' d.ops.size ∧
        Grows C (fun i : Int => i = d.ops.size) d d' := by
  obtain ⟨id, d2, decision, d3, d4, _, _, d5, trueSide, d6, falseSide, d7, d8, made, h3, h4, h5, h6, h7, h8,
    rest⟩ :=
    newBranch_split h
  have c : Connects (Widens C) := Grows.connects
  have g9 := rest c
  -- the branch and its input buffer
  obtain ⟨hid, go, s2, b, ib, hb, hc, hib⟩ := newModule_opens made
  have g3 := c.newDecision.run h3
  -- its decision
  have open4 : Grows C (· = id) d3 d4 := (grows_changeOpen (K := (· = id)) rfl fun _ => by rfl).run h4
  have s4 := changeOp_stem (F := fun s => { s with decision }) h4 (g3.stem (fun h => h) s2) fun _ => rfl
  -- its sides
  have g7 := c.newModule.run h7
  have g6 := (c.start.run h5).trans ((c.newModule.run h6).trans g7)
  have open8 : Grows C (· = id) d7 d8 := (grows_changeOpen (K := (· = id)) rfl fun _ => by rfl).run h8
  have s8 := changeOp_stem (F := fun s => { s with trueSide, falseSide }) h8 (g6.stem (fun h => h) s4) fun _ => rfl
  obtain ⟨-, pt⟩ := placed_newModule.run h6
  obtain ⟨hf, pf⟩ := placed_newModule.run h7
  have more {e e' : Design} (g : Widens C e e') : Grows C (· = id) e e' := g.mono fun _ => False.elim
  have late := open8.trans (more g9)
  have sides := (more g6).trans late
  have tail := (more g3).trans (open4.trans sides)
  rw [← hid]
  refine ⟨_, _, _, _, g9.stem (fun h => h) s8, ?_, (Grows.connects.newModule.run made).trans tail⟩
  exact
    { decision := sides.place (open4.place (placed_newDecision.run h3).2)
      trueSide := late.place (g7.place pt)
      falseSide := late.place pf
      sides := by
        intro e
        have lt := (view_lt pt).2
        rw [show trueSide = falseSide from e, hf] at lt
        exact Int.lt_irrefl _ lt
      go := ⟨b, ib, tail.peer hc.ne_absent hb, tail.carried hc, tail.place hib⟩ }

theorem grows_newBranch : Along (Grows C K) (newBranch owner name inputs outputs latency) := by
  constructor
  intro d id d' h
  obtain ⟨_, _, _, _, hs, forks, grows⟩ := newBranch_forks h
  refine grows.close ?_ fun i => Int.le_of_eq ∘ Eq.symm
  rintro i s' rfl hs'
  cases hs.symm.trans hs'
  exact ⟨fun _ => .inr forks, nofun, nofun, nofun⟩

theorem newLoop_runs {id : Int} (h : newLoop owner name inputs outputs latency d = .ok (id, d')) :
    ∃ go body go' decision block, id = d.ops.size ∧ body = id + 3 ∧
      view d'.ops Operation.stem id = some { Stem.new .loop owner go with body } ∧
      view d'.ops Operation.stem body = some { Stem.new .whileBody id go' with decision, body := block } ∧
      d'.place? block = some (.block, body) ∧ Grows C (fun i => i = id ∨ i = body) d d' := by
  obtain ⟨e, bd, e1, fb, e2, x, e3, fe, e4, e5, dec, e6, blk, e7, e8, e9, e10, made, h1, h2, h3, h4, h5, h7, h8,
    h10, rest⟩ :=
    newLoop_split h
  have c : Connects (Widens C) := Grows.connects
  have a := Grows.assembles C fun _ => False
  obtain ⟨g6, g9, g⟩ := rest c
  have g5 := ((a.addModuleExit.run h2).trans (a.addModuleExit.run h3)).trans
    ((c.enter.run h4).trans (grows_changeEntry.run h5))
  have g7 := g5.trans (g6.trans (c.newModule.run h7))
  -- the body runs the block and the loop runs the body
  obtain ⟨hid, go, s, -⟩ := newModule_opens made
  obtain ⟨hbd, go', s', -⟩ := newFrame_opens h1
  have g1 := a.newFrame.run h1
  have open8 : Grows C (· = bd) e7 e8 := (grows_changeOpen (K := (· = bd)) rfl fun _ => by rfl).run h8
  have open10 : Grows C (· = id) e9 e10 := (grows_changeOpen (K := (· = id)) rfl fun _ => by rfl).run h10
  have s8 :=
    changeOp_stem (F := fun s => { s with decision := dec, body := blk }) h8 (g7.stem (fun h => h) s') fun _ => rfl
  have hbd : bd = id + 3 := by
    rw [hbd, newModule_size made, hid]
    rfl
  have ne : id ≠ bd := fun same => by
    have := same.trans hbd
    omega
  have s9 := g9.stem (fun h => h) (open8.stem ne ((g1.trans g7).stem (fun h => h) s))
  have s10 := changeOp_stem (F := fun s => { s with body := bd }) h10 s9 fun _ => rfl
  have more {K' : OpId → Prop} {e e' : Design} (g : Widens C e e') : Grows C K' e e' := g.mono fun _ => False.elim
  have late : Grows C (fun i => i = id ∨ i = bd) e8 d' :=
    (more g9).trans <| (open10.mono fun _ => .inl).trans (more g)
  have all : Grows C (fun i => i = id ∨ i = bd) e1 d' := (more g7).trans ((open8.mono fun _ => .inr).trans late)
  exact ⟨_, bd, _, dec, blk, hid, hbd, g.stem (fun h => h) s10,
    g.stem (fun h => h) (open10.stem ne.symm (g9.stem (fun h => h) s8)),
    late.place (open8.place (placed_newModule.run h7).2), (Grows.connects.newModule.run made).trans
    ((more g1).trans all)⟩

theorem grows_newLoop {K : OpId → Prop} : Along (Grows C K) (newLoop owner name inputs outputs latency) := by
  constructor
  intro d id d' h
  obtain ⟨_, body, _, _, _, hid, hbd, hs, hs', block, grows⟩ := newLoop_runs h
  refine grows.close (T := fun i => i = id ∨ i = body) ?_ ?_
  · rintro i r (rfl | rfl) hr
    · cases hs.symm.trans hr
      exact ⟨nofun, nofun, fun _ _ => place_of_stem hs', nofun⟩
    · cases hs'.symm.trans hr
      exact ⟨nofun, nofun, nofun, fun _ _ => block⟩
  · rintro i (rfl | rfl)
    · exact Int.le_of_eq hid.symm
    · omega

/-! ### Tasks -/

theorem Stem.Shaped.mono (h : s.Shaped C d i) (le : ∀ b, C b → C' b) : s.Shaped C' d i :=
  { h with calls := fun hk hb => le _ (h.calls hk hb) }

theorem Shaped.grows (h : Shaped d) (g : Widens d.IsTaskBody d d') : Shaped d' where
  ops := by
    intro i s hs
    refine (g.shaped (fun h => h) hs).elim (fun hs => g.keeps_shaped (h.ops hs)) (fun h => h) |>.mono ?_
    rintro b ⟨i, call, s, ht, hs, body⟩
    exact ⟨i, call, s, g.tasks ▸ ht, g.stem (fun h => h) hs, body⟩
  tasks := by
    intro i call ht
    rw [g.tasks] at ht
    obtain ⟨s, hs, hc⟩ := h.tasks ht
    exact ⟨s, g.stem (fun h => h) hs, hc.kind, hc.owner, g.place hc.body⟩

theorem Shaped.calls (h : Shaped d) (hs : view d.ops Operation.stem i = some s) (hk : s.kind = .taskCall)
    (hb : s.body ≠ absent) :
    ∃ call, d.place? s.body = some (.block, call) ∧ d.place? call = some (.call, absent) := by
  obtain ⟨t, call, r, ht, hr, body⟩ := (h.ops hs).calls hk hb
  obtain ⟨q, hq, called⟩ := h.tasks ht
  cases hr.symm.trans hq
  refine ⟨call, body ▸ called.body, ?_⟩
  rw [place_of_stem hq, called.kind, called.owner]

theorem Shaped.addTask (h : Shaped d) (t : Task) (hs : view d.ops Operation.stem t.call = some s)
    (called : s.Called d t.call) : Shaped { d with tasks := d.tasks.push t } where
  ops := by
    intro i r hr
    refine ⟨fun hk => ((h.ops hr).forks hk).imp_right fun f => ?_, fun hk hb => ?_, (h.ops hr).loops,
      (h.ops hr).bodies⟩
    · exact ⟨f.decision, f.trueSide, f.falseSide, f.sides, f.go⟩
    · exact ((h.ops hr).calls hk hb).imp fun _ => .imp fun _ => .imp fun _ => .imp_left (view_push_of _)
  tasks := by
    intro i c ht
    rw [view_push] at ht
    by_cases hi : i = d.tasks.size
    · rw [hi, put_self] at ht
      cases ht
      exact ⟨s, hs, called.kind, called.owner, called.body⟩
    · rw [put_ne _ hi] at ht
      obtain ⟨r, hr, hc⟩ := h.tasks ht
      exact ⟨r, hr, hc.kind, hc.owner, hc.body⟩

theorem grows_newTask (h : newTask name inputs outputs latency balanced d = .ok (task, d')) :
    ∃ e s, Widens d.IsTaskBody d e ∧ d' = { e with tasks := e.tasks.push task } ∧ task.call = d.ops.size ∧
      view e.ops Operation.stem task.call = some s ∧ s.Called e task.call := by
  simp only [newTask, ↓ask_bind_ok, build_bind_ok, build_pure_ok] at h
  obtain ⟨call, d1, h1, cx, -, body, d2, h2, _, d3, h3, _, d4, h4, b, -, entry, -, _, d5, h5, ob, -, _, d6, h6, bx,
    -, entry', -, _, d7, h7, _, _, ⟨⟩, _, _, ⟨⟩, rfl, rfl⟩ := h
  have c : Connects (Widens d.IsTaskBody) := Grows.connects
  have g2 := c.newModule.run h2
  have g3 : Grows d.IsTaskBody (· = call) d2 d3 := (grows_changeOpen (K := (· = call)) rfl fun _ => by rfl).run h3
  have g7 := ((c.start.run h4).trans (c.connectAll.run h5)).trans ((c.finish.run h6).trans (c.connectAll.run h7))
  -- the call runs the block
  obtain ⟨hid, go, s, -⟩ := newModule_opens h1
  have s7 :=
    g7.stem (fun h => h) (changeOp_stem (F := fun s => { s with body }) h3 (g2.stem (fun h => h) s) fun _ => rfl)
  have all : Grows d.IsTaskBody (· = call) d d7 := (Grows.connects.newModule.run h1).trans <|
    (g2.mono fun _ => False.elim).trans (g3.trans (g7.mono fun _ => False.elim))
  refine ⟨d7, _, all.close ?_ fun i hi => Int.le_of_eq (by rw [hi, hid]), rfl, hid, s7, rfl, rfl,
    g7.place (g3.place (placed_newModule.run h2).2)⟩
  rintro i s' rfl hs'
  cases s7.symm.trans hs'
  exact ⟨nofun, nofun, nofun, nofun⟩

theorem grows_newTaskCall {id owner : OpId} (h : newTaskCall owner name task d = .ok (id, d')) :
  Widens d.IsTaskBody d d' := by
  unfold newTaskCall at h
  simp only [↓ask_bind_ok, build_bind_ok, build_pure_ok] at h
  obtain ⟨t, ht, c, hc, x, -, id, d1, h1, _, d2, h2, rfl, rfl⟩ := h
  obtain ⟨hid, go, s1, -⟩ := newModule_opens h1
  have s2 := changeOp_stem (F := fun s => { s with body := c.body }) h2 s1 fun _ => rfl
  have g1 : Grows d.IsTaskBody (· = id) d d1 := Grows.connects.newModule.run h1
  have g := g1.trans ((grows_changeOpen (K := (· = id)) rfl fun _ => by rfl).run h2)
  refine g.close ?_ (fun i hi => Int.le_of_eq (by rw [hi, hid]))
  rintro i r rfl hr
  cases s2.symm.trans hr
  exact ⟨nofun, fun _ _ => ⟨_, _, _, view_of Task.call (require_ok.mp ht), view_of Operation.stem (op_ok hc), rfl⟩,
    nofun, nofun⟩

/-! ## Commands -/

theorem Grows.obeys : Obeys (Grows C K) :=
  { Grows.connects with
    newPrimitive := (Grows.assembles C K).newPrimitive
    leave := (Grows.assembles C K).addModuleExit
    newBranch := grows_newBranch
    newLoop := grows_newLoop
    addExit := grows_addExit
    setLatency := grows_setLatency
    reset := .same (view_map_same _ fun _ => rfl) (fun _ hp => hp) id id rfl }

section
variable {c : Command} (h : c.run d = .ok ((), d'))
include h

theorem Command.grows : Widens d.IsTaskBody d d' ∨ ∃ name inputs outputs latency balanced task,
      Datapath.newTask name inputs outputs latency balanced d = .ok (task, d') := by
  cases c with
  | newTask =>
    obtain ⟨_, h⟩ := run_of_discard h
    exact .inr ⟨_, _, _, _, _, _, h⟩
  | newTaskCall =>
    obtain ⟨_, h⟩ := run_of_discard h
    exact .inl (grows_newTaskCall h)
  | _ => exact .inl ((Grows.obeys.run _ (fun e => by cases e) fun e => by cases e).run h)

theorem Command.stem_kept (hs : view d.ops Operation.stem i = some s) : view d'.ops Operation.stem i = some s := by
  rcases c.grows h with g | ⟨_, _, _, _, _, _, made⟩
  · exact g.stem (fun no => no) hs
  · obtain ⟨e, -, g, rfl, -⟩ := grows_newTask made
    exact g.stem (fun no => no) hs

theorem Command.place_kept (hi : d.place? i = some p) : d'.place? i = some p := by
  obtain ⟨o, ho, rfl⟩ := view_some.mp hi
  exact place_of_stem (c.stem_kept h (view_of _ ho))

theorem Shaped.run (hd : Shaped d) : Shaped d' := by
  rcases c.grows h with g | ⟨_, _, _, _, _, task, made⟩
  · exact hd.grows g
  · obtain ⟨e, s, g, rfl, -, hs, called⟩ := grows_newTask made
    exact (hd.grows g).addTask task hs called

end

theorem shaped_empty (name : String) : Shaped { name } := by
  constructor
  · intro i s h
    rw [view_empty] at h
    cases h
  · intro i call h
    rw [view_empty] at h
    cases h

theorem Built.shaped (h : Built d) : Shaped d := by
  induction h with
  | empty name => exact shaped_empty name
  | step c _ _ ran ih => exact Shaped.run ran ih

end Datapath
