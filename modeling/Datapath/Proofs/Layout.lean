import Datapath.Proofs.Additions
import Datapath.Proofs.Shapes

/-!
# The inside of modules

Operations have what they are made with: a go port and an entry, and modules an input buffer that shows
the go port to the inside and an exit that an output buffer completes. A loop body runs a block of its
own, and only loop bodies have ways in that belong to the feedback path.
-/

namespace Datapath

open List

variable {d d' : Design}

/-! ## What operations have from the start -/

def Exit.bond (x : Exit) : OpId × ExitTag × OpId := (x.owner, x.tag, x.peer)

structure Operation.Equipped (d : Design) (i : OpId) (o : Operation) : Prop where
  go : view d.ports Port.face o.go = some (i, true)
  entered : o.entries ≠ []
  /-- The input buffer takes no data, and shows the go port by the done bus of its first exit. -/
  front : o.kind.isModule = true ∨ o.inBuf ≠ absent → ∃ q x xs y, at? d.ops o.inBuf = some q ∧
    q.place = (.inBuf, i) ∧ q.ports = [] ∧ q.exits = x :: xs ∧ view d.exits Exit.owner x = some o.inBuf ∧
    view d.exits Exit.done x = some y ∧ view d.ports Port.peer o.go = some y ∧ view d.buses Bus.exit y = some x
  back : o.kind.isModule = true → ∃ x tag p, view d.exits Exit.bond x = some (i, tag, p) ∧ p ≠ absent ∧
    (o.kind = .loop → tag = .done)

structure Operation.Stays (o p : Operation) : Prop where
  id : p.id = o.id
  place : p.place = o.place
  go : p.go = o.go
  inBuf : p.inBuf = o.inBuf
  ports : p.ports = o.ports
  exits : o.exits <+: p.exits
  entries : o.entries <+: p.entries
  resource : o.resource ≠ absent → p.resource ≠ absent

def Exit.core (x : Exit) : Exit := { x with latency := .zero }

structure Unfolds (d d' : Design) : Prop where
  op : ∀ {i o}, at? d.ops i = some o → ∃ p, at? d'.ops i = some p ∧ o.Stays p
  new : ∀ {i : Int} {o}, d.ops.size ≤ i → at? d'.ops i = some o → o.Equipped d' i
  face : ∀ {p v}, view d.ports Port.face p = some v → view d'.ports Port.face p = some v
  peer : ∀ {p b}, b ≠ absent → view d.ports Port.peer p = some b → view d'.ports Port.peer p = some b
  exit : ∀ {x v}, view d.exits Exit.core x = some v → view d'.exits Exit.core x = some v
  bus : ∀ {b x}, view d.buses Bus.exit b = some x → view d'.buses Bus.exit b = some x
  again : ∀ {j k}, view d.entries Entry.face j = some (k, true) → view d'.entries Entry.face j = some (k, true)

theorem Operation.Stays.refl (o : Operation) : o.Stays o :=
  ⟨rfl, rfl, rfl, rfl, rfl, prefix_rfl, prefix_rfl, fun ne => ne⟩

theorem Operation.Stays.trans {o : Operation} (h : o.Stays p) (h' : p.Stays q) : o.Stays q :=
  ⟨h'.id.trans h.id, h'.place.trans h.place, h'.go.trans h.go, h'.inBuf.trans h.inBuf, h'.ports.trans h.ports,
    h.exits.trans h'.exits, h.entries.trans h'.entries, fun ne => h'.resource (h.resource ne)⟩

theorem Unfolds.look (u : Unfolds d d') {β : Type} {f : Exit → β} (hf : ∀ x, f x.core = f x) {v : β}
    (h : view d.exits f x = some v) : view d'.exits f x = some v := by
  obtain ⟨y, hy, rfl⟩ := view_some.mp h
  obtain ⟨z, hz, same⟩ := view_some.mp (u.exit (view_of _ hy))
  rw [view_of _ hz, ← hf z, same, hf]

theorem Operation.Equipped.stay {o : Operation} (h : o.Equipped d i) (u : Unfolds d d') (s : o.Stays p) :
  p.Equipped d' i := by
  have kind : p.kind = o.kind := congrArg Prod.fst s.place
  constructor
  · rw [s.go]
    exact u.face h.go
  · intro none
    have := s.entries
    rw [none, prefix_nil] at this
    exact h.entered this
  · intro front
    rw [kind, s.inBuf] at front
    obtain ⟨q, x, xs, y, hq, place, ports, exits, own, done, peer, bus⟩ := h.front front
    obtain ⟨r, hr, sr⟩ := u.op hq
    obtain ⟨l, more⟩ := sr.exits
    rw [exits] at more
    refine ⟨r, x, xs ++ l, y, s.inBuf ▸ hr, sr.place.trans place, sr.ports.trans ports, more.symm, ?_⟩
    rw [s.inBuf, s.go]
    refine ⟨u.look (fun _ => rfl) own, u.look (fun _ => rfl) done, u.peer ?_ peer, u.bus bus⟩
    rintro rfl
    cases bus
  · intro module
    rw [kind] at module ⊢
    obtain ⟨x, tag, b, bond, rest⟩ := h.back module
    exact ⟨x, tag, b, u.look (fun _ => rfl) bond, rest⟩

theorem Unfolds.chains : Chains Unfolds where
  refl _ :=
    ⟨fun ho => ⟨_, ho, .refl _⟩, fun le ho => absurd (at?_lt ho).2 (Int.not_lt.mpr le), id, fun _ => id, id, id, id⟩
  trans {d e d'} u u' := by
    refine ⟨fun ho => ?_, fun {i o} le ho => ?_, fun hp => u'.face (u.face hp),
      fun hb hp => u'.peer hb (u.peer hb hp), fun hx => u'.exit (u.exit hx), fun hb => u'.bus (u.bus hb),
      fun hj => u'.again (u.again hj)⟩
    · obtain ⟨p, hp, s⟩ := u.op ho
      obtain ⟨q, hq, s'⟩ := u'.op hp
      exact ⟨q, hq, s.trans s'⟩
    · rcases Int.lt_or_le i e.ops.size with lt | le'
      · obtain ⟨p, hp⟩ := at?_of_lt (at?_lt ho).1 lt
        obtain ⟨q, hq, s⟩ := u'.op hp
        cases ho.symm.trans hq
        exact (u.new le hp).stay u' s
      · exact u'.new le' ho

/-! ## Steps of building -/

theorem Unfolds.same (ops : ∀ {i} {o : Operation}, at? d.ops i = some o → ∃ p, at? d'.ops i = some p ∧ o.Stays p)
    (size : d'.ops.size = d.ops.size) (ports : d'.ports = d.ports)
    (exits : ∀ {x v}, view d.exits Exit.core x = some v → view d'.exits Exit.core x = some v)
    (buses : ∀ {b x}, view d.buses Bus.exit b = some x → view d'.buses Bus.exit b = some x)
    (again : ∀ {j k}, view d.entries Entry.face j = some (k, true) → view d'.entries Entry.face j = some (k, true))
        : Unfolds d d' where
  op := ops
  new le ho := absurd (at?_lt ho).2 (by rw [size]; exact Int.not_lt.mpr le)
  face hp := ports ▸ hp
  peer _ hp := ports ▸ hp
  exit := exits
  bus := buses
  again := again

theorem stays_editAt (hf : ∀ o : Operation, o.Stays (f o))
    (ho : at? ops i = some o) : ∃ p, at? (editAt ops k f) i = some p ∧ o.Stays p := by
  rw [at?_editAt, ho]
  split
  · exact ⟨_, rfl, hf o⟩
  · exact ⟨_, rfl, .refl o⟩

theorem Operation.stays_of_core {o : Operation} (h : p.core = o.core) : o.Stays p := by
  have same {β : Type} (f : Operation → β) : f p.core = f o.core := congrArg f h
  exact ⟨same id, same place, same go, same inBuf, same ports, ⟨[], (append_nil _).trans (same exits).symm⟩,
    ⟨[], (append_nil _).trans (same entries).symm⟩, fun ne => (same resource).symm ▸ ne⟩

theorem unfolds_changeOp (hf : ∀ o, (f o).core = o.core) : Along Unfolds (changeOp k f) := by
  constructor
  intro d u d' h
  obtain ⟨-, rfl⟩ := changeOp_ok h
  exact .same (stays_editAt fun o => Operation.stays_of_core (hf o)) (size_editAt ..) rfl id id id

theorem unfolds_addEntry : Along Unfolds (addEntry op drive) := by
  constructor
  intro d e d' h
  obtain ⟨-, -, rfl⟩ := addEntry_ok h
  exact .same (stays_editAt fun o => ⟨rfl, rfl, rfl, rfl, rfl, prefix_rfl, prefix_append .., id⟩) (size_editAt ..)
    rfl id id
    (view_push_of _)

theorem unfolds_addExit {count : Int} : Along Unfolds (addExit op tag latency count) := by
  constructor
  intro d x d' h
  obtain ⟨-, -, rfl⟩ := addExit_ok h
  exact .same (stays_editAt fun o => ⟨rfl, rfl, rfl, rfl, rfl, prefix_append .., prefix_rfl, id⟩) (size_editAt ..)
    rfl
    (view_push_of _) (fun hb => view_append_of _ _ (view_push_of _ hb)) id

theorem Unfolds.gains (g : Gains T d d' l) (grows : Widens C d d')
    (touched : ∀ {i} {o : Operation}, T i → at? d.ops i = some o → ∃ p, at? d'.ops i = some p ∧ o.Stays p)
    (new : ∀ {i : Int} {o}, d.ops.size ≤ i → at? d'.ops i = some o → o.Equipped d' i) : Unfolds d d' where
  op {i o} ho := by
    by_cases hi : T i
    · exact touched hi ho
    · obtain ⟨cs, ho'⟩ := g.op hi ho
      exact ⟨_, ho', rfl, rfl, rfl, rfl, rfl, prefix_rfl, prefix_rfl, id⟩
  new := new
  face := g.face
  peer := grows.peer
  exit hx := by
    obtain ⟨y, hy, rfl⟩ := view_some.mp hx
    exact view_of _ (g.exit hy)
  bus := g.bus
  again := g.entry

theorem Operation.Equipped.plain {o : Operation} (kind : o.kind.isModule = false) (none : o.inBuf = absent)
    (go : view d.ports Port.face o.go = some (i, true)) (entered : o.entries ≠ []) : o.Equipped d i where
  go := go
  entered := entered
  front h := by
    rw [kind] at h
    exact h.elim nofun fun ne => absurd none ne
  back h := by
    rw [kind] at h
    cases h

theorem unfolds_newPrimitive : Along Unfolds (newPrimitive kind owner name inputs outputs latency) := by
  constructor
  intro d id d' h
  obtain ⟨hid, o, e, -, -, ho, place, -, entries, -, -, -, -, -, -, -, go, none⟩ := newPrimitive_makes h
  refine .gains (T := fun _ => False) (gains_newPrimitive h)
    ((Grows.assembles (fun _ => True) _).newPrimitive.run h) nofun fun {i q} le hq => ?_
  obtain rfl : i = id := (new_single (newPrimitive_places h) hq le).trans hid.symm
  cases ho.symm.trans hq
  exact .plain ((Operation.place_eq place).1 ▸ (newPrimitive_ok h).1) none go
    (by rw [entries]; exact cons_ne_nil _ _)

theorem addModuleExit_equips {id : Int} (h : addModuleExit mod tag latency outputs d = .ok (id, d'))
    (hm : at? d.ops mod = some m) : ∀ {i : Int} {o}, d.ops.size ≤ i → at? d'.ops i = some o → o.Equipped d' i := by
  obtain ⟨-, b, e, y, -, -, -, -, peer, hb, entries, place, go, -, -, -, none⟩ := addModuleExit_makes h hm
  intro i q le hq
  obtain rfl : i = y.peer := (new_single (addModuleExit_places h) hq le).trans peer.symm
  cases hb.symm.trans hq
  exact .plain (by rw [(Operation.place_eq place).1]; rfl) none go (by rw [entries]; exact cons_ne_nil _ _)

theorem unfolds_addModuleExit : Along Unfolds (addModuleExit mod tag latency outputs) := by
  constructor
  intro d x d' h
  obtain ⟨m, hm⟩ : ∃ m, at? d.ops mod = some m := by
    obtain ⟨_, _, added, -⟩ := build_bind_ok.mp h
    exact (addExit_ok added).2.1
  obtain ⟨cs, -, -, -, hm', -⟩ := addModuleExit_makes h hm
  refine .gains (T := (· = mod)) (gains_addModuleExit rfl h)
    ((Grows.assembles (fun _ => True) _).addModuleExit.run h) ?_
    (addModuleExit_equips h hm)
  rintro i o rfl ho
  cases hm.symm.trans ho
  exact ⟨_, hm', rfl, rfl, rfl, rfl, rfl, prefix_append .., prefix_rfl, id⟩

theorem unfolds_opening (ends : kind = .loop → tag = .done) :
    Along Unfolds (newFrame kind owner name inputs >>= fun id => addModuleExit id tag latency outputs) := by
  constructor
  intro d z d' h
  obtain ⟨id, e, framed, left⟩ := build_bind_ok.mp h
  obtain ⟨hid, o, q, f, x, y, ho, place, -, entries, go, -, -, hq, exits, hy, -, own, hib, qplace, ⟨f', qentries,
    -⟩, ports, none, qgo, peer, bus, -⟩ := newFrame_makes framed
  obtain ⟨cs, b, -, w, ho', hw, wtag, wown, -, hb, -⟩ := addModuleExit_makes left ho
  have gain : Augments d d' [] := by
    have g1 : Gains (fun i : Int => False ∨ d.ops.size ≤ i) d e [] := gains_newFrame framed
    exact (g1.trans (gains_addModuleExit (.inr (Int.le_of_eq hid.symm)) left)).close
  have gain2 : Gains (· = id) e d' [] := gains_addModuleExit rfl left
  have a := Grows.assembles (fun _ => True) fun _ => False
  have later := a.addModuleExit.run left
  obtain ⟨qs, hq'⟩ := gain2.op (fun same => Int.ne_of_gt (Int.lt_succ id) (hib.symm.trans same)) hq
  obtain ⟨qkind, -⟩ := Operation.place_eq qplace
  obtain ⟨kind, -⟩ := Operation.place_eq place
  have there : y.done ≠ absent := by
    intro no
    rw [no, view_absent] at bus
    cases bus
  refine .gains gain ((a.newFrame.run framed).trans later) nofun fun {i p} le hp => ?_
  rcases Int.lt_or_le i e.ops.size with lt | le'
  · -- the frame and its input buffer
    obtain ⟨p', hp'⟩ := at?_of_lt (at?_lt hp).1 lt
    obtain ⟨n, hi, hl⟩ := new_place (newFrame_places framed) hp' le
    match n with
    | 0 =>
      obtain rfl : i = id := hi.trans hid.symm
      cases ho'.symm.trans hp
      refine ⟨gain2.face go, by dsimp only; rw [entries]; exact cons_ne_nil _ _, fun _ => ?_, fun _ => ?_⟩
      · refine ⟨_, x, [], y.done, hq', qplace, ports, exits, ?_, view_of _ (gain2.exit hy), later.peer there peer,
          gain2.bus bus⟩
        rw [view_of _ (gain2.exit hy), own]
      · refine ⟨z, tag, w.peer,
          by rw [view_of _ hw, Exit.bond, wtag, wown], ne_absent hb, fun loop => ends (kind.symm.trans loop)⟩
    | 1 =>
      obtain rfl : i = o.inBuf := by rw [hib, hid, hi]; rfl
      cases hq'.symm.trans hp
      exact .plain (by dsimp only; rw [qkind]; rfl) none (gain2.face qgo)
        (by dsimp only; rw [qentries]; exact cons_ne_nil _ _)
    | n + 2 => cases hl
  · exact addModuleExit_equips left ho le' hp

theorem Unfolds.aside (h : Aside d d') : Unfolds d d' :=
  .same (fun ho => ⟨_, h.ops ▸ ho, .refl _⟩) (by rw [h.ops]) h.ports (by rw [h.exits]; exact id)
    (by rw [h.buses]; exact id)
    (by rw [h.entries]; exact id)

theorem Unfolds.builds : Builds Unfolds :=
  { Aside.moves Unfolds.aside Unfolds.chains with
    primitive := fun _ => unfolds_newPrimitive
    newModule := ⟨fun h => by
      obtain ⟨-, _, _, framed, left⟩ := newModule_ok h
      exact (unfolds_opening fun _ => rfl).run (build_bind_ok.mpr ⟨_, _, framed, left⟩)⟩
    fork := fun hk _ => ⟨fun h => by
      obtain ⟨_, _, framed, h⟩ := build_bind_ok.mp h
      obtain ⟨_, _, left, right⟩ := build_bind_ok.mp h
      refine Unfolds.chains.trans ((unfolds_opening ?_).run (build_bind_ok.mpr ⟨_, _, framed, left⟩))
        (unfolds_addModuleExit.run right)
      rcases hk with rfl | rfl <;> exact nofun⟩
    enter := unfolds_addEntry
    note := fun hf => unfolds_changeOp fun o => Operation.core_of_base (hf o)
    assign :=
      fun there => .same (stays_editAt fun _ => ⟨rfl, rfl, rfl, rfl, rfl, prefix_rfl, prefix_rfl, fun _ => there⟩)
      (size_editAt ..) rfl id id id
    refer := unfolds_changeOp }

theorem unfolds_feedback : Along Unfolds (changeEntry n fun e => { e with feedback := true }) := by
  constructor
  intro d u d' h
  obtain ⟨⟨e, he⟩, rfl⟩ := changeEntry_ok h
  refine .same (fun ho => ⟨_, ho, .refl _⟩) rfl rfl id id fun {j k} hj => ?_
  by_cases same : j = n
  · rw [same, view_of _ he] at hj
    rw [same, view_edit he, put_self, ← hj]
    exact congrArg some (Prod.ext rfl (congrArg Prod.snd (Option.some.inj hj)).symm)
  · rwa [view, at?_edit_ne same]

theorem Unfolds.obeys : Obeys Unfolds :=
  { Unfolds.builds.toConnects with
    newPrimitive := unfolds_newPrimitive
    leave := unfolds_addModuleExit
    newBranch := Unfolds.builds.newBranch
    newLoop := Unfolds.builds.newLoop (Unfolds.chains.bind unfolds_addEntry fun _ => unfolds_feedback)
    addExit := unfolds_addExit
    setLatency := ⟨fun h => by
      obtain ⟨_, rfl⟩ := setLatency_ok h
      exact .same (fun ho => ⟨_, ho, .refl _⟩) rfl rfl (view_edit_of fun _ => rfl) id id⟩
    reset := fun {d} => by
      refine .same (fun {i o} ho => ?_) (Array.size_map ..) rfl id id id
      exact ⟨{ o with stalls := [] }, by rw [Region.reset, at?_map, ho]; rfl, Operation.stays_of_core rfl⟩ }

theorem unfolds_run (c : Command) : Along Unfolds c.run := by
  refine Unfolds.obeys.run c (fun _ => Unfolds.builds.newTask ?_) fun _ => Unfolds.builds.newTaskCall
  exact .same (fun ho => ⟨_, ho, .refl _⟩) rfl rfl id id id

theorem Built.equipped (h : Built d) (ho : at? d.ops i = some o) : o.Equipped d i := by
  induction h generalizing i o with
  | empty name =>
    rw [at?_empty] at ho
    cases ho
  | @step d d' c _ _ ran ih =>
    have u := (unfolds_run c).run ran
    rcases Int.lt_or_le i d.ops.size with lt | le
    · obtain ⟨p, hp⟩ := at?_of_lt (at?_lt ho).1 lt
      obtain ⟨q, hq, s⟩ := u.op hp
      cases ho.symm.trans hq
      exact (ih hp).stay u s
    · exact u.new le ho

/-! ## Ways in along the feedback path -/

def KeepsForward (d d' : Design) : Prop :=
  ∀ ⦃j k⦄, view d'.entries Entry.face j = some (k, true) → view d.entries Entry.face j = some (k, true)

structure FeedsBodies (d d' : Design) : Prop where
  place : ∀ {i p}, d.place? i = some p → d'.place? i = some p
  again : ∀ {j k}, view d'.entries Entry.face j = some (k, true) → view d.entries Entry.face j = some (k, true) ∨
    ∃ l m, d'.place? k = some (.whileBody, l) ∧ d'.place? l = some (.loop, m)

theorem KeepsForward.assembles : Assembles KeepsForward where
  refl _ _ _ := id
  trans k k' := fun _ _ hj => k (k' hj)
  op := ⟨fun h => by obtain ⟨-, -, rfl⟩ := addOp_ok h; exact fun _ _ => id⟩
  ports := ⟨fun h => by rw [addPorts_ok h]; exact fun _ _ => id⟩
  exit := ⟨fun h => by obtain ⟨-, -, rfl⟩ := addExit_ok h; exact fun _ _ => id⟩
  entry {op drive} := by
    constructor
    intro d e d' h j k hj
    obtain ⟨rfl, -, rfl⟩ := addEntry_ok h
    rw [view_push] at hj
    by_cases same : j = d.entries.size
    · rw [same, put_self] at hj
      cases hj
    · rwa [put_ne _ same] at hj
  front := ⟨fun h => by obtain ⟨-, rfl⟩ := changeOp_ok h; exact fun _ _ => id⟩
  peers _ h := by
    rw [KeepsForward, (linkPeers_ops h).2.2.1]
    exact fun _ _ => id
  complete := ⟨fun h => by obtain ⟨-, rfl⟩ := changeExit_ok h; exact fun _ _ => id⟩

theorem KeepsForward.aside (h : Aside d d') : KeepsForward d d' := by
  rw [KeepsForward, h.entries]
  exact fun _ _ => id

theorem KeepsForward.changeOp : Along KeepsForward (changeOp k f) :=
  ⟨fun h => by obtain ⟨-, rfl⟩ := changeOp_ok h; exact fun _ _ => id⟩

theorem KeepsForward.connects : Connects KeepsForward :=
  Aside.connects KeepsForward.aside KeepsForward.assembles (fun _ => KeepsForward.changeOp) fun _ _ _ => id

theorem KeepsForward.builds : Builds KeepsForward :=
  { KeepsForward.connects with refer := fun _ => KeepsForward.changeOp }

theorem feedsBodies_newLoop : Along FeedsBodies (newLoop owner name inputs outputs latency) := by
  constructor
  intro d id d' h
  have grown : Widens (fun _ => True) d d' := grows_newLoop.run h
  obtain ⟨e, bd, e1, fb, e2, x, e3, fe, e4, e5, _, e6, blk, e7, e8, e9, e10, made, h1, h2, h3, h4, h5, h7, h8, h10,
    rest⟩ :=
    newLoop_split h
  have b := KeepsForward.builds
  have c := Grows.builds (C := fun _ => True)
  obtain ⟨k6, k9, k⟩ := rest b.toConnects
  obtain ⟨g6, g9, g⟩ := rest c.toConnects
  have a := KeepsForward.assembles
  have before := a.trans (a.trans (a.newModule.run made) (a.newFrame.run h1))
    (a.trans (a.trans (a.addModuleExit.run h2) (a.addModuleExit.run h3)) (a.entry.run h4))
  have after : KeepsForward e5 d' := b.trans (b.trans (b.trans k6 (b.newModule.run h7))
    (b.trans (KeepsForward.changeOp.run h8) k9))
    (b.trans (KeepsForward.changeOp.run h10) k)
  -- the body is the operation that the entry leads to
  obtain ⟨-, go, loop, -⟩ := newModule_opens made
  obtain ⟨-, go', body, -⟩ := newFrame_opens h1
  have f := Grows.assembles (fun _ => True) fun _ => True
  have g4 :=
    ((f.addModuleExit.run h2).trans (f.addModuleExit.run h3)).trans
      ((c.enter.run h4).trans (grows_changeEntry.run h5))
  have late := ((g4.trans (g6.trans (c.newModule.run h7))).trans ((c.refer fun _ => by rfl).run h8)).trans
    ((g9.trans ((c.refer fun _ => by rfl).run h10)).trans g)
  have inside := late.place (place_of_stem body)
  have around := late.place ((f.newFrame.run h1).place (place_of_stem loop))
  refine ⟨grown.place, fun {j k} hj => ?_⟩
  have hj := after hj
  obtain ⟨-, rfl⟩ := changeEntry_ok h5
  obtain ⟨rfl, -, rfl⟩ := addEntry_ok h4
  by_cases same : j = e3.entries.size
  · refine .inr ⟨id, owner, ?_, around⟩
    rw [same, view_edit (show at? _ _ = some _ from by rw [at?_push, if_pos rfl]), put_self] at hj
    cases hj
    exact inside
  · refine .inl (before ?_)
    rwa [view_edit (show at? _ _ = some _ from by rw [at?_push, if_pos rfl]), put_ne _ same] at hj

theorem FeedsBodies.obeys : Obeys FeedsBodies := by
  have c : Connects (Widens fun _ => True) := Grows.connects
  have b := KeepsForward.builds
  have both : ∀ {d d'}, Widens (fun _ => True) d d' → KeepsForward d d' → FeedsBodies d d' := fun g k =>
    ⟨g.place, fun hj => .inl (k hj)⟩
  have along : ∀ {α : Type} {m : Build α}, Along (Widens fun _ => True) m → Along KeepsForward m →
    Along FeedsBodies m :=
    fun g k => ⟨fun h => both (g.run h) (k.run h)⟩
  have aside : ∀ {d d'}, Aside d d' → FeedsBodies d d' := fun h => both (.aside h) (.aside h)
  have chains : Chains FeedsBodies := by
    refine ⟨fun _ => ⟨id, .inl⟩, fun u v => ⟨fun hp => v.place (u.place hp), fun hj => ?_⟩⟩
    rcases v.again hj with old | new
    · refine (u.again old).imp_right ?_
      rintro ⟨l, m, hk, hl⟩
      exact ⟨l, m, v.place hk, v.place hl⟩
    · exact .inr new
  exact
    { Aside.moves aside chains with
      primitive := fun h => along (c.primitive h) (b.primitive h)
      newModule := along c.newModule b.newModule
      fork := fun h h' => along (c.fork h h') (b.fork h h')
      enter := along c.enter b.enter
      note := fun h => along (c.note h) (b.note h)
      assign := fun h => both (c.assign h) (b.assign h)
      newPrimitive := along (Grows.assembles _ _).newPrimitive KeepsForward.assembles.newPrimitive
      leave := along (Grows.assembles _ _).addModuleExit KeepsForward.assembles.addModuleExit
      newBranch := along grows_newBranch b.newBranch
      newLoop := feedsBodies_newLoop
      addExit := along grows_addExit KeepsForward.assembles.exit
      setLatency := along grows_setLatency ⟨fun h => by obtain ⟨_, rfl⟩ := setLatency_ok h; exact fun _ _ => id⟩
      reset := both Grows.obeys.reset fun _ _ => id }

theorem Built.again (h : Built d) (hj : view d.entries Entry.face j = some (k, true)) :
    ∃ l m, d.place? k = some (.whileBody, l) ∧ d.place? l = some (.loop, m) := by
  induction h generalizing j k with
  | empty name =>
    rw [view_empty] at hj
    cases hj
  | @step d d' c _ _ ran ih =>
    have f : FeedsBodies d d' := by
      refine (FeedsBodies.obeys.run c (fun _ => ⟨fun h => ?_⟩) fun _ => ⟨fun h => ?_⟩).run ran
      · obtain ⟨e, s, g, same, -⟩ := grows_newTask h
        exact ⟨fun hp => by rw [same]; exact g.place hp, fun hj => .inl ((KeepsForward.builds.newTask id).run h hj)⟩
      · exact ⟨((Grows.builds (C := fun _ => True)).newTaskCall.run h).place,
          fun hj => .inl (KeepsForward.builds.newTaskCall.run h hj)⟩
    rcases f.again hj with old | new
    · obtain ⟨l, m, hk, hl⟩ := ih old
      exact ⟨l, m, f.place hk, f.place hl⟩
    · exact new

/-! ## The layout -/

structure Laid (d : Design) : Prop where
  go : ∀ {i o}, at? d.ops i = some o → view d.ports Port.face o.go = some (i, true)
  /-- Input buffers take no data. -/
  bare : ∀ {i o q}, at? d.ops i = some o → at? d.ops o.inBuf = some q → q.ports = []
  front : ∀ {i o}, at? d.ops i = some o → o.kind.isModule = true →
    ∃ b ib, view d.ports Port.peer o.go = some b ∧ Carried d b ib ∧ d.place? ib = some (.inBuf, i)
  body : ∀ {i o}, at? d.ops i = some o → o.kind.isLoopBody = true → o.body ≠ absent →
    d.place? o.body = some (.block, i)
  again : ∀ {j k}, view d.entries Entry.face j = some (k, true) →
    ∃ l m, d.place? k = some (.whileBody, l) ∧ d.place? l = some (.loop, m)

theorem Built.laid (h : Built d) : Laid d where
  go ho := (h.equipped ho).go
  bare ho hq := by
    obtain ⟨_, _, _, _, hq', -, ports, -⟩ := (h.equipped ho).front (.inr (ne_absent hq))
    cases hq.symm.trans hq'
    exact ports
  front {i o} ho hm := by
    obtain ⟨q, x, xs, y, hq, place, -, -, own, -, peer, bus⟩ := (h.equipped ho).front (.inl hm)
    exact ⟨y, o.inBuf, peer, ⟨x, bus, own⟩, place ▸ view_of _ hq⟩
  body ho := (h.shaped.ops (view_of _ ho)).bodies
  again := h.again

theorem Built.inBufExit (h : Built d) (ho : d.op? m = some o) (module : o.kind.isModule = true)
    (hgo : d.port? o.go = some go) : ∃ x, d.inBufExit m = .ok x ∧ go.peer = x.done := by
  obtain ⟨ib, j, js, y, hib, -, -, exits, -, done, peer, -⟩ := (h.equipped ho).front (.inl module)
  obtain ⟨x, hx, rfl⟩ := view_some.mp done
  rw [view_of _ hgo, Option.some.injEq] at peer
  have first : ib.firstExit = .ok j := by
    unfold Operation.firstExit
    rw [exits]
    rfl
  exact ⟨x, bind_ok.mpr ⟨o, require_ok.mpr ho, bind_ok.mpr ⟨ib, require_ok.mpr hib,
    bind_ok.mpr ⟨j, first, require_ok.mpr hx⟩⟩⟩, peer⟩

theorem WellFormed.mem_exitsOf (hd : WellFormed d) (ho : d.op? i = some o) (hy : d.exit? x = some y)
    (own : y.owner = i) : y ∈ d.exitsOf o := by
  obtain ⟨_, ho', mem⟩ := hd.exits.held hy (congrArg some own)
  cases ho.symm.trans ho'
  exact mem_filterMap.mpr ⟨x, mem, hy⟩

theorem Built.completed (h : Built d) (ho : d.op? i = some o)
    (hk : o.kind.isModule = true) : ∃ x ∈ d.exitsOf o, x.peer ≠ absent ∧ (o.kind = .loop → x.tag = .done) := by
  obtain ⟨j, tag, p, hj, there, done⟩ := (h.equipped ho).back hk
  obtain ⟨x, hx, bond⟩ := view_some.mp hj
  cases bond
  exact ⟨x, h.wellFormed.mem_exitsOf ho hx rfl, there, done⟩

/-! ## The calls of tasks -/

structure Called (d : Design) : Prop where
  there : ∀ {i c}, view d.tasks Task.call i = some c → c < d.ops.size
  /-- No two tasks have the same call. -/
  apart : ∀ {i j c}, view d.tasks Task.call i = some c → view d.tasks Task.call j = some c → i = j

theorem Built.called (h : Built d) : Called d := by
  have there : ∀ {d : Design}, Shaped d → ∀ {i c}, view d.tasks Task.call i = some c → c < d.ops.size :=
    fun hd _ _ hc => by
    obtain ⟨s, hs, -⟩ := hd.tasks hc
    exact (view_lt hs).2
  refine ⟨there h.shaped, ?_⟩
  induction h with
  | empty name =>
    intro i j c hc
    rw [view_empty] at hc
    cases hc
  | step c hd _ ran ih =>
    rcases Command.grows ran with g | ⟨_, _, _, _, _, task, made⟩
    · rw [g.tasks]
      exact ih
    -- the call of a new task is a new operation
    obtain ⟨e, -, g, rfl, new, -⟩ := grows_newTask made
    have old : ∀ {i}, view e.tasks Task.call i ≠ some task.call := fun hi => by
      rw [g.tasks] at hi
      exact Int.ne_of_lt (there hd.shaped hi) new
    intro i j c hi hj
    rw [view_push] at hi hj
    by_cases ei : i = e.tasks.size <;> by_cases ej : j = e.tasks.size
    · rw [ei, ej]
    · rw [ei, put_self] at hi
      rw [put_ne _ ej, ← hi] at hj
      exact absurd hj old
    · rw [ej, put_self] at hj
      rw [put_ne _ ei, ← hj] at hi
      exact absurd hi old
    · rw [put_ne _ ei, g.tasks] at hi
      rw [put_ne _ ej, g.tasks] at hj
      exact ih hi hj

end Datapath
