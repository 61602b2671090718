import Datapath.Proofs.Keeps

/-!
# What steps of building add

A step of building adds elements and links them to what is there. What was there before stays, apart
from the operations that the step is about, and entries only get more dependencies.
-/

namespace Datapath

open List

variable {d d' : Design} {count : Int} {T : OpId → Prop}

def Design.depsIn (d : Design) (i : EntryId) : List Dependency := ((d.entryAt? i).map d.depsOf).getD []

/-- The operation of an entry, and whether the entry belongs to the feedback path. -/
def Entry.face (e : Entry) : OpId × Bool := (e.owner, e.feedback)

def Port.face (p : Port) : OpId × Bool := (p.owner, p.isGo)

structure Stem where
  kind : Kind
  owner : OpId
  go : PortId
  decision : OpId
  trueSide : OpId
  falseSide : OpId
  body : OpId

def Operation.stem (o : Operation) : Stem := ⟨o.kind, o.owner, o.go, o.decision, o.trueSide, o.falseSide, o.body⟩

def Stem.new (kind : Kind) (owner : OpId) (go : PortId) : Stem := ⟨kind, owner, go, absent, absent, absent, absent⟩

/-- All that is in the first design is in the second, apart from operations in `T`, which may have
changed, and the entries have got the dependencies `l`. -/
structure Gains (T : OpId → Prop) (d d' : Design) (l : List Dependency) : Prop where
  size : d.ops.size ≤ d'.ops.size
  op : ∀ {i o}, ¬ T i → at? d.ops i = some o → ∃ cs, at? d'.ops i = some { o with children := cs }
  port : ∀ {i p}, at? d.ports i = some p → ∃ b, at? d'.ports i = some { p with peer := b }
  exit : ∀ {i x}, at? d.exits i = some x → at? d'.exits i = some x
  bus : ∀ {i x}, view d.buses Bus.exit i = some x → view d'.buses Bus.exit i = some x
  entry : ∀ {i v}, view d.entries Entry.face i = some v → view d'.entries Entry.face i = some v
  dep : ∀ {i v}, at? d.deps i = some v → at? d'.deps i = some v
  deps : ∀ i, d'.depsIn i = d.depsIn i ++ l.filter (·.entry == i)

abbrev Augments := Gains fun _ => False

section
variable {e : Design}

theorem depsIn_eq (d : Design) (i : EntryId) :
    d.depsIn i = ((view d.entries Entry.deps i).getD []).filterMap d.dep? := by
  unfold Design.depsIn view
  cases h : d.entryAt? i with
  | none => simp [show at? d.entries i = none from h]
  | some e => simp [show at? d.entries i = some e from h, Design.depsOf]

theorem depsIn_of {e : Entry} (h : at? d.entries i = some e) : d.depsIn i = d.depsOf e := by
  rw [depsIn_eq, view_of _ h]
  rfl

theorem Gains.refl (T : OpId → Prop) (d : Design) : Gains T d d [] :=
  ⟨Nat.le_refl _, fun _ ho => ⟨_, ho⟩, fun hp => ⟨_, hp⟩, id, id, id, id, fun _ => (append_nil _).symm⟩

theorem Gains.trans (h : Gains T d e l) (h' : Gains T e d' l') : Gains T d d' (l ++ l') where
  size := Nat.le_trans h.size h'.size
  op hi ho := by
    obtain ⟨cs, ho'⟩ := h.op hi ho
    obtain ⟨cs', ho''⟩ := h'.op hi ho'
    exact ⟨cs', ho''⟩
  port hp := by
    obtain ⟨b, hp'⟩ := h.port hp
    obtain ⟨b', hp''⟩ := h'.port hp'
    exact ⟨b', hp''⟩
  exit hx := h'.exit (h.exit hx)
  bus hb := h'.bus (h.bus hb)
  entry he := h'.entry (h.entry he)
  dep hv := h'.dep (h.dep hv)
  deps i := by rw [h'.deps, h.deps, append_assoc, filter_append]

theorem Gains.close (h : Gains (fun i : Int => T i ∨ d.ops.size ≤ i) d d' l) : Gains T d d' l :=
  { h with op := fun hi ho => h.op (fun ht => ht.elim hi fun le => by have := at?_lt ho; omega) ho }

theorem Gains.face (h : Gains T d d' l) (hv : view d.ports Port.face i = some v) :
    view d'.ports Port.face i = some v := by
  obtain ⟨p, hp, rfl⟩ := view_some.mp hv
  obtain ⟨c, hp'⟩ := h.port hp
  rw [view_of _ hp']
  rfl

/-! ## Single steps -/

theorem ne_touched (hk : T k) (hi : ¬ T i) : i ≠ k := fun e => hi (e ▸ hk)

theorem Gains.plain (size : d.ops.size ≤ d'.ops.size)
    (op : ∀ {i o}, ¬ T i → at? d.ops i = some o → ∃ cs, at? d'.ops i = some { o with children := cs })
    (port : ∀ {i p}, at? d.ports i = some p → ∃ b, at? d'.ports i = some { p with peer := b })
    (exit : ∀ {i x}, at? d.exits i = some x → at? d'.exits i = some x)
    (bus : ∀ {i x}, view d.buses Bus.exit i = some x → view d'.buses Bus.exit i = some x)
    (entry : ∀ {i v}, view d.entries Entry.face i = some v → view d'.entries Entry.face i = some v)
    (lists : ∀ i, (view d'.entries Entry.deps i).getD [] = (view d.entries Entry.deps i).getD [])
    (deps : d'.deps = d.deps) : Gains T d d' [] where
  size := size
  op := op
  port := port
  exit := exit
  bus := bus
  entry := entry
  dep := by rw [deps]; exact id
  deps i := by
    have : d'.dep? = d.dep? := by unfold Design.dep?; rw [deps]
    rw [depsIn_eq, depsIn_eq, lists, this, filter_nil, append_nil]

theorem gains_addOp {id : OpId} (h : addOp kind owner name d = .ok (id, d')) : Gains T d d' [] := by
  obtain ⟨-, -, rfl⟩ := addOp_ok h
  refine .plain ?_ ?_ ?_ (fun hx => hx) (fun hb => hb) (fun he => he) (fun _ => rfl) rfl
  · simp [size_editAt]
  · intro i o _ ho
    by_cases hi : i = owner
    · rw [at?_editAt, if_pos hi, at?_push_of _ ho]
      exact ⟨_, rfl⟩
    · rw [at?_edit_ne hi, at?_push_of _ ho]
      exact ⟨o.children, rfl⟩
  · exact fun hp => ⟨_, at?_push_of _ hp⟩

theorem edit_kept (hk : T k) (hi : ¬ T i) (ho : at? d.ops i = some o) :
    ∃ cs, at? (editAt d.ops k f) i = some { o with children := cs } :=
  ⟨_, (at?_edit_ne (ne_touched hk hi)).trans ho⟩

theorem gains_addPorts (hk : T k) (h : addPorts k count d = .ok (u, d')) : Gains T d d' [] := by
  rw [addPorts_ok h]
  exact .plain (by simp [size_editAt]) (edit_kept hk) (fun hp => ⟨_, at?_append_of _ hp⟩) id id id (fun _ => rfl)
    rfl

theorem gains_addExit {id : ExitId} (hk : T k) (h : addExit k tag latency count d = .ok (id, d')) :
    Gains T d d' [] := by
  obtain ⟨-, -, rfl⟩ := addExit_ok h
  exact .plain (by simp [size_editAt]) (edit_kept hk) (fun hp => ⟨_, hp⟩) (at?_push_of _)
    (fun hb => view_append_of _ _ (view_push_of _ hb)) (fun he => he) (fun _ => rfl) rfl

theorem gains_addEntry {id : EntryId} (hk : T k) (h : addEntry k drive d = .ok (id, d')) : Gains T d d' [] := by
  obtain ⟨-, -, rfl⟩ := addEntry_ok h
  refine .plain (by simp [size_editAt]) (edit_kept hk) (fun hp => ⟨_, hp⟩) (fun hx => hx) (fun hb => hb)
    (view_push_of _)
    (fun i => ?_) rfl
  · by_cases hi : i = d.entries.size
    · rw [view_push, hi, put_self, view_size]
      rfl
    · rw [view_push, put_ne _ hi]

theorem gains_changeOp (hk : T k) (h : changeOp k f d = .ok (u, d')) : Gains T d d' [] := by
  obtain ⟨-, rfl⟩ := changeOp_ok h
  exact .plain (by simp [size_editAt]) (edit_kept hk) (fun hp => ⟨_, hp⟩) id id id (fun _ => rfl) rfl

theorem changeEntry_ok {f : Entry → Entry} (h : changeEntry k f d = .ok (u, d')) :
    (∃ e, at? d.entries k = some e) ∧ d' = { d with entries := editAt d.entries k f } := by
  obtain ⟨e, he, h⟩ := bind_ok.mp h
  cases h
  exact ⟨⟨e, entry_ok he⟩, rfl⟩

theorem gains_changeEntry {f : Entry → Entry} (hf : ∀ e, (f e).face = e.face ∧ (f e).deps = e.deps)
    (h : changeEntry k f d = .ok (u, d')) : Gains T d d' [] := by
  obtain ⟨-, rfl⟩ := changeEntry_ok h
  refine .plain (Nat.le_refl _) (fun _ ho => ⟨_, ho⟩) (fun hp => ⟨_, hp⟩) (fun hx => hx) (fun hb => hb) ?_ ?_ rfl
  · exact view_edit_of fun e => (hf e).1
  · intro i
    rw [view_edit_same _ _ fun e => (hf e).2]

theorem gains_linkPeers (h : linkPeers ps bs d = .ok (u, d')) : Gains T d d' [] := by
  cases h
  induction ps.zip bs generalizing d with
  | nil =>
    exact .plain (Nat.le_refl _) (fun _ ho => ⟨_, ho⟩) (fun hp => ⟨_, hp⟩) (fun hx => hx) (fun hb => hb)
      (fun he => he)
      (fun _ => rfl) rfl
  | cons q l ih =>
    refine Gains.trans (l := []) ?_ ih
    refine .plain (Nat.le_refl _) (fun _ ho => ⟨_, ho⟩) ?_ (fun hx => hx) ?_ (fun he => he) (fun _ => rfl) rfl
    · intro i p hp
      change ∃ b, at? (editAt d.ports q.1 _) i = _
      by_cases hi : i = q.1
      · rw [at?_editAt, if_pos hi, hp]
        exact ⟨_, rfl⟩
      · rw [at?_edit_ne hi]
        exact ⟨_, hp⟩
    · exact view_edit_of fun _ => rfl

theorem dep_of_mem (hd : WellFormed d) {e : Entry} (he : at? d.entries i = some e) :
    ∀ k ∈ e.deps, ∃ v, at? d.deps k = some v ∧ v.entry = i := by
  intro k hk
  obtain ⟨v, hv, h⟩ := hd.deps.holds he k hk
  exact ⟨v, hv, Option.some.inj h⟩

theorem gains_addDependency (hd : WellFormed d) {id : Int}
    (h : addDependency entry kind source target minClocks d = .ok (id, d')) :
    Gains T d d' [{ id, kind, entry, source, target, minClocks }] := by
  obtain ⟨rfl, -, e, p, b, he, -, hb, -, rfl⟩ := addDependency_ok h
  have kept : ∀ (v : Dependency) (l : List DepId), (∀ k ∈ l, ∃ w, at? d.deps k = some w) →
      l.filterMap (at? (d.deps.push v)) = l.filterMap (at? d.deps) := by
    intro v l hl
    induction l with
    | nil => rfl
    | cons k l ih =>
      obtain ⟨w, hw⟩ := hl k mem_cons_self
      rw [filterMap_cons, filterMap_cons, hw, at?_push_of _ hw,
        ih fun k hk => hl k (mem_cons_of_mem _ hk)]
  constructor
  · exact Nat.le_refl _
  · exact fun _ ho => ⟨_, ho⟩
  · exact fun hp => ⟨_, hp⟩
  · exact fun hx => hx
  · exact view_edit_of fun _ => rfl
  · exact view_edit_of fun _ => rfl
  · exact fun hv => at?_push_of _ hv
  · intro i
    by_cases hi : i = entry
    · subst hi
      rw [depsIn_of he, depsIn_of (e := { e with deps := e.deps ++ [(d.deps.size : Int)] })]
      · unfold Design.depsOf Design.dep?
        rw [filterMap_append, kept _ _ fun k hk => (dep_of_mem hd he k hk).imp fun _ => And.left]
        simp [at?_push]
      · rw [at?_editAt, if_pos rfl, he]
        rfl
    · have hne : (entry == i) = false := by simpa using fun e => hi e.symm
      rw [filter_cons, hne]
      simp only [Bool.false_eq_true, if_false, filter_nil, append_nil]
      rw [depsIn_eq, depsIn_eq]
      rw [show view (editAt d.entries entry _) Entry.deps i = view d.entries Entry.deps i by
        simp only [view, at?_edit_ne hi]]
      cases hv : at? d.entries i with
      | none => simp [view, hv]
      | some y =>
        rw [view_of _ hv]
        exact kept _ _ fun k hk => (dep_of_mem hd hv k hk).imp fun _ => And.left

theorem gains_connect (hd : WellFormed d) {id : Int} (h : connect entry source target d = .ok (id, d')) :
    ∃ p, at? d.ports target = some p ∧ Gains T d d'
      [{ id, kind := if p.isGo then .control else .data, entry, source, target, minClocks := 0 }] := by
  obtain ⟨p, hp, h⟩ := ask_bind_ok.mp h
  exact ⟨p, port_ok hp, gains_addDependency hd h⟩

/-! ## Calls that make operations -/

section
variable {id : Int}

theorem gains_newPrimitive (h : newPrimitive kind owner name inputs outputs latency d = .ok (id, d')) :
    Gains T d d' [] := by
  obtain ⟨-, d1, d2, d3, _, _, h1, h2, h3, h4⟩ := newPrimitive_ok h
  have new : T id ∨ (d.ops.size : Int) ≤ id := .inr (by have := (addOp_ok h1).1; omega)
  have g1 : Gains (fun i : Int => T i ∨ d.ops.size ≤ i) d d1 [] := gains_addOp h1
  exact .close (((g1.trans (gains_addPorts new h2)).trans (gains_addEntry new h3)).trans (gains_addExit new h4))

theorem gains_newFrame (h : newFrame kind owner name inputs d = .ok (id, d')) : Gains T d d' [] := by
  simp only [newFrame, build_bind_ok, ask_ok] at h
  obtain ⟨_, d1, h1, _, d2, h2, _, d3, h3, ib, d4, h4, _, d5, h5, _, d6, h6, _, _, h7, _, _, ⟨-, rfl⟩, _, d7,
    ⟨-, rfl⟩, _, _, h8, rfl, rfl⟩ := h
  have new : T id ∨ (d.ops.size : Int) ≤ id := .inr (by have := (addOp_ok h1).1; omega)
  refine .close ?_
  have g1 : Gains (fun i : Int => T i ∨ d.ops.size ≤ i) d d1 [] := gains_addOp h1
  have g3 := (g1.trans (gains_addPorts new h2)).trans (gains_addEntry new h3)
  have newBuf : T ib ∨ (d.ops.size : Int) ≤ ib := .inr (by have := (addOp_ok h4).1; have := g3.size; omega)
  have g6 := (g3.trans (gains_addOp h4)).trans ((gains_addExit newBuf h5).trans (gains_addEntry newBuf h6))
  exact (g6.trans (gains_changeOp new h7)).trans (gains_linkPeers h8)

theorem gains_addModuleExit (hm : T mod)
    (h : addModuleExit mod tag latency outputs d = .ok (id, d')) : Gains T d d' [] := by
  simp only [addModuleExit, build_bind_ok, ask_ok] at h
  obtain ⟨_, d1, h1, _, _, ⟨-, rfl⟩, ob, d2, h2, _, d3, h3, _, _, h4, _, _, ⟨-, rfl⟩, _, d4, ⟨-, rfl⟩, _, d5, h5, _,
    _, h6, rfl, rfl⟩ := h
  have g1 : Gains (fun i : Int => T i ∨ d.ops.size ≤ i) d _ [] := gains_addExit (.inl hm) h1
  have newBuf : T ob ∨ (d.ops.size : Int) ≤ ob := .inr (by have := (addOp_ok h2).1; have := g1.size; omega)
  have g4 := ((g1.trans (gains_addOp h2)).trans (gains_addPorts newBuf h3)).trans (gains_addEntry newBuf h4)
  have g5 := (g4.trans (gains_linkPeers h5)).close
  obtain ⟨hid, -⟩ := addExit_ok h1
  obtain ⟨-, rfl⟩ := changeExit_ok h6
  refine { g5 with exit := ?_ }
  -- the exit that gets its output buffer is the one just made
  intro i x hx
  have lt := at?_lt hx
  rw [at?_edit_ne (by omega)]
  exact g5.exit hx

end

end

/-! ## What is made -/

theorem addOp_makes {id : Int} (h : addOp kind owner name d = .ok (id, d')) :
    id = d.ops.size ∧ (∃ cs, at? d'.ops id = some { id, kind, name, owner, go := d.ports.size, children := cs }) ∧
      view d'.ports Port.face d.ports.size = some (id, true) := by
  obtain ⟨rfl, -, rfl⟩ := addOp_ok h
  refine ⟨rfl, ?_, ?_⟩
  · rw [at?_editAt, at?_push, if_pos rfl]
    split
    · exact ⟨_, rfl⟩
    · exact ⟨[], rfl⟩
  · rw [view_push, put_self]
    rfl

theorem changeOp_makes (h : changeOp k f d = .ok (u, d')) (ho : at? d.ops k = some o) :
    at? d'.ops k = some (f o) := by
  obtain ⟨-, rfl⟩ := changeOp_ok h
  rw [at?_editAt, if_pos rfl, ho]
  rfl

theorem addPorts_makes (h : addPorts k count d = .ok (u, d')) (ho : at? d.ops k = some o) :
    at? d'.ops k = some { o with ports := o.ports ++ idsFrom d.ports.size count.toNat } := by
  rw [addPorts_ok h]
  rw [at?_editAt, if_pos rfl, ho]
  rfl

theorem addPorts_faces (h : addPorts k count d = .ok (u, d')) :
    ∀ p ∈ idsFrom d.ports.size count.toNat, view d'.ports Port.face p = some (k, false) := by
  intro p hp
  rw [mem_idsFrom] at hp
  rw [addPorts_ok h]
  rw [view_append, putRange, if_pos hp]
  rfl

theorem addEntry_makes {id : EntryId} (h : addEntry k drive d = .ok (id, d')) (ho : at? d.ops k = some o) :
    at? d'.ops k = some { o with entries := o.entries ++ [id] } ∧ view d'.entries Entry.face id = some (k, false) ∧
      d'.depsIn id = [] := by
  obtain ⟨rfl, -, rfl⟩ := addEntry_ok h
  refine ⟨?_, ?_, ?_⟩
  · rw [at?_editAt, if_pos rfl, ho]
    rfl
  · rw [view_push, put_self]
    rfl
  · rw [depsIn_eq]
    rw [view_push, put_self]
    rfl

theorem addExit_makes {id : ExitId} (h : addExit k tag latency count d = .ok (id, d')) (ho : at? d.ops k = some o) :
    at? d'.ops k = some { o with exits := o.exits ++ [id] } ∧
      at? d'.exits id = some
        { id, owner := k, tag, done := d.buses.size, buses := idsFrom (d.buses.size + 1) count.toNat,
            latency } := by
  obtain ⟨rfl, -, rfl⟩ := addExit_ok h
  refine ⟨?_, ?_⟩
  · rw [at?_editAt, if_pos rfl, ho]
    rfl
  · rw [at?_push, if_pos rfl]

section
variable {id : Int}

section
variable (h : newPrimitive kind owner name inputs outputs latency d = .ok (id, d'))
include h

theorem newPrimitive_makes :
    id = d.ops.size ∧ ∃ (o : Operation) (e : EntryId) (x : ExitId) (y : Exit), at? d'.ops id = some o ∧
      o.place = (kind, owner) ∧ o.ports.length = inputs.toNat ∧ o.entries = [e] ∧ d'.depsIn e = [] ∧ o.exits = [x] ∧
      at? d'.exits x = some y ∧ y.buses.length = outputs.toNat ∧
      (∀ p ∈ o.ports, view d'.ports Port.face p = some (id, false)) ∧ y.tag = .done ∧
      view d'.entries Entry.face e = some (id, false) ∧ view d'.ports Port.face o.go = some (id, true) ∧
      o.inBuf = absent := by
  obtain ⟨-, d1, d2, d3, e, x, h1, h2, h3, h4⟩ := newPrimitive_ok h
  obtain ⟨hid, ⟨cs, o1⟩, go1⟩ := addOp_makes h1
  have o2 := addPorts_makes h2 o1
  obtain ⟨o3, face, deps⟩ := addEntry_makes h3 o2
  obtain ⟨o4, hx⟩ := addExit_makes h4 o3
  have g2 : Gains (fun _ => True) d1 d2 [] := gains_addPorts trivial h2
  have g3 : Gains (fun _ => True) d2 d3 [] := gains_addEntry trivial h3
  have g : Gains (fun _ => True) d3 d' [] := gains_addExit trivial h4
  refine ⟨hid, _, e, x, _, o4, rfl, ?_, rfl, ?_, rfl, hx, ?_, ?_, rfl, g.entry face, g.face (g3.face (g2.face go1)),
    rfl⟩
  · simp [idsFrom]
  · rw [g.deps, deps]
    rfl
  · simp [idsFrom]
  · exact fun p hp => g.face (g3.face (addPorts_faces h2 p hp))

end

theorem linkPeers_first (hp : view d.ports Port.face p = some v) (new : p ∉ ps)
    (h : linkPeers (p :: ps) (b :: bs) d = .ok (u, d')) : view d'.ports Port.peer p = some b := by
  cases h
  dsimp only
  rw [zip_cons_cons, foldl_cons]
  have linked : view ((d.editPort p fun q => { q with peer := b }).editBus b fun c => { c with peer := p }).ports
      Port.peer p = some b := by
    obtain ⟨x, hx, -⟩ := view_some.mp hp
    change view (editAt d.ports p _) Port.peer p = _
    rw [view_edit hx, put_self]
  replace new : ∀ q ∈ ps.zip bs, p ≠ q.1 := by
    rintro q hq rfl
    exact new (of_mem_zip hq).1
  generalize ps.zip bs = l at new
  generalize (d.editPort p fun q => { q with peer := b }).editBus b _ = e at linked
  induction l generalizing e with
  | nil => exact linked
  | cons q l ih =>
    refine ih (fun q hq => new q (mem_cons_of_mem _ hq)) _ ?_
    change view (editAt e.ports q.1 _) Port.peer p = _
    rwa [view, at?_edit_ne (new q mem_cons_self)]

theorem newFrame_makes (h : newFrame kind owner name inputs d = .ok (id, d')) :
    id = d.ops.size ∧ ∃ (o q : Operation) (e : EntryId) (x : ExitId) (y : Exit), at? d'.ops id = some o ∧
      o.place = (kind, owner) ∧ o.exits = [] ∧ o.entries = [e] ∧ view d'.ports Port.face o.go = some (id, true) ∧
      view d'.entries Entry.face e = some (id, false) ∧ d'.depsIn e = [] ∧ at? d'.ops o.inBuf = some q ∧
      q.exits = [x] ∧ at? d'.exits x = some y ∧ y.tag = .done ∧ y.owner = o.inBuf ∧ o.inBuf = id + 1 ∧
      q.place = (.inBuf, id) ∧ (∃ f, q.entries = [f] ∧ view d'.entries Entry.face f = some (o.inBuf, false)) ∧
      q.ports = [] ∧ q.inBuf = absent ∧ view d'.ports Port.face q.go = some (o.inBuf, true) ∧
      view d'.ports Port.peer o.go = some y.done ∧ view d'.buses Bus.exit y.done = some x ∧
      o.stem = .new kind owner o.go := by
  simp only [newFrame, build_bind_ok, ask_ok] at h
  obtain ⟨_, d1, h1, _, d2, h2, e, d3, h3, ib, d4, h4, x, d5, h5, _, d6, h6, _, _, h7, m, _, ⟨hm, rfl⟩, z, d7,
    ⟨hz, rfl⟩, _, _, h8, rfl, rfl⟩ := h
  obtain ⟨hid, ⟨cs, o1⟩, go1⟩ := addOp_makes h1
  have o2 := addPorts_makes h2 o1
  obtain ⟨o3, face3, deps3⟩ := addEntry_makes h3 o2
  have lt3 : id < (d3.ops.size : Int) := (at?_lt o3).2
  -- the input buffer is another operation
  obtain ⟨hib, ⟨cs', b4⟩, bgo4⟩ := addOp_makes h4
  obtain ⟨b5, x5⟩ := addExit_makes h5 b4
  obtain ⟨b6, face6, -⟩ := addEntry_makes h6 b5
  have ne : id ≠ ib := fun e => Int.ne_of_lt lt3 (e.trans hib)
  have g3 : Gains (· = id) d1 d3 [] := (gains_addPorts (T := (· = id)) rfl h2).trans (gains_addEntry rfl h3)
  have g4 : Gains (· = ib) d3 d4 [] := gains_addOp h4
  have g5 : Gains (· = ib) d4 d6 [] := (gains_addExit (T := (· = ib)) rfl h5).trans (gains_addEntry rfl h6)
  have g6 := g4.trans g5
  have g7 : Gains (· = id) d6 d7 [] := gains_changeOp rfl h7
  have g8 := g7.trans (gains_linkPeers h8)
  obtain ⟨ds, o6⟩ := g6.op ne o3
  have o7 := changeOp_makes h7 o6
  have o8 := (linkPeers_ops h8).1 ▸ o7
  obtain ⟨bs, b8⟩ := g8.op ne.symm b6
  have x6 := (gains_addEntry (T := (· = ib)) rfl h6).exit x5
  have x8 := g8.exit x6
  have go7 := g7.face (g6.face (g3.face go1))
  -- the go port of the frame comes before its other ports
  cases o7.symm.trans (op_ok hm)
  cases (g7.exit x6).symm.trans (exit_ok hz)
  have apart : (d.ports.size : Int) ∉ idsFrom d1.ports.size inputs.toNat := by
    have size : d1.ports.size = d.ports.size + 1 := by
      rw [(addOp_ok h1).2.2]
      exact Array.size_push _
    rw [mem_idsFrom]
    omega
  refine ⟨hid, _, _, e, x, _, o8, rfl, rfl, rfl, ?_, ?_, ?_, b8, rfl, x8, rfl, rfl, ?_, rfl, ⟨_, rfl,
    g8.entry face6⟩, rfl, rfl, g8.face (g5.face bgo4), linkPeers_first go7 apart h8, ?_, rfl⟩
  · exact (gains_linkPeers (T := fun _ => False) h8).face go7
  · exact g8.entry (g6.entry face3)
  · rw [g8.deps, g6.deps, deps3]
    rfl
  · rw [hid]
    rw [hib, (addEntry_ok h3).2.2, addPorts_ok h2, (addOp_ok h1).2.2]
    simp [size_editAt]
  · refine g8.bus ?_
    obtain ⟨rfl, -, rfl⟩ := addExit_ok h5
    obtain ⟨-, -, rfl⟩ := addEntry_ok h6
    dsimp only
    rw [view_append, view_push, Array.size_push, putRange, if_neg (by omega), put_self]

theorem gains_newModule (h : newModule kind owner name inputs outputs latency d = .ok (id, d')) :
    id = d.ops.size ∧ Gains T d d' [] := by
  obtain ⟨-, d1, _, h1, h2⟩ := newModule_ok h
  obtain ⟨hid, -⟩ := newFrame_makes h1
  have g1 : Gains (fun i : Int => T i ∨ d.ops.size ≤ i) d d1 [] := gains_newFrame h1
  exact ⟨hid, (g1.trans (gains_addModuleExit (.inr (Int.le_of_eq hid.symm)) h2)).close⟩

theorem addModuleExit_makes
    (h : addModuleExit mod tag latency outputs d = .ok (id, d')) (hm : at? d.ops mod = some m) :
    ∃ (cs : List OpId) (q : Operation) (e : EntryId) (x : Exit),
      at? d'.ops mod = some { m with exits := m.exits ++ [id], children := cs } ∧ at? d'.exits id = some x ∧
      x.tag = tag ∧ x.owner = mod ∧ x.peer = d.ops.size ∧ at? d'.ops x.peer = some q ∧ q.entries = [e] ∧
      q.place = (.outBuf, mod) ∧ view d'.ports Port.face q.go = some (x.peer, true) ∧
      view d'.entries Entry.face e = some (x.peer, false) ∧ d'.depsIn e = [] ∧ q.exits = [] ∧ q.inBuf = absent := by
  simp only [addModuleExit, build_bind_ok, ask_ok, build_pure_ok] at h
  obtain ⟨_, _, h1, _, d1, ⟨-, rfl⟩, ob, d2, h2, _, d3, h3, e, _, h4, _, _, ⟨-, rfl⟩, _, d4, ⟨-, rfl⟩, _, d5, h5, _,
    _, h6, rfl, rfl⟩ := h
  obtain ⟨m1, x1⟩ := addExit_makes h1 hm
  have lt : mod < (d1.ops.size : Int) := (at?_lt m1).2
  -- the output buffer
  obtain ⟨hob, ⟨ds, b2⟩, go2⟩ := addOp_makes h2
  have b3 := addPorts_makes h3 b2
  obtain ⟨b4, face4, deps4⟩ := addEntry_makes h4 b3
  have ne : mod ≠ ob := fun e => Int.ne_of_lt lt (e.trans hob)
  have g2 : Gains (· = ob) d1 d2 [] := gains_addOp h2
  have g5 := ((g2.trans (gains_addPorts rfl h3)).trans (gains_addEntry rfl h4)).trans (gains_linkPeers h5)
  have l5 : Augments d4 d5 [] := gains_linkPeers h5
  obtain ⟨cs, m5⟩ := g5.op ne m1
  obtain ⟨bs, b5⟩ := l5.op (fun h => h) b4
  have g4 : Gains (· = ob) d2 d4 [] := (gains_addPorts (T := (· = ob)) rfl h3).trans (gains_addEntry rfl h4)
  have go5 := l5.face (g4.face go2)
  have face5 := l5.entry face4
  have deps5 := l5.deps e
  have x5 := g5.exit x1
  obtain ⟨-, rfl⟩ := changeExit_ok h6
  have hpeer : ob = d.ops.size := by rw [hob, (addExit_ok h1).2.2, size_editAt]
  have x6 := (at?_editAt d5.exits id (fun x => { x with peer := ob }) id).trans (if_pos rfl)
  rw [x5, Option.map_some] at x6
  refine ⟨cs, _, e, _, m5, x6, rfl, rfl, hpeer, b5, rfl, rfl, go5, face5, deps5.trans ?_, rfl, rfl⟩
  rw [deps4]
  rfl

end

/-! ## Where new operations lie -/

def Design.places (d : Design) : List (Kind × OpId) := d.ops.toList.map Operation.place

section
variable {id : Int}

theorem length_places : d.places.length = d.ops.size := by simp [Design.places]

theorem place_nat (n : Nat) : view d.ops Operation.place n = d.places[n]? := by
  simp [view, at?, Design.places]

theorem place_split (h : d'.places = d.places ++ l) (hc : view d'.ops Operation.place c = some p) :
    view d.ops Operation.place c = some p ∨ ∃ n : Nat, c = ((d.ops.size + n : Nat) : Int) ∧ l[n]? = some p := by
  obtain ⟨n, rfl⟩ := Int.eq_ofNat_of_zero_le (view_lt hc).1
  rw [place_nat, h, List.getElem?_append, length_places] at hc
  split at hc
  · exact .inl (by rw [place_nat]; exact hc)
  next le =>
    have le := Nat.le_of_not_lt le
    exact .inr ⟨n - d.ops.size, by rw [Nat.add_sub_cancel' le], hc⟩

theorem new_place (h : d'.places = d.places ++ l) (ho : at? d'.ops i = some o)
    (new : (d.ops.size : Int) ≤ i) : ∃ n : Nat, i = ((d.ops.size + n : Nat) : Int) ∧ l[n]? = some o.place := by
  refine (place_split h (view_of _ ho)).resolve_left fun old => ?_
  have := (view_lt old).2
  omega

theorem new_single (h : d'.places = d.places ++ [p]) (ho : at? d'.ops i = some o)
    (new : (d.ops.size : Int) ≤ i) : i = d.ops.size := by
  obtain ⟨n, hi, hl⟩ := new_place h ho new
  cases n with
  | zero => exact hi
  | succ n => cases hl

theorem places_edit (hf : ∀ o, (f o).place = o.place) :
    (editAt ops k f).toList.map Operation.place = ops.toList.map Operation.place := by
  apply List.ext_getElem?
  intro n
  have same : view (editAt ops k f) Operation.place n = view ops Operation.place n := by rw [view_edit_same _ _ hf]
  simpa [view, at?] using same

/-! ## Steps -/

theorem addOp_places (h : addOp kind owner name d = .ok (id, d')) : d'.places = d.places ++ [(kind, owner)] := by
  obtain ⟨-, -, rfl⟩ := addOp_ok h
  unfold Design.places
  rw [places_edit fun _ => by rfl]
  simp [Operation.place]

theorem addPorts_places (h : addPorts k count d = .ok (u, d')) : d'.places = d.places := by
  rw [addPorts_ok h]
  exact places_edit fun _ => rfl

theorem addExit_places (h : addExit k tag latency count d = .ok (id, d')) : d'.places = d.places := by
  obtain ⟨-, -, rfl⟩ := addExit_ok h
  exact places_edit fun _ => rfl

theorem addEntry_places (h : addEntry k drive d = .ok (id, d')) : d'.places = d.places := by
  obtain ⟨-, -, rfl⟩ := addEntry_ok h
  exact places_edit fun _ => rfl

theorem addDependency_places {kind : DepKind}
    (h : addDependency entry kind source target clocks d = .ok (id, d')) : d'.places = d.places := by
  obtain ⟨-, -, e, p, b, -, -, -, -, rfl⟩ := addDependency_ok h
  rfl

theorem changeOp_places (hf : ∀ o, (f o).place = o.place) (h : changeOp k f d = .ok (u, d')) :
    d'.places = d.places := by
  obtain ⟨-, rfl⟩ := changeOp_ok h
  exact places_edit hf

theorem changeEntry_places {f : Entry → Entry} (h : changeEntry k f d = .ok (u, d')) : d'.places = d.places := by
  obtain ⟨-, rfl⟩ := changeEntry_ok h
  rfl

theorem linkPeers_places (h : linkPeers ps bs d = .ok (u, d')) : d'.places = d.places := by
  rw [Design.places, (linkPeers_ops h).1]
  rfl

theorem connect_places (h : connect entry source target d = .ok (id, d')) : d'.places = d.places := by
  obtain ⟨p, -, h⟩ := ask_bind_ok.mp h
  exact addDependency_places h

theorem start_places (h : start k source d = .ok (id, d')) : d'.places = d.places := by
  obtain ⟨o, -, h⟩ := ask_bind_ok.mp h
  obtain ⟨entry, -, h⟩ := ask_bind_ok.mp h
  exact addDependency_places h

theorem finish_places (h : finish mod tag k d = .ok (id, d')) : d'.places = d.places := by
  obtain ⟨o, -, h⟩ := ask_bind_ok.mp h
  obtain ⟨entry, -, h⟩ := ask_bind_ok.mp h
  obtain ⟨x, -, h⟩ := ask_bind_ok.mp h
  exact addDependency_places h

/-! ## Calls that make operations -/

theorem newPrimitive_places (h : newPrimitive kind owner name inputs outputs latency d = .ok (id, d')) :
    d'.places = d.places ++ [(kind, owner)] := by
  obtain ⟨-, d1, d2, d3, e, x, h1, h2, h3, h4⟩ := newPrimitive_ok h
  rw [addExit_places h4, addEntry_places h3, addPorts_places h2, addOp_places h1]

theorem newFrame_places (h : newFrame kind owner name inputs d = .ok (id, d')) :
    d'.places = d.places ++ [(kind, owner), (.inBuf, id)] := by
  simp only [newFrame, build_bind_ok, ask_ok] at h
  obtain ⟨_, d1, h1, _, d2, h2, e, d3, h3, ib, d4, h4, x, d5, h5, _, d6, h6, _, _, h7, _, _, ⟨-, rfl⟩, _, d7,
    ⟨-, rfl⟩, _, _, h8, rfl, rfl⟩ := h
  rw [linkPeers_places h8, changeOp_places (fun _ => by rfl) h7, addEntry_places h6, addExit_places h5,
    addOp_places h4, addEntry_places h3, addPorts_places h2, addOp_places h1, List.append_assoc]
  rfl

theorem addModuleExit_places (h : addModuleExit mod tag latency outputs d = .ok (id, d')) :
    d'.places = d.places ++ [(.outBuf, mod)] := by
  simp only [addModuleExit, build_bind_ok, ask_ok] at h
  obtain ⟨_, d1, h1, _, _, ⟨-, rfl⟩, ob, d2, h2, _, d3, h3, _, _, h4, _, _, ⟨-, rfl⟩, _, d4, ⟨-, rfl⟩, _, d5, h5, _,
    _, h6, rfl, rfl⟩ := h
  obtain ⟨-, rfl⟩ := changeExit_ok h6
  show d5.places = _
  rw [linkPeers_places h5, addEntry_places h4, addPorts_places h3, addOp_places h2, addExit_places h1]

section
variable (h : newModule kind owner name inputs outputs latency d = .ok (id, d'))
include h

theorem newModule_places : d'.places = d.places ++ [(kind, owner), (.inBuf, id), (.outBuf, id)] := by
  obtain ⟨-, d1, _, h1, h2⟩ := newModule_ok h
  rw [addModuleExit_places h2, newFrame_places h1, List.append_assoc]
  rfl

theorem newModule_size : d'.ops.size = d.ops.size + 3 := by
  rw [← length_places, newModule_places h, List.length_append, length_places]
  rfl

end

theorem newDecision_places (h : newDecision owner name d = .ok (id, d')) :
    d'.places = d.places ++ [(.decision, owner), (.inBuf, id), (.outBuf, id), (.outBuf, id)] := by
  simp only [newDecision, build_bind_ok, ask_ok] at h
  obtain ⟨_, d1, h1, _, d2, h2, _, d3, h3, o, _, ⟨-, rfl⟩, _, d4, h4, _, d5, h5, rfl, rfl⟩ := h
  rw [finish_places h5, finish_places h4, addModuleExit_places h3, addModuleExit_places h2, newFrame_places h1,
    List.append_assoc, List.append_assoc]
  rfl

end

end Datapath
