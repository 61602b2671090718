import Datapath.Proofs.Links
import Datapath.Proofs.Results

/-!
# Well-formed designs

A design is well-formed if every element carries its own index and every link that goes two ways
agrees with its other end. Adding elements and changing links one at a time keeps a design
well-formed.
-/

namespace Datapath

def Operation.holder? (o : Operation) : Option OpId := if o.owner = absent then none else some o.owner

theorem Operation.holder?_eq_some {o : Operation} (h : o.holder? = some k) : o.owner = k := by
  unfold holder? at h
  split at h
  · cases h
  · exact Option.some.inj h

def Operation.accessed? (o : Operation) : Option ResId := if o.resource = absent then none else some o.resource

def Operation.place (o : Operation) : Kind × OpId := (o.kind, o.owner)

/-- The operations of a design nest. -/
structure Nesting (ops : Array Operation) : Prop where
  ids : Indexed ops Operation.id
  /-- Owners come before what they own. -/
  older : ∀ {i o}, at? ops i = some o → o.owner < i
  children : Linked (view ops Operation.children) (view ops Operation.holder?)
  /-- The input buffer of a module lies in the module. -/
  inBufs : ∀ {i b}, view ops Operation.inBuf i = some b → b ≠ absent →
    view ops Operation.place b = some (.inBuf, i)

/-- The entry and the target of a dependency belong to the same operation, and only resource
dependencies take time. -/
structure Aimed (deps : Array Dependency) (entryOwner portOwner : Int → Option OpId) : Prop where
  target : ∀ {i v}, at? deps i = some v → ∃ o, entryOwner v.entry = some o ∧ portOwner v.target = some o
  delay : ∀ {i v}, at? deps i = some v → delayAllowed v.kind v.minClocks = true

structure WellFormed (d : Design) : Prop where
  -- every element carries its own index
  nesting : Nesting d.ops
  portIds : Indexed d.ports Port.id
  busIds : Indexed d.buses Bus.id
  exitIds : Indexed d.exits Exit.id
  entryIds : Indexed d.entries Entry.id
  depIds : Indexed d.deps Dependency.id
  resourceIds : Indexed d.resources Resource.id
  taskIds : Indexed d.tasks Task.id
  regionIds : Indexed d.regions Region.id
  -- every element stands exactly once in the list of its holder and in no other list
  ports : Linked (view d.ops Design.allPorts) (view d.ports fun p => some p.owner)
  exits : Linked (view d.ops Operation.exits) (view d.exits fun x => some x.owner)
  buses : Linked (view d.exits fun x => x.done :: x.buses) (view d.buses fun b => some b.exit)
  entries : Linked (view d.ops Operation.entries) (view d.entries fun e => some e.owner)
  deps : Linked (view d.entries Entry.deps) (view d.deps fun v => some v.entry)
  readers : Linked (view d.buses Bus.dependents) (view d.deps fun v => some v.source)
  accesses : Linked (view d.resources Resource.accesses) (view d.ops Operation.accessed?)
  aimed : Aimed d.deps (view d.entries Entry.owner) (view d.ports Port.owner)
  peers : Paired (view d.ports Port.peer) (view d.buses Bus.peer)
  /-- The output buffer of an exit lies in the module that has the exit. -/
  outBufs : ∀ {i x}, at? d.exits i = some x → x.peer ≠ absent →
    view d.ops Operation.place x.peer = some (.outBuf, x.owner)

theorem wellFormed_empty (name : String) : WellFormed { name } where
  nesting :=
    { ids := .empty
      older := fun h => by rw [at?_empty] at h; cases h
      children := by simpa only [view_empty] using Linked.empty
      inBufs := fun h => by rw [view_empty] at h; cases h }
  portIds := .empty
  busIds := .empty
  exitIds := .empty
  entryIds := .empty
  depIds := .empty
  resourceIds := .empty
  taskIds := .empty
  regionIds := .empty
  ports := by simpa only [view_empty] using Linked.empty
  exits := by simpa only [view_empty] using Linked.empty
  buses := by simpa only [view_empty] using Linked.empty
  entries := by simpa only [view_empty] using Linked.empty
  deps := by simpa only [view_empty] using Linked.empty
  readers := by simpa only [view_empty] using Linked.empty
  accesses := by simpa only [view_empty] using Linked.empty
  aimed :=
    { target := fun h => by rw [at?_empty] at h; cases h
      delay := fun h => by rw [at?_empty] at h; cases h }
  peers := by simpa only [view_empty] using Paired.empty
  outBufs h := by rw [at?_empty] at h; cases h

/-! ## Parts -/

theorem Nesting.edit (h : Nesting ops) (k : Int)
    (hf : ∀ o, (f o).id = o.id ∧ (f o).kind = o.kind ∧ (f o).owner = o.owner ∧ (f o).children = o.children ∧
      (f o).inBuf = o.inBuf) :
    Nesting (editAt ops k f) where
  ids := h.ids.edit k fun o => (hf o).1
  older := by
    intro i o hi
    have : view _ Operation.owner i = some o.owner := view_of _ hi
    rw [view_edit_same _ _ fun o => (hf o).2.2.1] at this
    obtain ⟨x, hx, hxo⟩ := view_some.mp this
    exact hxo ▸ h.older hx
  children := (h.children.editLists fun o => (hf o).2.2.2.1).editHolders fun o => by
    simp only [Operation.holder?, (hf o).2.2.1]
  inBufs := by
    intro i b hb hne
    rw [view_edit_same _ _ fun o => (hf o).2.2.2.2] at hb
    rw [view_edit_same _ _ fun o => by simp only [Operation.place, (hf o).2.1, (hf o).2.2.1]]
    exact h.inBufs hb hne

theorem view_adopt {β : Type} {g : Operation → β} (hg : ∀ m cs, g { m with children := cs } = g m)
    (ops : Array Operation) (k j : Int) :
    view (editAt ops k fun m => { m with children := m.children ++ [j] }) g = view ops g :=
  view_edit_same _ _ fun m => hg m _

theorem Nesting.grow (h : Nesting ops) {a : Operation} (hid : a.id = ops.size)
    (hown : a.owner = absent ∨ 0 ≤ a.owner) (hlt : a.owner < ops.size) (hch : a.children = [])
    (hin : a.inBuf = absent) :
    Nesting (editAt (ops.push a) a.owner fun m => { m with children := m.children ++ [(ops.size : Int)] }) where
  ids := (h.ids.push hid).edit _ fun _ => rfl
  older := by
    intro i o hi
    have : view _ Operation.owner i = some o.owner := view_of _ hi
    rw [view_adopt fun _ _ => rfl, view_push] at this
    by_cases hn : i = ops.size
    · rw [hn, put_self] at this; rw [hn, ← Option.some.inj this]; exact hlt
    · rw [put_ne _ hn] at this
      obtain ⟨x, hx, hxo⟩ := view_some.mp this
      exact hxo ▸ h.older hx
  children := by
    rw [view_adopt (g := Operation.holder?) fun _ _ => rfl, view_push (g := Operation.holder?)]
    by_cases hab : a.owner = absent
    · have noedit : ∀ f : Operation → Operation, editAt (ops.push a) a.owner f = ops.push a := by
        simp [editAt, hab, absent]
      rw [noedit, view_push, hch]
      simp only [Operation.holder?, hab]
      exact (h.children.addHolder (view_size ..)).addFree (view_size ..)
    · obtain ⟨m, hm⟩ := at?_of_lt (hown.resolve_left hab) hlt
      have hm' : at? (ops.push a) a.owner = some m := by rw [at?_push, if_neg (Int.ne_of_lt hlt)]; exact hm
      rw [view_edit hm', view_push, hch]
      simp only [Operation.holder?, hab]
      refine (h.children.addHolder (view_size ..)).append ?_ ?_
      · rw [put_ne _ (Int.ne_of_lt hlt)]; exact view_of _ hm
      · intro k hk; rw [view_size] at hk; cases hk
  inBufs := by
    intro i b hb hne
    rw [view_adopt fun _ _ => rfl] at hb ⊢
    rw [view_push] at hb
    by_cases hi : i = ops.size
    · subst hi; rw [put_self, hin] at hb; cases hb; exact absurd rfl hne
    · rw [put_ne _ hi] at hb; exact view_push_of _ (h.inBufs hb hne)

theorem Aimed.mono (h : Aimed deps E P) (hE : ∀ {i o}, E i = some o → E' i = some o)
    (hP : ∀ {i o}, P i = some o → P' i = some o) : Aimed deps E' P' where
  target := by
    intro i v hv
    obtain ⟨o, he, hp⟩ := h.target hv
    exact ⟨o, hE he, hP hp⟩
  delay := h.delay

theorem Aimed.edit (h : Aimed deps E P) (k : Int) {f : Dependency → Dependency}
    (hf : ∀ v, (f v).entry = v.entry ∧ (f v).target = v.target ∧ (f v).kind = v.kind ∧
        (f v).minClocks = v.minClocks) : Aimed (editAt deps k f) E P := by
  have same : ∀ {i w}, at? (editAt deps k f) i = some w → ∃ v, at? deps i = some v ∧ w.entry = v.entry ∧
      w.target = v.target ∧ w.kind = v.kind ∧ w.minClocks = v.minClocks := by
    intro i w hw
    rw [at?_editAt] at hw
    split at hw
    · obtain ⟨v, hv, rfl⟩ := Option.map_eq_some_iff.mp hw
      exact ⟨v, hv, hf v⟩
    · exact ⟨w, hw, rfl, rfl, rfl, rfl⟩
  constructor
  · intro i w hw
    obtain ⟨v, hv, he, ht, -, -⟩ := same hw
    rw [he, ht]; exact h.target hv
  · intro i w hw
    obtain ⟨v, hv, -, -, hk, hc⟩ := same hw
    rw [hk, hc]; exact h.delay hv

/-! ## Operations and ports -/

section
variable {owner id : Int} {d d' : Design}

theorem op_ok (h : d.op i = .ok o) : at? d.ops i = some o := require_ok.mp h

theorem addOp_ok {kind : Kind} {name : String} (h : addOp kind owner name d = .ok (id, d')) :
    id = d.ops.size ∧ (owner = absent ∨ 0 ≤ owner ∧ owner ≤ d.ops.size) ∧
      d' = { d with
        ops := editAt (d.ops.push { id := d.ops.size, kind, name, owner, go := d.ports.size }) owner fun m =>
          { m with children := m.children ++ [(d.ops.size : Int)] }
        ports := d.ports.push { id := d.ports.size, owner := d.ops.size, name := "go", isGo := true } } := by
  unfold addOp at h
  by_cases ho : owner = absent
  · subst ho
    cases h
    simp [editAt, absent]
  · simp only [beq_iff_eq, ho] at h
    obtain ⟨m, hm, h⟩ := bind_ok.mp h
    cases h
    have := at?_lt (op_ok hm)
    simp only [Array.size_push] at this
    exact ⟨rfl, .inr ⟨this.1, by omega⟩, rfl⟩

theorem WellFormed.addOp (hd : WellFormed d) (ho : owner < d.ops.size)
    (h : addOp kind owner name d = .ok (id, d')) : WellFormed d' := by
  obtain ⟨rfl, hown, rfl⟩ := addOp_ok h
  exact
    { hd with
      nesting := hd.nesting.grow (a := { id := d.ops.size, kind, name, owner, go := d.ports.size })
        rfl (hown.imp_right And.left) ho rfl rfl
      portIds := hd.portIds.push rfl
      ports := by
        rw [view_adopt fun _ _ => rfl, view_push, view_push, ← put_put _ _ [] (Design.allPorts _)]
        refine (hd.ports.addHolder (view_size ..)).append (put_self ..) ?_
        rw [view_size]; nofun
      exits := by
        rw [view_adopt fun _ _ => rfl, view_push]
        exact hd.exits.addHolder (view_size ..)
      entries := by
        rw [view_adopt fun _ _ => rfl, view_push]
        exact hd.entries.addHolder (view_size ..)
      accesses := by
        rw [view_adopt fun _ _ => rfl, view_push]
        exact hd.accesses.addFree (view_size ..)
      aimed := hd.aimed.mono id (view_push_of _)
      peers := by
        rw [view_push]
        exact hd.peers.add (view_size ..)
      outBufs := by
        intro i x hx hne
        rw [view_adopt fun _ _ => rfl]
        exact view_push_of _ (hd.outBufs hx hne) }

theorem addPorts_ok (h : addPorts op count d = .ok (u, d')) : d' = { d with
      ports := d.ports ++ (List.range count.toNat).map fun i =>
        ({ id := ((d.ports.size + i : Nat) : Int), owner := op, name := s!"d{i}", isGo := false } : Port)
      ops := editAt d.ops op fun o => { o with ports := o.ports ++ idsFrom d.ports.size count.toNat } } := by
  cases h
  simp [Design.editOp, idsFrom, Function.comp_def]

theorem WellFormed.outBufs_edit (hd : WellFormed d) (hf : ∀ o, (f o).place = o.place) (hx : at? d.exits i = some x)
    (hne : x.peer ≠ absent) : view (editAt d.ops k f) Operation.place x.peer = some (.outBuf, x.owner) := by
  rw [view_edit_same _ _ hf]
  exact hd.outBufs hx hne

theorem WellFormed.addPorts (hd : WellFormed d) (ho : at? d.ops op = some o)
    (h : addPorts op count d = .ok (u, d')) : WellFormed d' := by
  rw [addPorts_ok h]
  exact
    { hd with
      nesting := hd.nesting.edit _ fun _ => ⟨rfl, rfl, rfl, rfl, rfl⟩
      portIds := hd.portIds.append fun _ => rfl
      ports := by
        rw [view_edit ho, view_append]
        exact hd.ports.appendRange (view_of _ ho) _ fun j hj => view_none _ hj
      exits := hd.exits.editLists fun _ => rfl
      entries := hd.entries.editLists fun _ => rfl
      accesses := hd.accesses.editHolders fun _ => rfl
      aimed := hd.aimed.mono id (view_append_of _ _)
      peers := by
        rw [view_append]
        exact hd.peers.addRange _ fun j hj => view_none _ hj
      outBufs := hd.outBufs_edit fun _ => rfl }

/-! ## Exits and entries -/

theorem addExit_ok (h : addExit op tag latency count d = .ok (id, d')) :
    id = d.exits.size ∧ (∃ o, at? d.ops op = some o) ∧
      d' = { d with
        exits := d.exits.push
          { id := d.exits.size, owner := op, tag, done := d.buses.size,
            buses := idsFrom (d.buses.size + 1) count.toNat, latency }
        buses :=
          d.buses.push { id := d.buses.size, exit := d.exits.size, name := tag.text ++ ".done", isDone := true } ++
          (List.range count.toNat).map fun i =>
            ({ id := ((d.buses.size + 1 + i : Nat) : Int), exit := d.exits.size, name := s!"{tag.text}.q{i}",
               isDone := false } : Bus)
        ops := editAt d.ops op fun o => { o with exits := o.exits ++ [(d.exits.size : Int)] } } := by
  obtain ⟨o, ho, h⟩ := bind_ok.mp h
  cases h
  refine ⟨rfl, ⟨o, op_ok ho⟩, ?_⟩
  simp [Design.editOp, idsFrom, Function.comp_def]

theorem WellFormed.addExit (hd : WellFormed d) (h : addExit op tag latency count d = .ok (id, d')) :
    WellFormed d' := by
  obtain ⟨-, ⟨o, ho⟩, rfl⟩ := addExit_ok h
  have fresh : ∀ {β : Type} (g : Bus → β) (v : β) (i : Int), ((d.buses.size + 1 : Nat) : Int) ≤ i →
      put (view d.buses g) d.buses.size v i = none := by
    intro β g v i hi
    rw [put_ne _ (by omega)]; exact view_none _ (by omega)
  exact
    { hd with
      nesting := hd.nesting.edit _ fun _ => ⟨rfl, rfl, rfl, rfl, rfl⟩
      busIds := (hd.busIds.push rfl).append fun k => by simp
      exitIds := hd.exitIds.push rfl
      ports := hd.ports.editLists fun _ => rfl
      exits := by
        rw [view_edit ho, view_push]
        refine hd.exits.append (view_of _ ho) ?_
        rw [view_size]; nofun
      buses := by
        rw [view_push, view_append, view_push, Array.size_push]
        have one := (hd.buses.addHolder (view_size ..)).append (put_self ..) (j := d.buses.size) (by
          rw [view_size]; nofun)
        have all := one.appendRange (put_self ..) count.toNat (fresh _ _)
        rw [put_put, put_put] at all
        exact all
      entries := hd.entries.editLists fun _ => rfl
      readers := by
        rw [view_append, view_push, Array.size_push]
        exact (hd.readers.addHolder (view_size ..)).addHolders _ (fresh _ _)
      accesses := hd.accesses.editHolders fun _ => rfl
      peers := by
        rw [view_append, view_push, Array.size_push]
        exact ((hd.peers.symm.add (view_size ..)).addRange _ (fresh _ _)).symm
      outBufs := by
        intro i x hx hne
        rw [at?_push] at hx
        split at hx
        · cases hx; exact absurd rfl hne
        · exact hd.outBufs_edit (fun _ => rfl) hx hne }

theorem addEntry_ok (h : addEntry op drive d = .ok (id, d')) : id = d.entries.size ∧ (∃ o, at? d.ops op = some o) ∧
      d' = { d with
        entries := d.entries.push { id := d.entries.size, owner := op, drive }
        ops := editAt d.ops op fun o => { o with entries := o.entries ++ [(d.entries.size : Int)] } } := by
  obtain ⟨o, ho, h⟩ := bind_ok.mp h
  cases h
  exact ⟨rfl, ⟨o, op_ok ho⟩, rfl⟩

theorem WellFormed.addEntry (hd : WellFormed d) (h : addEntry op drive d = .ok (id, d')) : WellFormed d' := by
  obtain ⟨-, ⟨o, ho⟩, rfl⟩ := addEntry_ok h
  exact
    { hd with
      nesting := hd.nesting.edit _ fun _ => ⟨rfl, rfl, rfl, rfl, rfl⟩
      entryIds := hd.entryIds.push rfl
      ports := hd.ports.editLists fun _ => rfl
      exits := hd.exits.editLists fun _ => rfl
      entries := by
        rw [view_edit ho, view_push]
        refine hd.entries.append (view_of _ ho) ?_
        rw [view_size]; nofun
      deps := by
        rw [view_push]
        exact hd.deps.addHolder (view_size ..)
      accesses := hd.accesses.editHolders fun _ => rfl
      aimed := hd.aimed.mono (view_push_of _) fun h => h
      outBufs := hd.outBufs_edit fun _ => rfl }

/-! ## Dependencies -/

theorem port_ok (h : d.port i = .ok p) : at? d.ports i = some p := require_ok.mp h

theorem bus_ok (h : d.bus i = .ok b) : at? d.buses i = some b := require_ok.mp h

theorem exit_ok (h : d.exit i = .ok x) : at? d.exits i = some x := require_ok.mp h

theorem entry_ok (h : d.entry i = .ok e) : at? d.entries i = some e := require_ok.mp h

theorem dep_ok (h : d.dep i = .ok v) : at? d.deps i = some v := require_ok.mp h

theorem addDependency_ok {kind : DepKind} (h : addDependency entry kind source target minClocks d = .ok (id, d')) :
    id = d.deps.size ∧ delayAllowed kind minClocks = true ∧
      ∃ e p b, at? d.entries entry = some e ∧ at? d.ports target = some p ∧ at? d.buses source = some b ∧
        p.owner = e.owner ∧
        d' = { d with
          deps := d.deps.push { id := d.deps.size, kind, entry, source, target, minClocks }
          entries := editAt d.entries entry fun e => { e with deps := e.deps ++ [(d.deps.size : Int)] }
          buses := editAt d.buses source fun b =>
            { b with dependents := b.dependents ++ [(d.deps.size : Int)] } } := by
  obtain ⟨e, he, h⟩ := bind_ok.mp h
  obtain ⟨p, hp, h⟩ := bind_ok.mp h
  by_cases hown : p.owner = e.owner
  · simp only [hown, bne_self_eq_false] at h
    by_cases hdel : delayAllowed kind minClocks = true
    · simp only [hdel] at h
      obtain ⟨b, hb, h⟩ := bind_ok.mp h
      cases h
      exact ⟨rfl, hdel, e, p, b, entry_ok he, port_ok hp, bus_ok hb, hown, rfl⟩
    · simp only [hdel] at h
      cases h
  · simp only [bne_iff_ne, ne_eq, hown] at h
    obtain ⟨l, hl, h⟩ := bind_ok.mp h
    cases h

theorem WellFormed.addDependency (hd : WellFormed d) {kind : DepKind}
    (h : addDependency entry kind source target minClocks d = .ok (id, d')) : WellFormed d' := by
  obtain ⟨-, hdel, e, p, b, he, hp, hb, hown, rfl⟩ := addDependency_ok h
  have fresh : ∀ (g : Dependency → Option Int) (k : Int), view d.deps g d.deps.size ≠ some (some k) := by
    intro g k; rw [view_size]; nofun
  exact
    { hd with
      busIds := hd.busIds.edit _ fun _ => rfl
      entryIds := hd.entryIds.edit _ fun _ => rfl
      depIds := hd.depIds.push rfl
      buses := hd.buses.editHolders fun _ => rfl
      entries := hd.entries.editHolders fun _ => rfl
      deps := by
        rw [view_edit he, view_push]
        exact hd.deps.append (view_of _ he) (fresh _)
      readers := by
        rw [view_edit hb, view_push]
        exact hd.readers.append (view_of _ hb) (fresh _)
      aimed := by
        rw [view_edit_same (g := Entry.owner)]
        · constructor
          · intro i v hv
            rw [at?_push] at hv
            split at hv
            · cases hv
              exact ⟨e.owner, view_of _ he, by rw [← hown]; exact view_of _ hp⟩
            · exact hd.aimed.target hv
          · intro i v hv
            rw [at?_push] at hv
            split at hv
            · cases hv; exact hdel
            · exact hd.aimed.delay hv
        · exact fun _ => rfl
      peers := hd.peers.editRight fun _ => rfl }

theorem relocate_ok (h : relocate dep source d = .ok (u, d')) :
    ∃ v b c, at? d.deps dep = some v ∧ at? d.buses v.source = some b ∧
      at? (editAt d.buses v.source fun b => { b with dependents := b.dependents.filter (· != dep) })
      source = some c ∧ d' = { d with
        deps := editAt d.deps dep fun v => { v with source }
        buses := editAt (editAt d.buses v.source fun b => { b with dependents := b.dependents.filter (· != dep) })
          source fun b => { b with dependents := b.dependents ++ [dep] } } := by
  obtain ⟨v, hv, h⟩ := bind_ok.mp h
  obtain ⟨b, hb, h⟩ := bind_ok.mp h
  obtain ⟨c, hc, h⟩ := bind_ok.mp h
  cases h
  exact ⟨v, b, c, dep_ok hv, bus_ok hb, bus_ok hc, rfl⟩

theorem WellFormed.relocate (hd : WellFormed d) (h : relocate dep source d = .ok (u, d')) : WellFormed d' := by
  obtain ⟨v, b, c, hv, hb, hc, rfl⟩ := relocate_ok h
  exact
    { hd with
      busIds := by
        refine Indexed.edit (Indexed.edit hd.busIds _ ?_) _ ?_
        · exact fun _ => rfl
        · exact fun _ => rfl
      depIds := hd.depIds.edit _ fun _ => rfl
      buses := by
        refine Linked.editHolders (Linked.editHolders hd.buses ?_) ?_
        · exact fun _ => rfl
        · exact fun _ => rfl
      deps := hd.deps.editHolders fun _ => rfl
      readers := by
        have free := hd.readers.release (view_of _ hb) (view_of _ hv)
        have e := view_edit hb (fun b => { b with dependents := b.dependents.filter (· != dep) }) Bus.dependents
        rw [← e] at free
        rw [view_edit hc, view_edit hv, ← put_put (view d.deps _) dep none]
        refine free.append (view_of _ hc) ?_
        rw [put_self]; nofun
      aimed := hd.aimed.edit dep fun _ => ⟨rfl, rfl, rfl, rfl⟩
      peers := by
        refine Paired.editRight (Paired.editRight hd.peers ?_) ?_
        · exact fun _ => rfl
        · exact fun _ => rfl }

/-! ## Changes that no link reads -/

theorem setLatency_ok (h : setLatency op latency d = .ok (u, d')) :
    ∃ x, d' = { d with exits := editAt d.exits x fun x => { x with latency } } := by
  obtain ⟨x, hx, h⟩ := bind_ok.mp h
  by_cases hab : x = absent
  · simp only [hab] at h
    obtain ⟨l, hl, h⟩ := bind_ok.mp h
    cases h
  · simp only [beq_iff_eq, hab] at h
    cases h
    exact ⟨x, rfl⟩

section
variable (hd : WellFormed d)
include hd

theorem WellFormed.setLatency (h : setLatency op latency d = .ok (u, d')) : WellFormed d' := by
  obtain ⟨k, rfl⟩ := setLatency_ok h
  exact
    { hd with
      exitIds := hd.exitIds.edit _ fun _ => rfl
      exits := hd.exits.editHolders fun _ => rfl
      buses := hd.buses.editLists fun _ => rfl
      outBufs := by
        intro i x hx hne
        rw [at?_editAt] at hx
        split at hx
        · obtain ⟨y, hy, rfl⟩ := Option.map_eq_some_iff.mp hx
          exact hd.outBufs (x := y) hy hne
        · exact hd.outBufs hx hne }

theorem WellFormed.editOp (hn : Nesting (editAt d.ops k f))
    (hf : ∀ o, (f o).place = o.place ∧ Design.allPorts (f o) = Design.allPorts o ∧ (f o).exits = o.exits ∧
        (f o).entries = o.entries ∧ (f o).resource = o.resource) : WellFormed { d with ops := editAt d.ops k f } :=
  { hd with
    nesting := hn
    ports := hd.ports.editLists fun o => (hf o).2.1
    exits := hd.exits.editLists fun o => (hf o).2.2.1
    entries := hd.entries.editLists fun o => (hf o).2.2.2.1
    accesses := hd.accesses.editHolders fun o => by simp only [Operation.accessed?, hf o]
    outBufs := hd.outBufs_edit fun o => (hf o).1 }

theorem WellFormed.editBus (k : Int) {f : Bus → Bus}
    (hf : ∀ b, (f b).id = b.id ∧ (f b).exit = b.exit ∧ (f b).peer = b.peer ∧ (f b).dependents = b.dependents) :
    WellFormed { d with buses := editAt d.buses k f } :=
  { hd with
    busIds := hd.busIds.edit _ fun b => (hf b).1
    buses := hd.buses.editHolders fun b => by rw [(hf b).2.1]
    readers := hd.readers.editLists fun b => (hf b).2.2.2
    peers := hd.peers.editRight fun b => (hf b).2.2.1 }

theorem WellFormed.editEntry (k : Int) {f : Entry → Entry}
    (hf : ∀ e, (f e).id = e.id ∧ (f e).owner = e.owner ∧ (f e).deps = e.deps) :
    WellFormed { d with entries := editAt d.entries k f } :=
  { hd with
    entryIds := hd.entryIds.edit _ fun e => (hf e).1
    entries := hd.entries.editHolders fun e => by rw [(hf e).2.1]
    deps := hd.deps.editLists fun e => (hf e).2.2
    aimed := by
      rw [view_edit_same]
      · exact hd.aimed
      · exact fun e => (hf e).2.1 }

end

end

end Datapath
