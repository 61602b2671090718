import Mathlib.Data.List.Forall2
import Datapath.Proofs.Feeds

/-!
# Wiring a value

What wiring adds for one value: a latch that holds an initial value, a register that hands a value to
the next iteration, or a single dependency. Each step succeeds and changes nothing else.
-/

namespace Datapath

open List

variable {s : Parts} {d e : Design}

abbrev Drive := DepKind × BusId × Int64

def Dependency.drive (v : Dependency) : Drive := (v.kind, v.source, v.minClocks)

def Design.driving (d : Design) (i : EntryId) (p : PortId) : List Drive :=
  ((d.depsIn i).filter (·.target == p)).map Dependency.drive

theorem Gains.driving (g : Gains T d e l) (i : EntryId) (p : PortId) : e.driving i p =
    d.driving i p ++ (l.filter fun v => v.entry == i && v.target == p).map Dependency.drive := by
  unfold Design.driving
  rw [g.deps, filter_append, map_append, filter_filter]
  simp only [Bool.and_comm]

theorem Untouched.driving (u : Untouched d e k) (hi : view d.entries Entry.face i = some (k, b)) :
    e.driving i p = d.driving i p := by
  unfold Design.driving
  rw [u.deps hi]

/-! ## Steps that succeed -/

theorem addOp_run (kind : Kind) (name : String) (ho : at? d.ops owner = some o) :
    ∃ id e, addOp kind owner name d = .ok (id, e) := by
  unfold addOp
  have : (owner == absent) = false := by simpa using ne_absent ho
  simp only [this]
  exact ⟨_, _, bind_ok.mpr ⟨o, require_ok.mpr (at?_push_of _ ho), rfl⟩⟩

theorem addEntry_run (drive : ExitId) (ho : at? d.ops k = some o) : ∃ id e, addEntry k drive d = .ok (id, e) :=
  ⟨_, _, bind_ok.mpr ⟨o, require_ok.mpr ho, rfl⟩⟩

theorem addExit_run (tag : ExitTag) (latency : Latency) (count : Int) (ho : at? d.ops k = some o) :
    ∃ id e, addExit k tag latency count d = .ok (id, e) :=
  ⟨_, _, bind_ok.mpr ⟨o, require_ok.mpr ho, rfl⟩⟩

theorem newPrimitive_run (name : String) (inputs outputs : Int) (latency : Latency) (ho : at? d.ops owner = some o)
    (hk : kind.isModule = false) : ∃ id e, newPrimitive kind owner name inputs outputs latency d = .ok (id, e) := by
  obtain ⟨id, d1, h1⟩ := addOp_run kind name ho
  obtain ⟨-, ⟨_, o1⟩, -⟩ := addOp_makes h1
  obtain ⟨u, d2, h2⟩ : ∃ u e, addPorts id inputs d1 = .ok (u, e) := ⟨_, _, rfl⟩
  have o2 := addPorts_makes h2 o1
  obtain ⟨i, d3, h3⟩ := addEntry_run absent o2
  obtain ⟨o3, -⟩ := addEntry_makes h3 o2
  obtain ⟨x, d4, h4⟩ := addExit_run .done latency outputs o3
  refine ⟨id, d4, ?_⟩
  unfold newPrimitive
  simp only [hk, Bool.false_eq_true, if_false, build_bind_ok, build_pure_ok]
  exact ⟨id, d1, h1, u, d2, h2, i, d3, h3, x, d4, h4, rfl, rfl⟩

theorem addDependency_run {kind : DepKind} (hi : view d.entries Entry.face i = some (k, b))
    (hp : view d.ports Port.face p = some (k, c)) (hs : view d.buses Bus.exit source = some x)
    (hc : delayAllowed kind clocks = true) : ∃ id e, addDependency i kind source p clocks d = .ok (id, e) := by
  obtain ⟨n, hn, hnk⟩ := view_some.mp hi
  obtain ⟨q, hq, hqk⟩ := view_some.mp hp
  obtain ⟨a, ha, -⟩ := view_some.mp hs
  have own : (q.owner != n.owner) = false := by
    have h1 : n.owner = k := congrArg Prod.fst hnk
    have h2 : q.owner = k := congrArg Prod.fst hqk
    simp [h1, h2]
  have hn : d.entry i = .ok n := require_ok.mpr hn
  have hq : d.port p = .ok q := require_ok.mpr hq
  have ha : d.bus source = .ok a := require_ok.mpr ha
  unfold addDependency
  simp only [hn, hq, ha, own, hc, bind, Except.bind]
  exact ⟨_, _, rfl⟩

theorem depend (w : WellFormed d) (kind : DepKind) (hi : view d.entries Entry.face i = some (k, b))
    (hp : view d.ports Port.face p = some (k, c)) (hs : view d.buses Bus.exit source = some x) :
    ∃ id e, addDependency i kind source p 0 d = .ok (id, e) ∧ WellFormed e ∧
      Augments d e [{ id, kind, entry := i, source, target := p, minClocks := 0 }] := by
  obtain ⟨id, e, h⟩ := addDependency_run hi hp hs (show delayAllowed kind 0 = true by simp [delayAllowed])
  exact ⟨id, e, h, w.addDependency h, gains_addDependency w h⟩

theorem connect_data (w : WellFormed d)
    (hi : view d.entries Entry.face i = some (k, b)) (hp : view d.ports Port.face p = some (k, false))
    (hs : view d.buses Bus.exit source = some x) : ∃ id e, connect i source p d = .ok (id, e) ∧ WellFormed e ∧
      Augments d e [{ id, kind := .data, entry := i, source, target := p, minClocks := 0 }] := by
  obtain ⟨q, hq, hface⟩ := view_some.mp hp
  have go : q.isGo = false := congrArg Prod.snd hface
  obtain ⟨id, e, h, rest⟩ := depend w .data hi hp hs
  refine ⟨id, e, ask_bind_ok.mpr ⟨q, require_ok.mpr hq, ?_⟩, rest⟩
  rw [go]
  exact h

theorem drive_changed (w : WellFormed d) (hi : view d.entries Entry.face i = some v) (x : ExitId) :
    ∃ u e, changeEntry i (fun n => { n with drive := x }) d = .ok (u, e) ∧ WellFormed e ∧
      Augments d e [] := by
  obtain ⟨n, hn, -⟩ := view_some.mp hi
  obtain ⟨u, e, h⟩ : ∃ u e, changeEntry i (fun n => { n with drive := x }) d = .ok (u, e) :=
    ⟨_, _, bind_ok.mpr ⟨n, require_ok.mpr hn, rfl⟩⟩
  exact ⟨u, e, h, (keeps_changeEntry _ fun _ => ⟨by rfl, by rfl, by rfl⟩).kept w h,
    gains_changeEntry (fun _ => ⟨by rfl, by rfl⟩) h⟩

section
variable {α β : Type}

def Yields (m : Build α) (d : Design) (Q : α → Design → Prop) : Prop := ∃ a e, m d = .ok (a, e) ∧ Q a e

variable {f : α → Build β} {Q : β → Design → Prop} {a : α}

theorem Yields.step {m : Build α} (h : m d = .ok (a, e)) (hf : Yields (f a) e Q) : Yields (m >>= f) d Q := by
  obtain ⟨b, e', h', hQ⟩ := hf
  exact ⟨b, e', build_bind_ok.mpr ⟨a, e, h, h'⟩, hQ⟩

theorem Yields.ask {q : Design → Except Fault α} (h : q d = .ok a) (hf : Yields (f a) d Q) :
    Yields (ask q >>= f) d Q :=
  .step (ask_ok.mpr ⟨h, rfl⟩) hf

theorem Yields.pure {b : β} (h : Q b d) : Yields (pure b) d Q := ⟨b, d, rfl, h⟩

end

namespace Loop

/-! ## Cells -/

/-- An operation of the loop with one entry and one output. The inputs give what drives its data
ports; its go port is free. -/
structure Cell (d : Design) (loop cell : OpId) (kind : Kind) (inputs : List (List Drive)) (out : BusId) : Prop where
  shape : ∃ o i x y, at? d.ops cell = some o ∧ o.place = (kind, loop) ∧ o.entries = [i] ∧ d.driving i o.go = [] ∧
    o.ports.map (d.driving i) = inputs ∧ o.exits = [x] ∧ at? d.exits x = some y ∧ y.buses = [out]

structure Parts.Fills (s : Parts) (d e : Design) : Prop where
  wellFormed : WellFormed e
  gains : ∃ l, Gains (fun _ => False) d e l
  others : ∀ {k}, k ≠ s.body → Untouched d e k

structure Parts.Adds (s : Parts) (d e : Design) (p : PortId) (a b : List Drive) : Prop where
  initial : e.driving s.initial p = d.driving s.initial p ++ a
  feedback : e.driving s.feedback p = d.driving s.feedback p ++ b

section
variable {f : Design}

theorem Parts.Of.gains {l : List Dependency} (h : s.Of d loop) (g : Augments d e l) : s.Of e loop where
  outside := h.outside.firm g.firm
  inside := h.inside.intact (g.intact fun h => h)
  runs := by
    obtain ⟨o, ho, body⟩ := h.runs
    obtain ⟨cs, ho'⟩ := g.op (fun h => h) ho
    exact ⟨_, ho', body⟩

theorem Parts.Of.start_bus (w : WellFormed d) (h : s.Of d loop) : ∃ x, view d.buses Bus.exit s.start = some x := by
  obtain ⟨x, hx, -, -, done⟩ := h.outside.input
  obtain ⟨b, hb, -⟩ := w.buses.holds hx s.start (by rw [done]; exact mem_cons_self)
  exact ⟨_, view_of _ hb⟩

theorem Parts.Of.fills (h : s.Of d loop) (w : WellFormed e) {l : List Dependency} (g : Augments d e l)
    (hl : ∀ v ∈ l, v.entry = s.initial ∨ v.entry = s.feedback ∨ ∀ a, view d.entries Entry.face v.entry ≠ some a) :
    s.Fills d e where
  wellFormed := w
  gains := ⟨l, g⟩
  others := by
    intro k ne
    apply g.untouched fun h => h
    intro v hv b face
    rcases hl v hv with e | e | new
    · rw [e, h.inside.initial] at face
      exact ne (congrArg Prod.fst (Option.some.inj face)).symm
    · rw [e, h.inside.feedback] at face
      exact ne (congrArg Prod.fst (Option.some.inj face)).symm
    · exact new _ face

theorem Parts.Fills.trans (h : s.Fills d e) (h' : s.Fills e f) : s.Fills d f where
  wellFormed := h'.wellFormed
  gains := by
    obtain ⟨l, g⟩ := h.gains
    obtain ⟨l', g'⟩ := h'.gains
    exact ⟨_, g.trans g'⟩
  others ne := (h.others ne).trans (h'.others ne)

theorem Parts.adds {l : List Dependency} (s : Parts) (g : Gains T d e l) (p : PortId) :
    s.Adds d e p ((l.filter fun v => v.entry == s.initial && v.target == p).map Dependency.drive)
      ((l.filter fun v => v.entry == s.feedback && v.target == p).map Dependency.drive) :=
  ⟨g.driving .., g.driving ..⟩

theorem Parts.Adds.trans {b : List Drive} (h : s.Adds d e p a b) (h' : s.Adds e f p a' b') :
    s.Adds d f p (a ++ a') (b ++ b') := by
  constructor
  · rw [h'.initial, h.initial, append_assoc]
  · rw [h'.feedback, h.feedback, append_assoc]

theorem Cell.untouched (w : WellFormed d) (h : Cell d loop cell kind inputs out)
    (u : Untouched d e cell) : Cell e loop cell kind inputs out := by
  obtain ⟨o, i, x, y, ho, place, entries, go, ports, exits, hy, buses⟩ := h.shape
  obtain ⟨b, face⟩ := entry_face w ho (show i ∈ o.entries by rw [entries]; exact mem_singleton_self i)
  obtain ⟨z, hz, own⟩ := w.exits.holds ho x (by rw [exits]; exact mem_singleton_self x)
  cases hy.symm.trans hz
  obtain ⟨cs, ho'⟩ := u.op ho
  have same : e.driving i = d.driving i := funext fun p => u.driving face
  refine ⟨_, i, x, y, ho', place, entries, ?_, ?_, exits, u.exit hy (Option.some.inj own), buses⟩
  · rw [same]
    exact go
  · rw [same]
    exact ports

end

/-- A new operation of a loop starts with the exit of a bus. -/
theorem yields_blank {lp : Operation} {α : Type} {f : OpId → Operation → EntryId → Build α} {Q : α → Design → Prop}
  {inputs : Int}
    (w : WellFormed d) (ho : at? d.ops loop = some lp)
    (hs : view d.buses Bus.exit source = some x) (hk : kind.isModule = false)
    (rest : ∀ {cell d₁ o i q}, Blank d d₁ loop cell kind o i q → o.ports.length = inputs.toNat →
      Yields (f cell o i) d₁ Q) :
    Yields (do
      let cell ← newPrimitive kind loop name inputs 1 latency
      let o ← ask (·.op cell)
      let entry ← ask fun _ => o.firstEntry
      let drive ← ask fun d => return (← d.bus source).exit
      changeEntry entry fun n => { n with drive }
      f cell o entry) d Q := by
  obtain ⟨cell, d1, made⟩ := newPrimitive_run name inputs 1 latency ho hk
  obtain ⟨o, i, q, blank, ports⟩ := blank_made w ho made
  obtain ⟨u, d2, driven, w2, g2⟩ := drive_changed blank.wellFormed blank.face x
  obtain ⟨n, hn, rfl⟩ := view_some.mp (blank.gains.bus hs)
  refine .step made
    (.ask (require_ok.mpr blank.op) (.ask (a := i) (by rw [Operation.firstEntry, blank.entries]; rfl) ?_))
  refine .ask (bind_ok.mpr ⟨n, require_ok.mpr hn, rfl⟩) (.step driven (rest (q := q) ?_ ports))
  have ops : d2.ops = d1.ops := by
    obtain ⟨-, rfl⟩ := changeEntry_ok driven
    rfl
  obtain ⟨x', y, exits, hy, buses⟩ := blank.out
  exact
    { blank with
      wellFormed := w2
      gains := blank.gains.trans g2
      places := (changeEntry_places driven).trans blank.places
      op := ops ▸ blank.op
      face := g2.entry blank.face
      faces := fun p hp => g2.face (blank.faces p hp)
      deps := by rw [g2.deps, blank.deps]; rfl
      out := ⟨x', y, exits, g2.exit hy, buses⟩ }

section
variable {d1 : Design} (h : Blank d d1 loop cell kind o i q)
include h

theorem Blank.bus : ∃ x, view d1.buses Bus.exit q = some x := by
  obtain ⟨x, y, -, hy, buses⟩ := h.out
  obtain ⟨b, hb, -⟩ := h.wellFormed.buses.holds hy q (by rw [buses]; simp)
  exact ⟨_, view_of _ hb⟩

theorem Blank.entry_ne (w : WellFormed d) (hj : view d.entries Entry.face j = some v) : i ≠ j := by
  intro e
  have face := h.face
  rw [e, h.gains.entry hj] at face
  cases face
  obtain ⟨n, hn, own⟩ := view_some.mp hj
  obtain ⟨r, hr, -⟩ := w.entries.held hn rfl
  rw [show n.owner = cell from congrArg Prod.fst own] at hr
  exact absurd (at?_lt hr).2 (by rw [h.new]; exact Int.lt_irrefl _)

theorem Blank.made {l : List Dependency} (g : Augments d1 e l) : (d.ops.size : Int) ≤ cell ∧ cell < e.ops.size := by
  have le := g.size
  have lt := (at?_lt h.op).2
  exact ⟨Int.le_of_eq h.new.symm, Int.lt_of_lt_of_le lt (Int.ofNat_le.mpr le)⟩

theorem Blank.only (same : e.places = d1.places) :
    ∀ k : Int, d.ops.size ≤ k → k < e.ops.size → some cell = some k := by
  intro k le lt
  have size := congrArg length (same.trans h.places)
  simp only [length_places, length_append, length_singleton] at size
  rw [h.new, Option.some.injEq]
  exact Int.le_antisymm le (by omega)

theorem Blank.driven {l : List Dependency} (g : Augments d1 e l) (go : ∀ v ∈ l, v.entry = i → v.target ≠ o.go) :
    Cell e loop cell kind (o.ports.map
        fun p => (l.filter fun v => v.entry == i && v.target == p).map Dependency.drive)
      q := by
  obtain ⟨cs, ho⟩ := g.op (fun h => h) h.op
  obtain ⟨x, y, exits, hy, buses⟩ := h.out
  have blank : ∀ p, d1.driving i p = [] := by
    intro p
    rw [Design.driving, h.deps]
    rfl
  refine ⟨_, i, x, y, ho, h.place, h.entries, ?_, ?_, exits, g.exit hy, buses⟩
  · rw [g.driving, blank, filter_eq_nil_iff.mpr]
    · rfl
    · intro v hv
      simpa using go v hv
  · apply map_congr_left
    intro p _
    rw [g.driving, blank, nil_append]

end

/-! ## Links -/

structure Leads (d : Design) (l : PortId × BusId) (k : OpId) : Prop where
  port : view d.ports Port.face l.1 = some (k, false)
  bus : ∃ x, view d.buses Bus.exit l.2 = some x

abbrev Outcome (β : Type) := Design → PortId × BusId → β → List Drive → List Drive → Prop

/-- A value of the start goes to the port as it is if the port is fed back. If not, a latch holds it
for both entries. -/
inductive Parts.Initial (s : Parts) (loop : OpId) (fb : Links) (d : Design) :
    PortId × BusId → Option (PortId × OpId) → List Drive → List Drive → Prop where
  | passed {p : PortId} {b : BusId} (known : fb.has p = true) : s.Initial loop fb d (p, b) none [(.data, b, 0)] []
  | held {p : PortId} {b : BusId} {latch : OpId} {q : BusId} (alone : fb.has p = false)
      (cell : Cell d loop latch .latch [[(.control, s.start, 0)], [(.data, b, 0)]] q) :
      s.Initial loop fb d (p, b) (some (p, latch)) [(.data, q, 0)] [(.data, q, 0)]

inductive Handed (loop : OpId) (d : Design) :
    PortId × BusId → PortId × OpId → List Drive → List Drive → Prop where
  | register {p : PortId} {b : BusId} {reg : OpId} {q : BusId} (cell : Cell d loop reg .reg [[(.data, b, 0)]] q) :
      Handed loop d (p, b) (p, reg) [] [(.data, q, 0)]

/-- Each link has become what it shall, with an operation of its own if it takes one, and the entries
of the body get nothing else. -/
structure Parts.Wires {β : Type} (s : Parts) (cell? : β → Option OpId) (out : Outcome β) (d e : Design) (ls : Links)
    (rs : List β) : Prop where
  fills : s.Fills d e
  each : List.Forall₂ (fun l r => ∃ a c, out e l r a c ∧ s.Adds d e l.1 a c) ls rs
  rest : ∀ {p}, p ∉ ls.map Prod.fst → s.Adds d e p [] []
  new : ∀ {c : Int}, c ∈ rs.filterMap cell? → d.ops.size ≤ c ∧ c < e.ops.size
  only : ∀ {c : Int}, d.ops.size ≤ c → c < e.ops.size → c ∈ rs.filterMap cell?
  distinct : (rs.filterMap cell?).Nodup

section
variable {β : Type} {cell? : β → Option OpId} {out : Outcome β} {f : Design}

theorem Parts.Fills.of (h : s.Fills d e) (of : s.Of d loop) : s.Of e loop := by
  obtain ⟨l, g⟩ := h.gains
  exact of.gains g

theorem Leads.gains (h : Leads d l k) (g : Augments d e vs) : Leads e l k := by
  obtain ⟨x, hx⟩ := h.bus
  exact ⟨g.face h.port, x, g.bus hx⟩

theorem Leads.owner (h : Leads d l k) : view d.ports Port.owner l.1 = some k := by
  obtain ⟨r, hr, face⟩ := view_some.mp h.port
  exact view_some.mpr ⟨r, hr, congrArg Prod.fst face⟩

theorem Leads.unique (h : Leads d l k) (h' : Leads d l k') : k = k' := by
  cases h.port.symm.trans h'.port
  rfl

theorem Parts.Fills.leads (h : s.Fills d e) (leads : Leads d l k) : Leads e l k := by
  obtain ⟨v, g⟩ := h.gains
  exact leads.gains g

theorem Parts.Fills.cell (h : s.Fills d e) (w : WellFormed d) (of : s.Of d loop)
    (cell : Cell d loop c kind inputs q) (hk : kind ≠ .whileBody) : Cell e loop c kind inputs q := by
  obtain ⟨o, _, _, _, ho, place, -⟩ := cell.shape
  exact cell.untouched w (h.others (of.inside.ne_body ho place hk))

structure Parts.Lasting (s : Parts) (loop : OpId) (out : Outcome β) : Prop where
  keeps : ∀ {d e l r a c}, WellFormed d → s.Of d loop → s.Fills d e → out d l r a c → out e l r a c

theorem initial_lasting : s.Lasting loop (s.Initial loop fb) := by
  refine ⟨?_⟩
  intro d e l r a c w of fills h
  cases h with
  | passed known => exact .passed known
  | held alone cell => exact .held alone (fills.cell w of cell nofun)

theorem handed_lasting : s.Lasting loop (Handed loop) := by
  refine ⟨?_⟩
  intro d e l r a c w of fills h
  cases h with
  | register cell => exact .register (fills.cell w of cell nofun)

theorem Parts.Wires.one (fills : s.Fills d e) {r : β} (h : out e l r a c) (add : s.Adds d e l.1 a c)
    (rest : ∀ p, p ≠ l.1 → s.Adds d e p [] []) (new : ∀ k : Int, cell? r = some k → d.ops.size ≤ k ∧ k < e.ops.size)
    (only : ∀ k : Int, d.ops.size ≤ k → k < e.ops.size → cell? r = some k) : s.Wires cell? out d e [l] [r] where
  fills := fills
  each := .cons ⟨a, c, h, add⟩ .nil
  rest hp := rest _ (by simpa using hp)
  new := by
    intro k hk
    obtain ⟨r', hr, hk⟩ := mem_filterMap.mp hk
    rw [mem_singleton.mp hr] at hk
    exact new k hk
  only le lt := mem_filterMap.mpr ⟨r, mem_singleton_self r, only _ le lt⟩
  distinct := by
    cases hr : cell? r with
    | none => simp [hr]
    | some k => simp [hr]

theorem Parts.Wires.cons (of : s.Of d loop) (lasting : s.Lasting loop out) {r : β} {rs : List β}
    (h : s.Wires cell? out d e [l] [r]) (h' : s.Wires cell? out e f ls rs) (fresh : l.1 ∉ ls.map Prod.fst) :
    s.Wires cell? out d f (l :: ls) (r :: rs) where
  fills := h.fills.trans h'.fills
  each := by
    obtain ⟨⟨a, c, hr, add⟩, -⟩ := forall₂_cons.mp h.each
    refine .cons ⟨a, c, lasting.keeps h.fills.wellFormed (h.fills.of of) h'.fills hr, ?_⟩ ?_
    · simpa using add.trans (h'.rest fresh)
    · have ne : ∀ k ∈ ls, k.1 ≠ l.1 := fun k hk e => fresh (e ▸ mem_map_of_mem hk)
      refine ((forall₂_and_left ls rs).mpr ⟨ne, h'.each⟩).imp ?_
      · rintro k r' ⟨ne, a', c', hr', add'⟩
        exact ⟨a', c', hr', by simpa using (h.rest (by simpa using ne)).trans add'⟩
  rest hp := by
    rw [map_cons, mem_cons, not_or] at hp
    simpa using (h.rest (by simpa using hp.1)).trans (h'.rest hp.2)
  new := by
    intro k hk
    obtain ⟨v, g⟩ := h.fills.gains
    obtain ⟨v', g'⟩ := h'.fills.gains
    have le := g.size
    have le' := g'.size
    rw [← singleton_append, filterMap_append, mem_append] at hk
    rcases hk with hk | hk
    · have := h.new hk
      omega
    · have := h'.new hk
      omega
  only := by
    intro k le lt
    rw [← singleton_append, filterMap_append, mem_append]
    by_cases early : k < e.ops.size
    · exact .inl (h.only le early)
    · exact .inr (h'.only (Int.not_lt.mp early) lt)
  distinct := by
    rw [← singleton_append, filterMap_append, nodup_append]
    refine ⟨h.distinct, h'.distinct, fun k hk k' hk' e => ?_⟩
    have lt := (h.new hk).2
    have le := (h'.new hk').1
    rw [e] at lt
    omega

theorem wires_all {step : PortId × BusId → Build β} (lasting : s.Lasting loop out)
    (one : ∀ {d l}, WellFormed d → s.Of d loop → Leads d l s.body → Yields (step l) d
        fun r e => s.Wires cell? out d e [l] [r]) (w : WellFormed d) (of : s.Of d loop)
    (leads : ∀ l ∈ ls, Leads d l s.body) (keys : (ls.map Prod.fst).Nodup) :
    Yields (ls.mapM step) d fun rs e => s.Wires cell? out d e ls rs := by
  induction ls generalizing d with
  | nil =>
    have g := Gains.refl (fun _ => False) d
    exact .pure ⟨of.fills w g nofun, .nil, fun {p} _ => s.adds g p, nofun,
      fun le lt => absurd lt (Int.not_lt.mpr le), nodup_nil⟩
  | cons l ls ih =>
    obtain ⟨fresh, keys⟩ := nodup_cons.mp keys
    obtain ⟨r, e, h, wires⟩ := one w of (leads l mem_cons_self)
    obtain ⟨rs, f, h', wires'⟩ := ih wires.fills.wellFormed (wires.fills.of of)
      (fun k hk => wires.fills.leads (leads k (mem_cons_of_mem _ hk))) keys
    rw [mapM_cons]
    exact .step h (.step h' (.pure (wires.cons of lasting wires' fresh)))

end

/-! ## Latches and registers -/

section
variable (w : WellFormed d) (of : s.Of d loop)
include w of

theorem wireInitial_held {lp : Operation} (hl : lp.id = loop) (leads : Leads d (p, b) s.body)
    (alone : fb.has p = false) : Yields (wireInitial lp ⟨s.initial, s.feedback, s.start⟩ fb p b) d fun r e =>
      s.Wires (Option.map Prod.snd) (s.Initial loop fb) d e [(p, b)] [r] := by
  obtain ⟨hp, x, hb⟩ := leads
  obtain ⟨lo, hlo, -⟩ := of.runs
  obtain ⟨r, hr, hface⟩ := view_some.mp hp
  have hi := of.inside.initial
  have hj := of.inside.feedback
  obtain ⟨y, start⟩ := of.start_bus w
  unfold wireInitial
  rw [if_neg (by rw [alone]; decide), hl]
  refine .ask (require_ok.mpr hr) (yields_blank w hlo start rfl fun {latch d1 o i q} blank len => ?_)
  obtain ⟨p0, p1, ports⟩ := length_eq_two.mp len
  have port0 := blank.faces p0 (by rw [ports]; simp)
  have port1 := blank.faces p1 (by rw [ports]; simp)
  obtain ⟨z, out⟩ := blank.bus
  -- the latch takes the value when the loop starts
  obtain ⟨v1, d2, h2, w2, g2⟩ := depend blank.wellFormed .control blank.face port0 (blank.gains.bus start)
  obtain ⟨v2, d3, h3, w3, g3⟩ := depend w2 .data (g2.entry blank.face) (g2.face port1) (g2.bus (blank.gains.bus hb))
  have g13 := blank.gains.trans (g2.trans g3)
  -- it drives the port in both entries
  obtain ⟨v3, d4, h4, w4, g4⟩ := connect_data w3 (g13.entry hj) (g13.face hp) ((g2.trans g3).bus out)
  obtain ⟨v4, d5, h5, w5, g5⟩ := connect_data w4 (g4.entry (g13.entry hi)) (g4.face (g13.face hp))
    (g4.bus ((g2.trans g3).bus out))
  have late := (g2.trans g3).trans (g4.trans g5)
  refine .ask (a := p0) (by rw [Operation.firstPort, ports]; rfl) (.step h2 ?_)
  refine .ask (a := p1) (by rw [ports]; rfl) (.step h3 ?_)
  refine .ask (blank.held (g2.trans g3)) (.step h4 (.step h5 (.pure ?_)))
  have all := blank.gains.trans late
  have n1 : i ≠ s.initial := blank.entry_ne w hi
  have n2 : i ≠ s.feedback := blank.entry_ne w hj
  have n3 : s.feedback ≠ s.initial := entry_ne hj hi (by simp)
  have distinct := blank.wellFormed.ports.nodup (view_of Design.allPorts blank.op)
  rw [Design.allPorts, ports] at distinct
  simp only [nodup_cons, mem_cons, not_mem_nil, or_false, not_or] at distinct
  obtain ⟨⟨n4, n5⟩, n6, -⟩ := distinct
  have new : ∀ a, view d.entries Entry.face i ≠ some a := fun a ha => blank.entry_ne w ha rfl
  have cell : Cell d5 loop latch .latch [[(.control, s.start, 0)], [(.data, b, 0)]] q := by
    have cell := blank.driven late (by simp [n1.symm, n2.symm, Ne.symm n4, Ne.symm n5])
    rw [ports] at cell
    simpa [n1.symm, n2.symm, n6, Ne.symm n6, Dependency.drive] using cell
  apply Parts.Wires.one (of.fills w5 all (by simp [new])) (.held alone cell)
  · simpa [n1, n2, n3, n3.symm, Dependency.drive] using s.adds all p
  · intro p' ne
    simpa [n1, n2, Ne.symm ne] using s.adds all p'
  · rintro k ⟨⟩
    exact blank.made late
  · apply blank.only
    rw [connect_places h5, connect_places h4, addDependency_places h3, addDependency_places h2]

theorem wireInitial_passed {lp : Operation} (leads : Leads d (p, b) s.body) (known : fb.has p = true) :
    Yields (wireInitial lp ⟨s.initial, s.feedback, s.start⟩ fb p b) d fun r e =>
      s.Wires (Option.map Prod.snd) (s.Initial loop fb) d e [(p, b)] [r] := by
  obtain ⟨hp, x, hb⟩ := leads
  obtain ⟨v, e, h, w', g⟩ := connect_data w of.inside.initial hp hb
  have ne : s.initial ≠ s.feedback := entry_ne of.inside.initial of.inside.feedback (by simp)
  unfold wireInitial
  rw [if_pos known]
  refine .step h (.pure (.one (of.fills w' g (by simp)) (.passed known) ?_ ?_ nofun ?_))
  · simpa [ne, Dependency.drive] using s.adds g p
  · intro p' np
    simpa [Ne.symm np] using s.adds g p'
  · intro k le lt
    rw [← length_places, connect_places h, length_places] at lt
    exact absurd lt (Int.not_lt.mpr le)

theorem wireFeedback_handed {lp : Operation} (hl : lp.id = loop) (leads : Leads d (p, b) s.body) :
    Yields (wireFeedback lp ⟨s.initial, s.feedback, s.start⟩ p b) d fun r e =>
      s.Wires (fun r => some r.2) (Handed loop) d e [(p, b)] [r] := by
  obtain ⟨hp, x, hb⟩ := leads
  obtain ⟨lo, hlo, -⟩ := of.runs
  obtain ⟨r, hr, hface⟩ := view_some.mp hp
  have hi := of.inside.initial
  have hj := of.inside.feedback
  unfold wireFeedback
  rw [hl]
  refine .ask (require_ok.mpr hr) (yields_blank w hlo hb rfl fun {reg d1 o i q} blank len => ?_)
  obtain ⟨p0, ports⟩ := length_eq_one_iff.mp len
  have port0 := blank.faces p0 (by rw [ports]; simp)
  obtain ⟨z, out⟩ := blank.bus
  obtain ⟨v1, d2, h2, w2, g2⟩ := depend blank.wellFormed .data blank.face port0 (blank.gains.bus hb)
  have g12 := blank.gains.trans g2
  obtain ⟨v2, d3, h3, w3, g3⟩ := depend w2 .data (g12.entry hj) (g12.face hp) (g2.bus out)
  have late := g2.trans g3
  refine .ask (a := p0) (by rw [Operation.firstPort, ports]; rfl) (.step h2 ?_)
  refine .ask (blank.held g2) (.step h3 (.pure ?_))
  have all := blank.gains.trans late
  have n1 : i ≠ s.initial := blank.entry_ne w hi
  have n2 : i ≠ s.feedback := blank.entry_ne w hj
  have n3 : s.feedback ≠ s.initial := entry_ne hj hi (by simp)
  have distinct := blank.wellFormed.ports.nodup (view_of Design.allPorts blank.op)
  rw [Design.allPorts, ports] at distinct
  simp only [nodup_cons, mem_cons, not_mem_nil, or_false] at distinct
  have new : ∀ a, view d.entries Entry.face i ≠ some a := fun a ha => blank.entry_ne w ha rfl
  have cell : Cell d3 loop reg .reg [[(.data, b, 0)]] q := by
    have cell := blank.driven late (by simp [n2.symm, Ne.symm distinct.1])
    rw [ports] at cell
    simpa [n2.symm, Dependency.drive] using cell
  apply Parts.Wires.one (of.fills w3 all (by simp [new])) (.register cell)
  · simpa [n1, n2, n3, Dependency.drive] using s.adds all p
  · intro p' ne
    simpa [n1, n2, Ne.symm ne] using s.adds all p'
  · rintro k ⟨⟩
    exact blank.made late
  · apply blank.only
    rw [addDependency_places h3, addDependency_places h2]

end

end Loop

/-! ## Questions about a loop -/

section
open List

theorem query_forM_ok {α σ : Type} {f : α → ExceptT ε (Except σ) PUnit} {l : List α} :
    (l.forM f).run = .ok (.ok u) ↔ ∀ a ∈ l, (f a).run = .ok (.ok ()) := by
  induction l with
  | nil => exact ⟨nofun, fun _ => rfl⟩
  | cons a l ih =>
    change (f a >>= fun _ => l.forM f).run = _ ↔ _
    rw [query_bind_ok, forall_mem_cons]
    constructor
    · rintro ⟨_, ha, h⟩
      exact ⟨ha, ih.mp h⟩
    · rintro ⟨ha, h⟩
      exact ⟨_, ha, ih.mpr h⟩

theorem depsOn_ok (hi : view d.entries Entry.face i = some v) :
    d.depsOn i p = .ok (((d.depsIn i).filter (·.target == p)).map Dependency.id) := by
  obtain ⟨e, he, -⟩ := view_some.mp hi
  rw [depsIn_of he]
  exact bind_ok.mpr ⟨e, require_ok.mpr he, rfl⟩

theorem dep_in (w : WellFormed d) {v : Dependency} (h : v ∈ d.depsIn i) : at? d.deps v.id = some v := by
  cases he : d.entryAt? i with
  | none => simp [Design.depsIn, he] at h
  | some e =>
    rw [depsIn_of he] at h
    obtain ⟨k, hk, hv⟩ := mem_filterMap.mp h
    rw [w.depIds k v hv]
    exact hv

theorem exitWith?_eq (h : ∃ l l', o.exits = l ++ i :: l' ∧ ∀ j ∈ l, ∃ y, at? d.exits j = some y ∧ y.tag ≠ tag)
    (hx : at? d.exits i = some x) (ht : x.tag = tag) : d.exitWith? o tag = some x := by
  obtain ⟨l, l', exits, before⟩ := h
  have hx : d.exit? i = some x := hx
  rw [Design.exitWith?, Design.exitsOf, exits, filterMap_append, find?_append, find?_eq_none.mpr,
    filterMap_cons_some hx, Option.none_or, find?_cons_of_pos]
  · exact beq_iff_eq.mpr ht
  · intro y hy
    obtain ⟨j, hj, hy⟩ := mem_filterMap.mp hy
    obtain ⟨z, hz, ne⟩ := before j hj
    cases hz.symm.trans hy
    simpa using ne

namespace Loop

section
variable (w : WellFormed d) (of : s.Of d loop)
include w of

theorem exitsOf_run {lp : Operation} (ho : at? d.ops loop = some lp) :
    (exitsOf d lp).run = .ok (.ok ⟨s.again, s.leave, s.input⟩) := by
  obtain ⟨o, ho', body⟩ := of.runs
  obtain ⟨q, x, y, hq, -, inBuf, -⟩ := of.outside.op
  cases ho.symm.trans ho'
  cases ho.symm.trans hq
  obtain ⟨b, hb, -, -, -, exits⟩ := of.inside.op
  obtain ⟨x1, h1, -, t1⟩ := of.inside.again
  obtain ⟨x2, h2, -, t2⟩ := of.inside.leave
  obtain ⟨i, hi, -, iexits⟩ := of.outside.inBuf
  obtain ⟨x3, h3, -, t3, -⟩ := of.outside.input
  have again : d.exitOf lp.body .feedback = .ok s.again := by
    rw [body]
    refine bind_ok.mpr ⟨b, require_ok.mpr hb, ?_⟩
    rw [exitWith?_eq ⟨[], _, exits, nofun⟩ h1 t1]
    exact congrArg Except.ok (w.exitIds _ _ h1)
  have leave : d.exitOf lp.body .done = .ok s.leave := by
    rw [body]
    refine bind_ok.mpr ⟨b, require_ok.mpr hb, ?_⟩
    rw [exitWith?_eq ⟨[s.again], [], exits, by simpa using ⟨x1, h1, by rw [t1]; decide⟩⟩ h2 t2]
    exact congrArg Except.ok (w.exitIds _ _ h2)
  have input : d.mainExit lp.inBuf = .ok s.input := by
    rw [inBuf]
    refine bind_ok.mpr ⟨i, require_ok.mpr hi, ?_⟩
    rw [Design.mainExit?, exitWith?_eq ⟨[], [], iexits, nofun⟩ h3 t3]
    exact congrArg Except.ok (w.exitIds _ _ h3)
  have n1 := ne_absent h1
  have n2 := ne_absent h2
  refine query_bind_ok.mpr ⟨_, query_lift_ok.mpr again, query_bind_ok.mpr ⟨_, query_lift_ok.mpr leave, ?_⟩⟩
  refine query_bind_ok.mpr ⟨_, query_lift_ok.mpr input, ?_⟩
  rw [if_neg, if_neg]
  · rfl
  · simpa using n2
  · simpa using n1

theorem feedbackWay_eq (hb : bd.entries = [s.initial, s.feedback]) : feedbackWay? d bd = some s.feedback := by
  obtain ⟨i, hi, face⟩ := view_some.mp of.inside.initial
  obtain ⟨j, hj, face'⟩ := view_some.mp of.inside.feedback
  have hi' : d.entryAt? s.initial = some i := hi
  have hj' : d.entryAt? s.feedback = some j := hj
  have fi : i.feedback = false := congrArg Prod.snd face
  have fj : j.feedback = true := congrArg Prod.snd face'
  simp [feedbackWay?, Design.entriesOf, hb, hi', hj', fi, fj]
  exact w.entryIds _ _ hj

theorem waysOf_run (unfed : s.Unfed d) (ho : at? d.ops s.body = some bd) :
    (waysOf d bd).run = .ok (.ok ⟨s.initial, s.feedback, s.start⟩) := by
  obtain ⟨o, ho', -, go, entries, -⟩ := of.inside.op
  cases ho.symm.trans ho'
  obtain ⟨v, hv, source, target⟩ := unfed.initial
  refine query_bind_ok.mpr ⟨s.initial, query_lift_ok.mpr (by rw [Operation.firstEntry, entries]; rfl), ?_⟩
  rw [feedbackWay_eq w of entries]
  refine query_bind_ok.mpr ⟨[v.id], query_lift_ok.mpr ?_, ?_⟩
  · rw [depsOn_ok of.inside.initial, hv, go]
    simp [target]
  · refine query_bind_ok.mpr ⟨v, query_lift_ok.mpr ?_, ?_⟩
    · exact require_ok.mpr (dep_in w (hv ▸ mem_singleton_self v))
    · rw [source]
      rfl

end

theorem checkTargets_ok : (checkTargets d s.body ls).run = .ok (.ok u) ↔
    ∀ l ∈ ls, view d.ports Port.owner l.1 = some s.body := by
  rw [checkTargets, query_forM_ok]
  refine forall₂_congr fun l _ => ?_
  rw [query_bind_ok, view_some]
  refine exists_congr fun p => ?_
  rw [query_lift_ok, Design.port, require_ok]
  refine and_congr_right fun _ => ?_
  by_cases h : p.owner = s.body
  · rw [if_neg (by simp [h])]
    exact ⟨fun _ => h, fun _ => rfl⟩
  · rw [if_pos (by simp [h]), reject_ok]
    exact ⟨False.elim, h⟩

theorem checkComplete_ok (w : WellFormed e) (of : s.Of e loop) (entries : bd.entries = [s.initial, s.feedback])
    (ports : ∀ p ∈ bd.ports, ∃ r, at? e.ports p = some r) :
    (checkComplete e bd).run = .ok (.ok u) ↔ ∀ p ∈ bd.ports,
      (e.driving s.initial p).length = 0 ∧ (e.driving s.feedback p).length = 0 ∨
      (e.driving s.initial p).length = 1 ∧ (e.driving s.feedback p).length = 1 := by
  have first : bd.firstEntry = .ok s.initial := by rw [Operation.firstEntry, entries]; rfl
  unfold checkComplete
  rw [first, feedbackWay_eq w of entries]
  simp only [query_bind_ok, query_lift_ok, Except.ok.injEq, exists_eq_left', query_forM_ok, Option.getD_some,
    depsOn_ok of.inside.initial, depsOn_ok of.inside.feedback]
  refine forall₂_congr fun p hp => ?_
  obtain ⟨r, hr⟩ := ports p hp
  have hr : e.port p = .ok r := require_ok.mpr hr
  simp only [Design.driving, length_map]
  generalize ((e.depsIn s.initial).filter (·.target == p)).length = n
  generalize ((e.depsIn s.feedback).filter (·.target == p)).length = m
  rw [hr]
  by_cases none : n = 0 ∧ m = 0
  · rw [if_pos (by simp [none])]
    exact ⟨fun _ => .inl none, fun _ => rfl⟩
  rw [if_neg (by simpa using none), query_bind_ok]
  simp only [query_lift_ok, Except.ok.injEq, exists_eq_left']
  by_cases hn : n = 0
  · rw [if_pos (by simp [hn]), query_bind_ok]
    simp only [reject_ok, false_and, exists_false, false_iff]
    omega
  rw [if_neg (by simp [hn])]
  by_cases both : n = 1 ∧ m = 1
  · rw [if_neg (by simp [both])]
    exact ⟨fun _ => .inr both, fun _ => rfl⟩
  · rw [if_pos (by simp only [Bool.or_eq_true, bne_iff_ne]; omega), reject_ok]
    exact ⟨False.elim, fun h => h.elim none both⟩

end Loop

end

end Datapath
