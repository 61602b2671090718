import Datapath.Proofs.Tidy
import Datapath.Proofs.Untouched

/-!
# Steps that make a tidy design

Operations sit in their design as soon as they are made. What else a builder makes is judged by the design
that it ends with: there the new operations lie in modules that may hold them and refer to their parts, and
what drives an operation comes before it.
-/

namespace Datapath

open List

variable {g d d' : Design}

/-! ## Operations that sit -/

/-- All operations sit, those of `K` excepted. -/
structure AllSit (K : OpId → Prop) (d : Design) : Prop where
  sits : ∀ {i o}, ¬ K i → at? d.ops i = some o → o.Sits d i

def Seats (d d' : Design) : Prop := AllSit (fun _ => False) d → AllSit (fun _ => False) d'

theorem Operation.sits_core {o : Operation} : o.core.Sits d i ↔ o.Sits d i :=
  ⟨fun h => ⟨h.entered, h.leaves, h.exit, h.buffer, h.front⟩, fun h => ⟨h.entered, h.leaves, h.exit, h.buffer,
    h.front⟩⟩

theorem Operation.Sits.stay {o p : Operation} (h : o.Sits d i) (same : p.core = o.core) : p.Sits d i :=
  Operation.sits_core.mp (same ▸ Operation.sits_core.mpr h)

theorem AllSit.gains (h : AllSit K d) (g : Gains T d d' l) (less : ∀ {i}, K i → K' i)
    (touched : ∀ {i o p}, T i → ¬ K' i → at? d.ops i = some o → at? d'.ops i = some p → o.Sits d' i → p.Sits d' i)
    (new : ∀ {i : Int} {o}, d.ops.size ≤ i → ¬ K' i → at? d'.ops i = some o → o.Sits d' i) : AllSit K' d' := by
  constructor
  intro i p hi hp
  rcases Int.lt_or_le i d.ops.size with lt | le
  · obtain ⟨o, ho⟩ := at?_of_lt (at?_lt hp).1 lt
    have sits := (h.sits (fun no => hi (less no)) ho).grow g.entry g.exit
    by_cases ht : T i
    · exact touched ht hi ho hp sits
    · obtain ⟨cs, ho'⟩ := g.op ht ho
      cases hp.symm.trans ho'
      exact ⟨sits.entered, sits.leaves, sits.exit, sits.buffer, sits.front⟩
  · exact new le hi hp

theorem seats_changeOp (hf : ∀ o, (f o).core = o.core) : Along Seats (changeOp k f) := by
  constructor
  intro d u d' h all
  obtain ⟨-, hd'⟩ := changeOp_ok h
  refine all.gains (gains_changeOp (T := (· = k)) rfl h) nofun ?_ fun le _ ho => ?_
  · rintro i o p rfl - ho hp sits
    cases (changeOp_makes h ho).symm.trans hp
    exact sits.stay (hf o)
  · rw [hd'] at ho
    exact absurd (at?_lt ho).2 (by rw [size_editAt]; omega)

theorem seats_addEntry : Along Seats (addEntry k drive) := by
  constructor
  intro d e d' h all
  obtain ⟨-, ⟨q, hq⟩, hd'⟩ := addEntry_ok h
  refine all.gains (gains_addEntry (T := (· = k)) rfl h) nofun ?_ fun le _ ho => ?_
  · rintro i o p rfl - ho hp ⟨⟨n, ns, entries, face⟩, leaves, exit, buffer, front⟩
    cases (addEntry_makes h ho).1.symm.trans hp
    exact ⟨⟨n, ns ++ [e], by rw [entries]; rfl, face⟩, leaves, exit, buffer, front⟩
  · rw [hd'] at ho
    exact absurd (at?_lt ho).2 (by rw [size_editAt]; omega)

theorem seats_feedback : Along Seats (addEntry k drive >>= fun id =>
    changeEntry id fun e => { e with feedback := true }) := by
  constructor
  intro d u d' h all
  obtain ⟨n, e, added, h⟩ := build_bind_ok.mp h
  have all' := seats_addEntry.run added all
  obtain ⟨rfl, -, rfl⟩ := addEntry_ok added
  obtain ⟨-, rfl⟩ := changeEntry_ok h
  constructor
  intro i o no ho
  obtain ⟨⟨n, ns, entries, face⟩, leaves, exit, buffer, front⟩ := all'.sits no ho
  refine ⟨⟨n, ns, entries, ?_⟩, leaves, exit, buffer, front⟩
  -- the first entry was there before
  obtain ⟨q, hq⟩ : ∃ q, at? d.ops i = some q :=
    at?_of_lt (at?_lt ho).1 (by simpa only [size_editAt] using (at?_lt ho).2)
  obtain ⟨n', ns', entries', face'⟩ := (all.sits no hq).entered
  have first : o.entries.head? = some n' := by
    rw [at?_editAt, hq] at ho
    split at ho <;> cases ho <;> simp [entries']
  rw [entries] at first
  cases first
  have lt := (view_lt face').2
  rw [view, at?_edit_ne (by omega)]
  exact face

theorem Operation.Sits.of_plain {o : Operation} (plain : o.kind.isModule = false)
    (other : o.kind ≠ .outBuf) (entries : o.entries = [e]) (face : view d.entries Entry.face e = some (i, false))
    (exits : o.exits = [x]) (hy : at? d.exits x = some y) (done : y.tag = .done) : o.Sits d i where
  entered := ⟨e, [], entries, face⟩
  leaves z hz := by
    rw [exits, mem_singleton] at hz
    refine ⟨y, hz ▸ hy, by rw [done]; rfl, fun module => ?_⟩
    rw [plain] at module
    cases module
  exit _ := ⟨x, y, exits, hy, done⟩
  buffer back := absurd back other
  front module := by
    rw [plain] at module
    cases module

theorem seats_newPrimitive (hk : kind ≠ .outBuf) :
    Along Seats (newPrimitive kind owner name inputs outputs latency) := by
  constructor
  intro d id d' h all
  refine all.gains (T := fun _ => False) (gains_newPrimitive h) nofun nofun fun {i q} le _ hq => ?_
  obtain ⟨hid, o, e, x, y, ho, place, -, entries, -, exits, hy, -, -, done, face, -⟩ := newPrimitive_makes h
  obtain rfl : i = id := (new_single (newPrimitive_places h) hq le).trans hid.symm
  cases ho.symm.trans hq
  obtain ⟨kind, -⟩ := Operation.place_eq place
  exact .of_plain (kind ▸ (newPrimitive_ok h).1) (kind ▸ hk) entries face exits hy done

/-- All operations sit, but for the module `id`, whose exits are `xs` so far. -/
structure Ajar (d : Design) (id : OpId) (kind : Kind) (xs : List ExitId) : Prop extends AllSit (· = id) d where
  module : ∃ o e es, at? d.ops id = some o ∧ o.kind = kind ∧ o.exits = xs ∧ o.inBuf ≠ absent ∧ o.entries = e :: es ∧
    view d.entries Entry.face e = some (id, false)
  exits : ∀ x ∈ xs, ∃ y, at? d.exits x = some y ∧ y.tag.kind = .done ∧ y.peer ≠ absent

theorem AllSit.newFrame {id : Int} (h : AllSit (fun _ => False) d)
  (made : newFrame kind owner name inputs d = .ok (id, d')) :
    Ajar d' id kind [] := by
  obtain ⟨hid, o, q, e, x, y, ho, place, exits, entries, -, face, -, hq, qexits, hy, done, -, hib, qplace,
    ⟨f, qentries, qface⟩, -⟩ := newFrame_makes made
  have others : AllSit (· = id) d' := by
    refine h.gains (T := fun _ => False) (gains_newFrame made) nofun nofun fun {i r} le ne hr => ?_
    obtain ⟨n, hi, hl⟩ := new_place (newFrame_places made) hr le
    match n with
    | 0 => exact absurd (hi.trans hid.symm) ne
    | 1 =>
      obtain rfl : i = o.inBuf := by rw [hib, hid, hi]; rfl
      cases hq.symm.trans hr
      obtain ⟨qkind, -⟩ := Operation.place_eq qplace
      exact .of_plain (by rw [qkind]; rfl) (by rw [qkind]; exact nofun) qentries qface qexits hy done
    | n + 2 => cases hl
  exact { others with
    module := ⟨o, e, [], ho, (Operation.place_eq place).1, exits, ne_absent hq, entries, face⟩
    exits := nofun }

theorem Ajar.leave {id : Int} (h : Ajar d id kind xs) (made : addModuleExit id tag latency outputs d = .ok (x, d'))
    (done : tag.kind = .done) : Ajar d' id kind (xs ++ [x]) ∧ ∃ y, at? d'.exits x = some y ∧ y.tag = tag := by
  obtain ⟨o, e, es, ho, hkind, exits, front, entries, face⟩ := h.module
  obtain ⟨cs, b, f, y, ho', hy, ytag, -, peer, hb, bentries, place, -, bface, -, bexits, -⟩ :=
    addModuleExit_makes made ho
  have g : Gains (· = id) d d' [] := gains_addModuleExit rfl made
  have others : AllSit (· = id) d' := by
    refine h.toAllSit.gains g (fun here => here) (fun same ne => absurd same ne) fun {i r} le ne hr => ?_
    obtain rfl : i = y.peer := (new_single (addModuleExit_places made) hr le).trans peer.symm
    cases hb.symm.trans hr
    obtain ⟨bkind, -⟩ := Operation.place_eq place
    refine ⟨⟨f, [], bentries, bface⟩, ?_, ?_, fun _ => bexits, ?_⟩
    · rw [bexits]
      exact nofun
    · rw [bkind]
      exact nofun
    · rw [bkind]
      exact nofun
  refine ⟨{ others with
    module := ⟨_, e, es, ho', hkind, by rw [← exits], front, entries, g.entry face⟩
    exits := fun z hz => ?_ }, y, hy, ytag⟩
  rcases mem_append.mp hz with hz | hz
  · obtain ⟨w, hw, rest⟩ := h.exits z hz
    exact ⟨w, g.exit hw, rest⟩
  · cases mem_singleton.mp hz
    exact ⟨y, hy, ytag ▸ done, ne_absent hb⟩

theorem Ajar.close {id : Int} (h : Ajar d id kind xs) (back : kind ≠ .outBuf)
    (once : kind.exitsOnce = true → ∃ x y, xs = [x] ∧ at? d.exits x = some y ∧ y.tag = .done) :
    AllSit (fun _ => False) d := by
  constructor
  intro i o _ ho
  by_cases here : i = id
  · subst here
    obtain ⟨o', e, es, ho', rfl, rfl, front, entries, face⟩ := h.module
    cases ho.symm.trans ho'
    refine ⟨⟨e, es, entries, face⟩, fun x hx => ?_, once, fun no => absurd no back, fun _ => front⟩
    obtain ⟨y, hy, done, peer⟩ := h.exits x hx
    exact ⟨y, hy, done, fun _ => peer⟩
  · exact h.sits here ho

theorem Seats.aside (a : Aside d d') : Seats d d' := by
  refine fun h => ⟨fun no ho => (h.sits no (a.ops ▸ ho)).grow ?_ ?_⟩
  · rw [a.entries]
    exact id
  · rw [a.exits]
    exact id

theorem Seats.builds : Builds Seats :=
  { Aside.moves Seats.aside ⟨fun _ h => h, fun h h' all => h' (h all)⟩ with
    primitive := seats_newPrimitive
    newModule := ⟨fun h all => by
      obtain ⟨module, _, _, framed, left⟩ := newModule_ok h
      obtain ⟨ajar, y, hy, done⟩ := (all.newFrame framed).leave left rfl
      refine ajar.close ?_ fun _ => ⟨_, y, rfl, hy, done⟩
      rintro rfl
      cases module⟩
    fork := fun hk tags => ⟨fun h all => by
      obtain ⟨_, _, framed, h⟩ := build_bind_ok.mp h
      obtain ⟨_, _, left, right⟩ := build_bind_ok.mp h
      have ajar := (((all.newFrame framed).leave left tags.1).1.leave right tags.2).1
      rcases hk with rfl | rfl <;> exact ajar.close nofun nofun⟩
    enter := seats_addEntry
    note := fun hf => seats_changeOp fun o => Operation.core_of_base (hf o)
    assign := fun {d id _ _} _ all => ⟨fun {i o} no ho => by
      dsimp only at ho
      rw [at?_editAt] at ho
      split at ho
      · obtain ⟨q, hq, rfl⟩ := Option.map_eq_some_iff.mp ho
        have sits := all.sits no hq
        exact ⟨sits.entered, sits.leaves, sits.exit, sits.buffer, sits.front⟩
      · have sits := all.sits no ho
        exact ⟨sits.entered, sits.leaves, sits.exit, sits.buffer, sits.front⟩⟩
    refer := seats_changeOp }

/-! ## What is found on the way to a design -/

namespace Unfolds

section
variable {e : Design} (u : Unfolds e g)
include u

theorem place {p : Kind × OpId} (h : e.place? i = some p) : g.place? i = some p := by
  obtain ⟨o, ho, rfl⟩ := view_some.mp h
  obtain ⟨q, hq, stays⟩ := u.op ho
  exact view_some.mpr ⟨q, hq, stays.place⟩

theorem found (hx : at? e.exits i = some x) : ∃ y, at? g.exits i = some y ∧ y.id = x.id ∧ y.owner = x.owner ∧
    y.peer = x.peer ∧ y.done = x.done ∧ y.buses = x.buses := by
  obtain ⟨y, hy, same⟩ := view_some.mp (u.exit (view_of Exit.core hx))
  exact ⟨y, hy, (congrArg Exit.id same :), (congrArg Exit.owner same :), (congrArg Exit.peer same :),
    (congrArg Exit.done same :), (congrArg Exit.buses same :)⟩

theorem carried (h : Carried e b k) : Carried g b k := by
  obtain ⟨x, bus, exit⟩ := h
  exact ⟨x, u.bus bus, u.look (fun _ => rfl) exit⟩

variable (w : WellFormed g)
include w

theorem entry (ho : at? e.ops k = some o) (hi : i ∈ o.entries) :
    ∃ b, view g.entries Entry.face i = some (k, b) := by
  obtain ⟨q, hq, stays⟩ := u.op ho
  exact entry_face w hq (stays.entries.subset hi)

theorem first (ho : e.op k = .ok o) (hi : o.firstEntry = .ok i) :
    ∃ b, view g.entries Entry.face i = some (k, b) := u.entry w (op_ok ho) (mem_of_head? (require_ok.mp hi))

theorem exit_of (ho : at? e.ops k = some o) (hx : x ∈ e.exitsOf o) : at? e.exits x.id = some x ∧
    ∃ y, at? g.exits x.id = some y ∧ y.owner = k ∧ y.peer = x.peer ∧ y.done = x.done ∧ y.buses = x.buses := by
  obtain ⟨i, hi, hx⟩ := mem_filterMap.mp hx
  obtain ⟨q, hq, stays⟩ := u.op ho
  obtain ⟨y, hy, own⟩ := w.exits.holds hq i (stays.exits.subset hi)
  obtain ⟨z, hz, hid, -, rest⟩ := u.found hx
  cases hy.symm.trans hz
  obtain rfl : x.id = i := hid.symm.trans (w.exitIds i y hy)
  exact ⟨hx, y, hy, Option.some.inj own, rest⟩

theorem exit_carried (ho : at? e.ops k = some o) (hy : ∀ z, y = some z → z ∈ e.exitsOf o)
    (hx : e.exit ((y.map Exit.id).getD absent) = .ok x) : ∀ b ∈ x.done :: x.buses, Carried g b k := by
  cases y with
  | none => exact absurd rfl (ne_absent (exit_ok hx))
  | some y =>
    obtain ⟨there, z, hz, rfl, -, done, buses⟩ := u.exit_of w ho (hy y rfl)
    cases there.symm.trans (exit_ok hx)
    rw [← done, ← buses]
    exact fun b => carried_exit w hz

theorem exitOf (h : (do e.exit (← e.exitOf k tag)) = Except.ok x) : ∀ b ∈ x.done :: x.buses, Carried g b k := by
  obtain ⟨i, hi, hx⟩ := bind_ok.mp h
  obtain ⟨o, ho, hi⟩ := bind_ok.mp hi
  cases hi
  exact u.exit_carried w (op_ok ho) (fun _ => mem_of_find?_eq_some) hx

theorem mainExit (h : (do e.exit (← e.mainExit k)) = Except.ok x) : ∀ b ∈ x.done :: x.buses, Carried g b k := by
  obtain ⟨i, hi, hx⟩ := bind_ok.mp h
  obtain ⟨o, ho, hi⟩ := bind_ok.mp hi
  cases hi
  exact u.exit_carried w (op_ok ho) (fun _ => mainExit?_mem) hx

theorem inBufExit (h : e.inBufExit m = .ok x) :
    ∃ ib, g.place? ib = some (.inBuf, m) ∧ ∀ b ∈ x.done :: x.buses, Carried g b ib := by
  obtain ⟨o, ho, h⟩ := bind_ok.mp h
  obtain ⟨ib, hib, h⟩ := bind_ok.mp h
  obtain ⟨i, hi, hx⟩ := bind_ok.mp h
  obtain ⟨q, hq, stays⟩ := u.op (op_ok ho)
  refine ⟨o.inBuf, w.nesting.inBufs (stays.inBuf ▸ view_of _ hq) (ne_absent (op_ok hib)), ?_⟩
  have mem : x ∈ e.exitsOf ib := mem_filterMap.mpr ⟨i, mem_of_mem_head? (require_ok.mp hi), exit_ok hx⟩
  refine u.exit_carried w (y := some x) (op_ok hib) (fun z hz => Option.some.inj hz ▸ mem) ?_
  exact require_ok.mpr (u.exit_of w (op_ok hib) mem).1

theorem outBuf (h : e.outBuf m tag = .ok k) (there : k ≠ absent) : g.place? k = some (.outBuf, m) := by
  obtain ⟨o, ho, h⟩ := bind_ok.mp h
  cases h
  cases found : e.exitWith? o tag with
  | none =>
    rw [found] at there
    exact absurd rfl there
  | some x =>
    rw [found] at there
    obtain ⟨-, y, hy, rfl, peer, -⟩ := u.exit_of w (op_ok ho) (mem_of_find?_eq_some found)
    change x.peer ≠ absent at there
    change g.place? x.peer = _
    rw [← peer] at there ⊢
    exact w.outBufs hy there

end

end Unfolds

/-! ## Steps on the way to a design -/

/-- The dependency leads to an operation of `M`, and feedback aside it comes from one that comes before. -/
def Ascends (g : Design) (M : OpId → Prop) (v : Dependency) : Prop :=
  ∃ k b, view g.entries Entry.face v.entry = some (k, b) ∧ M k ∧
    (b = false → ∃ s, Carried g v.source s ∧ Climbs g s k)

/-- What is new in the second design is as it has to be in a tidy design `g`. -/
structure Raises (g : Design) (M : OpId → Prop) (d d' : Design) : Prop where
  place : ∀ {i k m}, d'.place? i = some (k, m) → d.place? i = some (k, m) ∨
    Lodges g i k m ∧ ∀ {o}, at? g.ops i = some o → o.Whole g i
  dep : ∀ {i v}, at? d'.deps i = some v → at? d.deps i = some v ∨ Ascends g M v

def Kind.isPlain : Kind → Bool
  | .branch | .loop | .whileBody | .taskCall | .reg => false
  | k => !k.isAccess

theorem Operation.Whole.of_plain {o : Operation} {kind : Kind} (h : kind.isPlain = true) (place : o.kind = kind) :
  o.Whole d i := by
  rw [Operation.Whole, place]
  unfold Kind.isPlain at h
  split <;> simp_all

theorem deps_kept : Assembles fun d d' => d'.deps = d.deps where
  refl _ := rfl
  trans h h' := h'.trans h
  op := ⟨fun h => by rw [(addOp_ok h).2.2]⟩
  ports := ⟨fun h => by rw [addPorts_ok h]⟩
  exit := ⟨fun h => by rw [(addExit_ok h).2.2]⟩
  entry := ⟨fun h => by rw [(addEntry_ok h).2.2]⟩
  front := ⟨fun h => by rw [(changeOp_ok h).2]⟩
  peers _ h := (linkPeers_ops h).2.2.2
  complete := ⟨fun h => by rw [(changeExit_ok h).2]⟩

theorem Raises.chains (g : Design) (M : OpId → Prop) : Chains (Raises g M) where
  refl _ := ⟨.inl, .inl⟩
  trans r r' := ⟨fun hi => (r'.place hi).elim r.place .inr, fun hi => (r'.dep hi).elim r.dep .inr⟩

theorem Raises.same (places : view d'.ops Operation.place = view d.ops Operation.place) (deps : d'.deps = d.deps) :
    Raises g M d d' :=
  ⟨fun {i _ _} hi => .inl ((congrFun places i).symm.trans hi), fun hi => .inl (deps ▸ hi)⟩

theorem raises_changeOp (hf : ∀ o, (f o).place = o.place) : Along (Raises g M) (changeOp k f) := by
  constructor
  intro d u d' h
  obtain ⟨-, rfl⟩ := changeOp_ok h
  exact .same (view_edit_same _ _ hf) rfl

theorem raises_changeEntry : Along (Raises g M) (changeEntry i f) :=
  ⟨fun h => by rw [(changeEntry_ok h).2]; exact .same rfl rfl⟩

theorem raises_addEntry : Along (Raises g M) (addEntry k drive) := by
  constructor
  intro d u d' h
  obtain ⟨-, -, rfl⟩ := addEntry_ok h
  exact .same (view_edit_same _ _ fun _ => rfl) rfl

/-! ### New operations -/

theorem Raises.new (places : d'.places = d.places ++ l) (deps : d'.deps = d.deps)
    (new : ∀ n k m, l[n]? = some (k, m) → Lodges g ((d.ops.size + n : Nat) : Int) k m ∧
      ∀ {o}, at? g.ops ((d.ops.size + n : Nat) : Int) = some o → o.Whole g ((d.ops.size + n : Nat) : Int)) :
    Raises g M d d' where
  dep hi := .inl (deps ▸ hi)
  place hi := by
    rcases place_split places hi with old | ⟨n, rfl, hl⟩
    · exact .inl old
    · exact .inr (new n _ _ hl)

theorem raises_newPrimitive {id : Int} (u : Unfolds d' g)
    (h : newPrimitive kind owner name inputs outputs latency d = .ok (id, d'))
    (fits : kind.fits ((g.place? owner).map Prod.fst) = true) (front : kind ≠ .inBuf)
    (whole : kind.isPlain = true ∨ ∀ {o}, at? g.ops id = some o → o.Whole g id) : Raises g M d d' := by
  obtain ⟨hid, o, _, _, _, ho, place, -⟩ := newPrimitive_makes h
  refine .new (newPrimitive_places h) (deps_kept.newPrimitive.run h) fun n k m hl => ?_
  cases n with
  | succ n => cases hl
  | zero =>
    cases hl
    rw [show ((d.ops.size + 0 : Nat) : Int) = id from hid.symm]
    refine ⟨⟨fits, fun no => absurd no front, ?_⟩, fun {q} hq => whole.elim (fun plain => ?_) fun whole => whole hq⟩
    · rintro rfl
      cases (newPrimitive_ok h).1
    · exact .of_plain plain (Operation.place_of hq (u.place ((place_of_op ho).trans (congrArg some place)))).1

theorem Raises.module {id : Int} (u : Unfolds d' g)
    (places : d'.places = d.places ++ (kind, owner) :: (.inBuf, id) :: l) (deps : d'.deps = d.deps)
    (buffers : ∀ b ∈ l, b = (.outBuf, id)) (hid : id = d.ops.size) (here : d'.place? id = some (kind, owner))
    (module : kind.isModule = true) (fits : kind.fits ((g.place? owner).map Prod.fst) = true)
    (body : kind = .block → (g.place? owner).map Prod.fst = some .call → id = owner + 3)
    (whole : kind.isPlain = true ∨ ∀ {o}, at? g.ops id = some o → o.Whole g id) : Raises g M d d' := by
  have here := u.place here
  have plain {i : OpId} {k : Kind} (hi : d'.place? i = some (k, id)) (hk : k.isPlain = true) {o : Operation}
      (ho : at? g.ops i = some o) : o.Whole g i := .of_plain hk (Operation.place_of ho (u.place hi)).1
  have there {n : Nat} {q : Kind × OpId} (hn : ((kind, owner) :: (.inBuf, id) :: l)[n]? = some q) :
      d'.place? ((d.ops.size + n : Nat) : Int) = some q := by
    rw [Design.place?, place_nat, places, getElem?_append_right (by rw [length_places]; omega), length_places,
      Nat.add_sub_cancel_left]
    exact hn
  refine .new places deps fun n k m hl => ?_
  match n with
  | 0 =>
    cases hl
    rw [show ((d.ops.size + 0 : Nat) : Int) = id from hid.symm]
    refine ⟨⟨fits, ?_, body⟩, fun {o} ho => whole.elim (fun plain => ?_) fun whole => whole ho⟩
    · rintro rfl
      cases module
    · exact .of_plain plain (Operation.place_of ho here).1
  | 1 =>
    have lies := there hl
    cases hl
    exact ⟨⟨by rw [here]; exact module, fun _ => by rw [hid]; rfl, nofun⟩, plain lies rfl⟩
  | n + 2 =>
    have lies := there hl
    cases buffers _ (mem_of_getElem? hl)
    exact ⟨⟨by rw [here]; exact module, nofun, nofun⟩, plain lies rfl⟩

end Datapath
