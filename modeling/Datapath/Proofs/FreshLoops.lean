import Datapath.Proofs.TidyBuilders

/-!
# The parts of a new loop

A new loop has a body with one exit that feeds back and one that completes the loop. The body is
started by the input buffer of the loop, through its first entry, and by the control register,
through its second one. Its data ports and the results of the loop are left to be wired.
-/

namespace Datapath

open List

variable {d d' : Design}

/-! ## Operations that keep their parts -/

def Operation.frame (o : Operation) : Operation := { o.core with children := [] }

/-- The operations of the first design are in the second, with the same ports, exits and entries. -/
structure Firm (d d' : Design) : Prop where
  op : ∀ {k o}, at? d.ops k = some o → ∃ q, at? d'.ops k = some q ∧ q.frame = o.frame
  port : ∀ {i v}, view d.ports Port.face i = some v → view d'.ports Port.face i = some v
  exit : ∀ {i x}, at? d.exits i = some x → at? d'.exits i = some x
  entry : ∀ {i v}, view d.entries Entry.face i = some v → view d'.entries Entry.face i = some v

theorem filter_of_keys {α β : Type} [DecidableEq β] {f : α → β} {l : List α} {a : α} (keys : (l.map f).Nodup)
    (h : a ∈ l) : l.filter (f · == f a) = [a] := by
  induction l with
  | nil => cases h
  | cons c l ih =>
    obtain ⟨fresh, keys⟩ := nodup_cons.mp keys
    rcases mem_cons.mp h with rfl | h
    · have none : l.filter (f · == f a) = [] := by
        apply filter_eq_nil_iff.mpr
        intro m hm
        simpa using fun e : f m = f a => fresh (mem_map.mpr ⟨m, hm, e⟩)
      simp [none]
    · rw [filter_cons_of_neg, ih keys h]
      simpa using fun e : f c = f a => fresh (e ▸ mem_map_of_mem h)

theorem Gains.gained (g : Gains T d d' l) (apart : (l.map Dependency.entry).Nodup)
    (hv : v ∈ l) (none : d.depsIn v.entry = []) : d'.depsIn v.entry = [v] := by
  rw [g.deps, none, nil_append, filter_of_keys apart hv]

theorem Gains.loosen (g : Augments d d' l) : Gains T d d' l :=
  { g with op := fun _ => g.op fun h => h }

theorem Gains.firm (g : Augments d d' l) : Firm d d' where
  op ho := by
    obtain ⟨cs, hq⟩ := g.op (fun no => no) ho
    exact ⟨_, hq, rfl⟩
  port := g.face
  exit := g.exit
  entry := g.entry

theorem firm_changeOp (hf : ∀ o, (f o).core = o.core) : Along Firm (changeOp k f) := by
  constructor
  intro d u d' h
  have g : Gains (· = k) d d' [] := gains_changeOp rfl h
  refine ⟨fun {i o} ho => ?_, g.face, g.exit, g.entry⟩
  by_cases here : i = k
  · exact ⟨f o, here ▸ changeOp_makes h (here ▸ ho), by rw [Operation.frame, hf]; rfl⟩
  · obtain ⟨cs, hq⟩ := g.op here ho
    exact ⟨_, hq, rfl⟩

theorem Firm.chains : Chains Firm where
  refl d := (Gains.refl _ d).firm
  trans h h' := by
    refine ⟨fun ho => ?_, fun hp => h'.port (h.port hp), fun hx => h'.exit (h.exit hx),
      fun he => h'.entry (h.entry he)⟩
    obtain ⟨p, hp, same⟩ := h.op ho
    obtain ⟨q, hq, same'⟩ := h'.op hp
    exact ⟨q, hq, same'.trans same⟩

theorem Firm.forms : Forms Firm :=
  { Aside.moves (fun a => ⟨fun ho => ⟨_, a.ops ▸ ho, rfl⟩, a.ports ▸ id, a.exits ▸ id, a.entries ▸ id⟩)
      Firm.chains with
    primitive := fun _ => ⟨fun h => (gains_newPrimitive h).firm⟩
    newModule := ⟨fun h => (gains_newModule h).2.firm⟩
    fork := fun _ _ => ⟨fun {d _ d'} h => by
      obtain ⟨id, e, framed, h⟩ := build_bind_ok.mp h
      obtain ⟨_, e', left, right⟩ := build_bind_ok.mp h
      have new : False ∨ (d.ops.size : Int) ≤ id := .inr (Int.le_of_eq (newFrame_makes framed).1.symm)
      have g :=
        (gains_newFrame (T := fun i : Int => False ∨ d.ops.size ≤ i) framed).trans (gains_addModuleExit new left)
      exact (g.trans (gains_addModuleExit new right)).close.firm⟩
    note := fun hf => firm_changeOp fun o => Operation.core_of_base (hf o) }

namespace Loop

/-! ## Parts of a loop -/

structure Outside where
  inBuf : OpId
  outBuf : OpId
  /-- The exit of the input buffer and its done bus. -/
  input : ExitId
  start : BusId
  /-- The entry of the output buffer. -/
  completion : EntryId

structure Inside where
  body : OpId
  go : PortId
  initial : EntryId
  feedback : EntryId
  /-- The exit that feeds back and the one that completes the loop. -/
  again : ExitId
  leave : ExitId

structure Parts extends Outside, Inside

structure Outside.Of (s : Outside) (d : Design) (loop : OpId) : Prop where
  op : ∃ o x y, at? d.ops loop = some o ∧ o.kind = .loop ∧ o.inBuf = s.inBuf ∧ o.exits = [x] ∧
    at? d.exits x = some y ∧ y.owner = loop ∧ y.tag = .done ∧ y.peer = s.outBuf
  inBuf : ∃ o, at? d.ops s.inBuf = some o ∧ o.place = (.inBuf, loop) ∧ o.exits = [s.input]
  input : ∃ x, at? d.exits s.input = some x ∧ x.owner = s.inBuf ∧ x.tag = .done ∧ x.done = s.start
  outBuf : ∃ o, at? d.ops s.outBuf = some o ∧ o.place = (.outBuf, loop) ∧ o.entries = [s.completion] ∧
    view d.ports Port.face o.go = some (s.outBuf, true)
  completion : view d.entries Entry.face s.completion = some (s.outBuf, false)

structure Inside.Of (s : Inside) (d : Design) (loop : OpId) : Prop where
  op : ∃ o, at? d.ops s.body = some o ∧ o.place = (.whileBody, loop) ∧ o.go = s.go ∧
    o.entries = [s.initial, s.feedback] ∧ o.exits = [s.again, s.leave]
  go : view d.ports Port.face s.go = some (s.body, true)
  initial : view d.entries Entry.face s.initial = some (s.body, false)
  feedback : view d.entries Entry.face s.feedback = some (s.body, true)
  again : ∃ x, at? d.exits s.again = some x ∧ x.owner = s.body ∧ x.tag = .feedback
  leave : ∃ x, at? d.exits s.leave = some x ∧ x.owner = s.body ∧ x.tag = .done

structure Parts.Of (s : Parts) (d : Design) (loop : OpId) : Prop where
  outside : s.toOutside.Of d loop
  inside : s.toInside.Of d loop
  runs : ∃ o, at? d.ops loop = some o ∧ o.body = s.body

structure Parts.Unfed (s : Parts) (d : Design) : Prop where
  initial : ∃ v, d.depsIn s.initial = [v] ∧ v.source = s.start ∧ v.target = s.go
  feedback : ∀ v ∈ d.depsIn s.feedback, v.target = s.go
  completion : ∀ v ∈ d.depsIn s.completion, view d.ports Port.face v.target = some (s.outBuf, true)

theorem Outside.Of.intact {s : Outside} (h : s.Of d loop) (hl : Intact d d' loop) (hi : Intact d d' s.inBuf)
    (ho : Intact d d' s.outBuf) : s.Of d' loop where
  op := by
    obtain ⟨o, x, y, ho, kind, buf, hx, hy, own, rest⟩ := h.op
    obtain ⟨cs, ho'⟩ := hl.op ho
    exact ⟨_, x, y, ho', kind, buf, hx, hl.exit hy own, own, rest⟩
  inBuf := by
    obtain ⟨o, ho, own, hx⟩ := h.inBuf
    obtain ⟨cs, ho'⟩ := hi.op ho
    exact ⟨_, ho', own, hx⟩
  input := by
    obtain ⟨x, hx, own, rest⟩ := h.input
    exact ⟨x, hi.exit hx own, own, rest⟩
  outBuf := by
    obtain ⟨o, ho', own, he, go⟩ := h.outBuf
    obtain ⟨cs, ho''⟩ := ho.op ho'
    exact ⟨_, ho'', own, he, ho.port go⟩
  completion := ho.entry h.completion

theorem Inside.Of.intact {s : Inside} (h : s.Of d loop) (hb : Intact d d' s.body) : s.Of d' loop where
  op := by
    obtain ⟨o, ho, rest⟩ := h.op
    obtain ⟨cs, ho'⟩ := hb.op ho
    exact ⟨_, ho', rest⟩
  go := hb.port h.go
  initial := hb.entry h.initial
  feedback := hb.entry h.feedback
  again := by
    obtain ⟨x, hx, own, tag⟩ := h.again
    exact ⟨x, hb.exit hx own, own, tag⟩
  leave := by
    obtain ⟨x, hx, own, tag⟩ := h.leave
    exact ⟨x, hb.exit hx own, own, tag⟩

theorem Inside.Of.ne_body {s : Inside} (h : s.Of d loop)
    (ho : at? d.ops i = some o) (place : o.place = (kind, k)) (hk : kind ≠ .whileBody) : i ≠ s.body := by
  intro e
  obtain ⟨q, hq, qplace, -⟩ := h.op
  rw [← e, ho] at hq
  cases hq
  exact hk (congrArg Prod.fst (place.symm.trans qplace))

/-! ## Making a loop -/

section
variable {d1 : Design} {owner id : Int}

theorem Outside.Of.firm {s : Outside} (h : s.Of d loop) (st : Firm d d') : s.Of d' loop where
  op := by
    obtain ⟨o, x, y, ho, kind, buf, hx, hy, rest⟩ := h.op
    obtain ⟨q, hq, same⟩ := st.op ho
    exact ⟨q, x, y, hq, (congrArg Operation.kind same :).trans kind, (congrArg Operation.inBuf same :).trans buf,
      (congrArg Operation.exits same :).trans hx, st.exit hy, rest⟩
  inBuf := by
    obtain ⟨o, ho, place, hx⟩ := h.inBuf
    obtain ⟨q, hq, same⟩ := st.op ho
    exact ⟨q, hq, (congrArg Operation.place same :).trans place, (congrArg Operation.exits same :).trans hx⟩
  input := h.input.imp fun _ hx => hx.imp_left st.exit
  outBuf := by
    obtain ⟨o, ho, place, entries, go⟩ := h.outBuf
    obtain ⟨q, hq, same⟩ := st.op ho
    have samego : q.go = o.go := (congrArg Operation.go same :)
    exact ⟨q, hq, (congrArg Operation.place same :).trans place, (congrArg Operation.entries same :).trans entries,
      samego ▸ st.port go⟩
  completion := st.entry h.completion

theorem Inside.Of.firm {s : Inside} (h : s.Of d loop) (st : Firm d d') : s.Of d' loop where
  op := by
    obtain ⟨o, ho, place, go, entries, exits⟩ := h.op
    obtain ⟨q, hq, same⟩ := st.op ho
    exact ⟨q, hq, (congrArg Operation.place same :).trans place, (congrArg Operation.go same :).trans go,
      (congrArg Operation.entries same :).trans entries, (congrArg Operation.exits same :).trans exits⟩
  go := st.port h.go
  initial := st.entry h.initial
  feedback := st.entry h.feedback
  again := h.again.imp fun _ hx => hx.imp_left st.exit
  leave := h.leave.imp fun _ hx => hx.imp_left st.exit

theorem outside_made (h1 : newFrame .loop owner name inputs d = .ok (id, d1))
    (hl : d1.inBufExit id = .ok lx) (h2 : addModuleExit id .done latency outputs d1 = .ok (x, d')) :
    ∃ s : Outside, s.Of d' id ∧ lx.done = s.start ∧ s.inBuf = id + 1 ∧ s.outBuf = id + 2 := by
  obtain ⟨hid, o, q, e, i, y, hop, place, exits, -, -, -, -, hq, qexits, hy, tag, own, hbuf, qplace, -⟩ :=
    newFrame_makes h1
  obtain ⟨cs, b, c, z, hop', hz, ztag, zown, zpeer, hb, bentries, bplace, bgo, bface, -⟩ :=
    addModuleExit_makes h2 hop
  have g : Gains (· = id) d1 d' [] := gains_addModuleExit rfl h2
  -- the exit that is asked for is that of the input buffer
  obtain ⟨_, hm, hl⟩ := bind_ok.mp hl
  cases hop.symm.trans (op_ok hm)
  obtain ⟨_, hq', hl⟩ := bind_ok.mp hl
  cases hq.symm.trans (op_ok hq')
  obtain ⟨_, hfirst, hl⟩ := bind_ok.mp hl
  rw [Operation.firstExit, qexits] at hfirst
  cases hfirst
  cases hy.symm.trans (exit_ok hl)
  have ne : o.inBuf ≠ id := by
    rw [hbuf]
    exact Int.ne_of_gt (Int.lt_succ id)
  obtain ⟨bs, hq''⟩ := g.op ne hq
  refine ⟨⟨o.inBuf, z.peer, i, lx.done, c⟩, ⟨⟨_, x, z, hop', congrArg Prod.fst place, rfl, ?_, hz, zown, ztag, rfl⟩,
    ⟨_, hq'', qplace, qexits⟩, ⟨lx, g.exit hy, own, tag, rfl⟩, ⟨b, hb, bplace, bentries, bgo⟩, bface⟩, rfl, hbuf,
    ?_⟩
  · rw [exits]
    rfl
  · rw [zpeer, hid, ← length_places, newFrame_places h1, length_append, length_places]
    rfl

theorem inside_made {b : Shell} (h : makeBody id name inputs outputs drive d = .ok (b, d')) :
    ∃ s : Inside, s.Of d' id ∧ s.body = b.body ∧ s.feedback = b.entry ∧ s.again = b.again ∧ Augments d d' [] ∧
      d'.deps = d.deps ∧
      d'.places = d.places ++ [(.whileBody, id), (.inBuf, b.body), (.outBuf, b.body), (.outBuf, b.body)] := by
  simp only [makeBody, ↓ask_bind_ok, build_bind_ok, build_pure_ok] at h
  obtain ⟨bd, d1, h1, front, -, fb, d2, h2, cx, d3, h3, fe, d4, h4, _, d5, h5, ie, hi, _, _, h6, rfl, rfl⟩ := h
  obtain ⟨hbd, o, q, e, i, y, hop, place, exits, entries, go, face, -⟩ := newFrame_makes h1
  obtain ⟨cs, -, -, x, op2, hx, xtag, xown, -⟩ := addModuleExit_makes h2 hop
  obtain ⟨cs', -, -, z, op3, hz, ztag, zown, -⟩ := addModuleExit_makes h3 op2
  obtain ⟨op5, face5, -, g5⟩ := feedback_made (T := (· = bd)) rfl op3 h4 h5
  have g2 : Gains (· = bd) d1 d2 [] := gains_addModuleExit rfl h2
  have g3 : Gains (· = bd) d2 d3 [] := gains_addModuleExit rfl h3
  have g6 : Gains (· = bd) d5 d' [] := gains_changeEntry (fun _ => ⟨by rfl, by rfl⟩) h6
  have all := (g2.trans g3).trans (g5.trans g6)
  obtain ⟨_, hb, hi⟩ := bind_ok.mp hi
  cases op5.symm.trans (op_ok hb)
  have first : ie = e := by
    rw [entries] at hi
    exact (Except.ok.inj hi).symm
  have new : ∀ i : Int, i = bd → False ∨ d.ops.size ≤ i := fun i h => .inr (h ▸ Int.le_of_eq hbd.symm)
  have same : d'.ops = d5.ops ∧ d'.deps = d5.deps ∧ d5.deps = d4.deps := by
    obtain ⟨-, rfl⟩ := changeEntry_ok h6
    obtain ⟨-, rfl⟩ := changeEntry_ok h5
    exact ⟨rfl, rfl, rfl⟩
  obtain ⟨ops, deps, deps5⟩ := same
  rw [← ops] at op5
  refine ⟨⟨bd, o.go, ie, fe, fb, cx⟩, ⟨⟨_, op5, place, rfl, ?_, ?_⟩, all.face go, first ▸ all.entry face,
    g6.entry face5, ?_, ?_⟩, rfl, rfl, rfl, ?_, ?_, ?_⟩
  · rw [entries, first]
    rfl
  · rw [exits]
    rfl
  · exact ⟨x, g6.exit (g5.exit (g3.exit hx)), xown, xtag⟩
  · exact ⟨z, g6.exit (g5.exit hz), zown, ztag⟩
  · have g1 : Gains (fun i : Int => False ∨ d.ops.size ≤ i) d d1 [] := gains_newFrame h1
    exact (g1.trans { all with op := fun hi => all.op fun e => hi (new _ e) }).close
  · rw [deps, deps5, deps_kept.entry.run h4, deps_kept.addModuleExit.run h3, deps_kept.addModuleExit.run h2,
      deps_kept.newFrame.run h1]
  · rw [changeEntry_places h6, changeEntry_places h5, addEntry_places h4, addModuleExit_places h3,
      addModuleExit_places h2, newFrame_places h1]
    simp only [append_assoc, cons_append, nil_append]

theorem ops_kept : Moves fun d d' => d'.ops = d.ops := Aside.moves Aside.ops ⟨fun _ => rfl, fun h h' => h'.trans h⟩

/-- The body of the loop has its block, and what lies in the loop is not driven yet. -/
structure Parts.Filled (s : Parts) (loop : OpId) (d : Design) : Prop where
  wellFormed : WellFormed d
  outside : s.toOutside.Of d loop
  inside : s.toInside.Of d loop
  unfed : ∀ {i k b j}, view d.entries Entry.face i = some (k, b) → d.place? k = some (j, loop) → d.depsIn i = []
  children : ∀ {c k}, d.place? c = some (k, loop) → c = s.inBuf ∨ c = s.outBuf ∨ c = s.body

theorem newLoop_filled (hd : WellFormed d) (ho : owner < d.ops.size)
    (h : newLoop owner name inputs outputs latency d = .ok (id, d')) : ∃ (s : Parts) (front : Exit) (e : Design),
      s.Filled id e ∧ startBody ⟨s.body, front, s.again, s.feedback⟩ id s.start name e = .ok ((), d') := by
  obtain ⟨e1, lx, dx, e2, b, e8, ⟨dec, blk⟩, e11, e17, h1, hlx, h2, made, filled, wired, h⟩ := newLoop_ok h
  obtain ⟨out, hout, hstart, hin, hob⟩ := outside_made h1 hlx h2
  obtain ⟨ins, hins, hb, hfb, hag, g8, deps8, places8⟩ := inside_made made
  have module : newModule .loop owner name inputs outputs latency d = .ok (id, e2) :=
    build_bind_ok.mpr ⟨id, e1, h1, build_bind_ok.mpr ⟨dx, e2, h2, rfl⟩⟩
  obtain ⟨hid, pid⟩ := placed_newModule.run module
  have w2 := (keeps_addModuleExit ..).kept (newFrame_ok hd ho h1).1 h2
  have w8 := (sound_makeBody (view_lt pid).2).kept w2 made
  obtain ⟨r, hr, rplace, -⟩ := hins.op
  have lt8 : b.body < (e8.ops.size : Int) := hb ▸ (at?_lt hr).2
  have w17 := keeps_wireBlock.kept ((keeps_fillBody lt8).kept w8 filled) wired
  -- what is made stays
  have t := Unfolds.builds
  have u8 := t.trans (t.fillBody.run filled) (t.wireBlock.run wired)
  have u2 := t.trans ((t.makeBody (t.bind t.enter fun _ => unfolds_feedback)).run made) u8
  have u := t.trans (t.newModule.run module) u2
  have pid := u2.place pid
  have firm :=
    Firm.chains.trans ((Firm.forms.fillBody (firm_changeOp fun _ => rfl)).run filled)
      (Firm.forms.wireBlock.run wired)
  obtain ⟨hbody, lies, -⟩ : _ ∧ _ ∧ (e17.place? id = some (.loop, owner) → _) :=
    makeBody_lies (M := fun _ => True) w17 u8 made
  -- the dependencies in the body lead to operations inside
  have raises := raises_fillBody (M := fun k => ∀ j, e17.place? k ≠ some (j, id)) w17 (t.refl e17) lies pid
    (fun {_ _ m} ne hk j hk' => ne (by cases hk.symm.trans hk'; rfl)) filled wired
  refine ⟨{ out, ins with }, b.front, e17, ⟨w17, (hout.firm g8.firm).firm firm, hins.firm firm, ?_, ?_⟩, ?_⟩
  · intro i k c j face place
    refine eq_nil_iff_forall_not_mem.mpr fun v hv => ?_
    obtain ⟨n, hn, -⟩ := view_some.mp face
    rw [depsIn_of hn] at hv
    obtain ⟨m, hm, hv⟩ := mem_filterMap.mp hv
    obtain ⟨_, hv', entry⟩ := w17.deps.holds hn m hm
    cases hv.symm.trans hv'
    have entry := Option.some.inj entry
    rcases raises.dep hv with old | ⟨k', _, face', no, -⟩
    · rw [deps8, deps_kept.newModule.run module] at old
      obtain ⟨a, ha, -⟩ := hd.deps.held old rfl
      obtain ⟨o, ho, inside⟩ := hd.entries.held ha rfl
      obtain ⟨_, face'⟩ := u.entry w17 ho inside
      rw [entry] at face'
      cases face'.symm.trans face
      obtain ⟨q, hq, -, own⟩ := op_of_place place
      have older := w17.nesting.older hq
      rw [own, hid] at older
      exact Int.lt_asymm older (at?_lt ho).2
    · rw [entry] at face'
      cases face'.symm.trans face
      exact no j place
  · intro c k hc
    obtain ⟨_, f1, k1, filled⟩ := build_bind_ok.mp filled
    obtain ⟨_, f2, k2, filled⟩ := build_bind_ok.mp filled
    obtain ⟨_, _, k3, filled⟩ := build_bind_ok.mp filled
    cases filled
    have places : e17.places = d.places ++ [(.loop, owner), (.inBuf, id), (.outBuf, id), (.whileBody, id),
        (.inBuf, b.body), (.outBuf, b.body), (.outBuf, b.body), (.decision, b.body), (.inBuf, dec), (.outBuf, dec),
        (.outBuf, dec), (.block, b.body), (.inBuf, blk), (.outBuf, blk)] := by
      rw [show e17.places = e11.places from congrArg (·.toList.map Operation.place) (ops_kept.wireBlock.run wired),
        changeOp_places (fun _ => by rfl) k3, newModule_places k2, newDecision_places k1, places8,
        newModule_places module]
      simp only [append_assoc, cons_append, nil_append]
    have inner {m : Int} {k : Kind} (hm : e17.place? m = some (k, b.body)) (hk : k ≠ .loop) : m ≠ id := by
      rintro rfl
      cases hm.symm.trans pid
      exact hk rfl
    have v2 := t.trans ((t.refer fun _ => by rfl).run k3) (t.wireBlock.run wired)
    have n0 : owner ≠ id := by rw [hid]; exact Int.ne_of_lt ho
    have n1 : b.body ≠ id := fun same => by cases lies.place.symm.trans (same ▸ pid)
    have n2 := inner ((t.trans (t.newModule.run k2) v2).place (placed_newDecision.run k1).2) nofun
    have n3 := inner (v2.place (placed_newModule.run k2).2) nofun
    rcases place_split places hc with old | ⟨n, rfl, hn⟩
    · obtain ⟨o, ho', -, own⟩ := op_of_place old
      have older := hd.nesting.older ho'
      rw [own, hid] at older
      exact absurd (at?_lt ho').2 (Int.lt_asymm older)
    · rcases n with _ | _ | _ | _ | n
      · cases hn
        exact absurd rfl n0
      · exact .inl (by rw [hin, hid]; rfl)
      · exact .inr (.inl (by rw [hob, hid]; rfl))
      · exact .inr (.inr (by rw [hb, hbody, newModule_size module]))
      · -- the others lie inside the body
        simp only [getElem?_cons_succ] at hn
        simpa [n1.symm, n2.symm, n3.symm] using mem_of_getElem? hn
  · rw [hb, hfb, hag, ← hstart]
    exact h

/-! ### Starting the body -/

structure Parts.Restarts (s : Parts) (d : Design) (loop ctl : OpId) : Prop where
  op : ∃ o, at? d.ops loop = some o ∧ o.control = ctl
  register : ∃ o i p x y q z v w, at? d.ops ctl = some o ∧ o.place = (.reg, loop) ∧ o.entries = [i] ∧
    o.ports = [p] ∧ o.exits = [x] ∧ at? d.exits x = some y ∧ y.buses = [q] ∧ at? d.exits s.again = some z ∧
    d.depsIn i = [{ id := v, kind := .data, entry := i, source := z.done, target := p, minClocks := 0 }] ∧
    d.depsIn s.feedback =
      [{ id := w, kind := .control, entry := s.feedback, source := q, target := s.go, minClocks := 0 }]
  completion : ∃ v i x, d.depsIn s.completion = [v] ∧ at? d.exits i = some x ∧ x.owner = s.body ∧ v.source = x.done
  front : ∀ {i b}, view d.entries Entry.face i = some (s.inBuf, b) → d.depsIn i = []
  children : ∀ {c k}, view d.ops Operation.place c = some (k, loop) →
    c = s.inBuf ∨ c = s.outBuf ∨ c = s.body ∨ c = ctl

/-- An operation of a loop is new. It has one bus, and nothing drives it. -/
structure Blank (d d₁ : Design) (loop cell : OpId) (kind : Kind) (o : Operation) (i : EntryId) (q : BusId) :
    Prop where
  wellFormed : WellFormed d₁
  gains : Augments d d₁ []
  places : d₁.places = d.places ++ [(kind, loop)]
  op : at? d₁.ops cell = some o
  new : cell = d.ops.size
  place : o.place = (kind, loop)
  entries : o.entries = [i]
  face : view d₁.entries Entry.face i = some (cell, false)
  faces : ∀ p ∈ o.ports, view d₁.ports Port.face p = some (cell, false)
  deps : d₁.depsIn i = []
  out : ∃ x y, o.exits = [x] ∧ at? d₁.exits x = some y ∧ y.buses = [q]

theorem blank_made (w : WellFormed d) (ho : at? d.ops loop = some o)
    (h : newPrimitive kind loop name inputs 1 latency d = .ok (cell, d1)) :
    ∃ o i q, Blank d d1 loop cell kind o i q ∧ o.ports.length = inputs.toNat := by
  obtain ⟨hid, o, i, x, y, hop, place, ports, entries, deps, exits, hy, buses, faces, -, face, -⟩ :=
    newPrimitive_makes h
  obtain ⟨q, hq⟩ := length_eq_one_iff.mp buses
  exact ⟨o, i, q, ⟨(makes_newPrimitive (at?_lt ho).2).kept w h, gains_newPrimitive h, newPrimitive_places h, hop,
    hid, place, entries, face, faces, deps, x, y, exits, hy, hq⟩, ports⟩

theorem Blank.held {e : Design} (h : Blank d d1 loop cell kind o i q)
    (g : Gains T d1 e l) : (do (← e.exit (← o.firstExit)).firstBus) = Except.ok q := by
  obtain ⟨x, y, exits, hy, buses⟩ := h.out
  refine bind_ok.mpr ⟨x, by rw [Operation.firstExit, exits]; rfl, bind_ok.mpr ⟨y, require_ok.mpr (g.exit hy), ?_⟩⟩
  rw [Exit.firstBus, buses]
  rfl

/-- The body of a loop is started. The control register is new, and the first entry of the body, the register, the
second entry of the body and the output buffer of the loop have got a dependency each. -/
structure Parts.Started (s : Parts) (loop : OpId) (d d' : Design) (r : Operation) (e : EntryId) (p : PortId)
    (c : BusId) (z w : Exit) (g : PortId) : Prop where
  firm : Firm d d'
  places : d'.places = d.places ++ [(.reg, loop)]
  runs : ∃ o, at? d'.ops loop = some o ∧ o.body = s.body ∧ o.control = d.ops.size
  op : at? d'.ops d.ops.size = some r
  place : r.place = (.reg, loop)
  entries : r.entries = [e]
  ports : r.ports = [p]
  out : ∃ x y, r.exits = [x] ∧ at? d'.exits x = some y ∧ y.buses = [c]
  face : view d'.entries Entry.face e = some ((d.ops.size : Int), false)
  deps : d.depsIn e = []
  again : at? d'.exits s.again = some z
  leave : ∃ i, at? d'.exits i = some w ∧ w.owner = s.body
  go : view d'.ports Port.face g = some (s.outBuf, true)
  gains : ∃ v₁ v₂ v₃ v₄, Gains (· = loop) d d'
    [{ id := v₁, kind := .control, entry := s.initial, source := s.start, target := s.go, minClocks := 0 },
     { id := v₂, kind := .data, entry := e, source := z.done, target := p, minClocks := 0 },
     { id := v₃, kind := .control, entry := s.feedback, source := c, target := s.go, minClocks := 0 },
     { id := v₄, kind := .control, entry := s.completion, source := w.done, target := g, minClocks := 0 }]

section
variable {s : Parts} (f : s.Filled id d)
include f

theorem Parts.Filled.kids (places : d'.places = d.places ++ [(.reg, id)])
    (hc : d'.place? c = some (k, id)) : c = s.inBuf ∨ c = s.outBuf ∨ c = s.body ∨ c = d.ops.size ∧ k = .reg := by
  rcases place_split places hc with old | ⟨n, rfl, hn⟩
  · rcases f.children old with h | h | h
    · exact .inl h
    · exact .inr (.inl h)
    · exact .inr (.inr (.inl h))
  · cases n with
    | zero =>
      cases hn
      exact .inr (.inr (.inr ⟨rfl, rfl⟩))
    | succ n => cases hn

/-- The exit of the body that ends it completes the loop. -/
theorem Parts.Filled.finished {e : Design} (w : WellFormed e) (w' : WellFormed d') (firm : Firm d d')
    (places : d'.places = d.places ++ [(.reg, id)]) (h : finish id .done s.body e = .ok (v, d')) :
    ∃ i x p, at? d'.exits i = some x ∧ x.owner = s.body ∧ view d'.ports Port.face p = some (s.outBuf, true) ∧
      Augments e d'
        [{ id := v, kind := .control, entry := s.completion, source := x.done, target := p, minClocks := 0 }] := by
  obtain ⟨ob, hob, h⟩ := ask_bind_ok.mp h
  obtain ⟨k, hk, hob⟩ := bind_ok.mp hob
  obtain ⟨entry, hentry, h⟩ := ask_bind_ok.mp h
  obtain ⟨x, hx, h⟩ := ask_bind_ok.mp h
  have g := gains_addDependency (T := fun _ => False) w h
  have unfolds := Unfolds.builds.depend.run h
  have out := f.outside.firm firm
  obtain ⟨a, ha, aplace, -⟩ := out.inBuf
  obtain ⟨m, hm, mplace, mentries, mgo⟩ := out.outBuf
  obtain ⟨t, ht, tplace, -⟩ := (f.inside.firm firm).op
  obtain rfl : k = s.outBuf := by
    have lies := unfolds.outBuf w' hk (ne_absent (op_ok hob))
    rcases f.kids places lies with rfl | rfl | rfl | ⟨-, reg⟩
    · cases (view_some.mpr ⟨_, ha, aplace⟩).symm.trans lies
    · rfl
    · cases (view_some.mpr ⟨_, ht, tplace⟩).symm.trans lies
    · cases reg
  obtain ⟨_, hob'⟩ := g.op (fun h => h) (op_ok hob)
  cases hm.symm.trans hob'
  obtain rfl : s.completion = entry := by
    rw [Operation.firstEntry, show ob.entries = _ from mentries] at hentry
    exact Except.ok.inj hentry
  have carried := unfolds.mainExit w' hx _ mem_cons_self
  obtain ⟨j, -, hx⟩ := bind_ok.mp hx
  have there := g.exit (exit_ok hx)
  have own := (carried_exit w' there mem_cons_self).busOwner?.symm.trans carried.busOwner?
  exact ⟨j, x, _, there, Option.some.inj own, mgo, g⟩

theorem Parts.Filled.started (h : startBody ⟨s.body, front, s.again, s.feedback⟩ id s.start name d = .ok ((), d')) :
    ∃ r e p c z w g, s.Started id d d' r e p c z w g := by
  have firm := (Firm.forms.startBody (firm_changeOp fun _ => rfl)).run h
  simp only [startBody, ↓ask_bind_ok, build_bind_ok, build_pure_ok] at h
  obtain ⟨u1, d1, h1, v1, d2, h2, ctl, d3, h3, u2, d4, h4, cr, hcr, ri, hri, u3, d5, h5, fbDone, hfb, rp, hrp, v2,
    d6, h6, cb, hcb, g, hgo, v3, d7, h7, v4, _, h8, -, rfl⟩ := h
  obtain ⟨o, _, _, ho, -⟩ := f.outside.op
  obtain ⟨q, hq, qplace, qgo, qentries, -⟩ := f.inside.op
  have ne : s.body ≠ id := (Int.ne_of_lt ((Operation.place_eq qplace).2 ▸ f.wellFormed.nesting.older hq)).symm
  have w1 := (keeps_changeOp _ fun _ => by rfl).kept f.wellFormed h1
  have w2 := (keeps_start ..).kept w1 h2
  have g1 : Gains (· = id) d d1 [] := gains_changeOp rfl h1
  -- the loop starts the body
  obtain ⟨b, i, hb, hi, g2⟩ := start_gains (T := fun _ => False) w1 h2
  obtain ⟨_, hb'⟩ := g1.op ne hq
  cases hb'.symm.trans hb
  obtain rfl : s.initial = i := by
    rw [qentries] at hi
    exact Option.some.inj hi
  simp only [qgo] at g2
  -- the control register starts it again
  obtain ⟨_, runs⟩ := g2.op (fun h => h) (changeOp_makes h1 ho)
  obtain ⟨r, e, c, blank, len⟩ := blank_made w2 runs h3
  obtain ⟨p, ports⟩ := length_eq_one_iff.mp len
  obtain ⟨_, runs⟩ := blank.gains.op (fun h => h) runs
  have g4 : Gains (· = id) d3 d4 [] := gains_changeOp rfl h4
  have w4 := (keeps_changeOp _ fun _ => by rfl).kept blank.wellFormed h4
  obtain rfl : ctl = d.ops.size := by
    rw [blank.new, ← length_places, ← length_places, start_places h2, changeOp_places (fun _ => by rfl) h1]
  obtain ⟨_, hr⟩ := g4.op (Int.ne_of_gt (at?_lt ho).2) blank.op
  cases hr.symm.trans (op_ok hcr)
  obtain rfl : e = ri := by
    rw [Operation.firstEntry, show _ = [e] from blank.entries] at hri
    exact Except.ok.inj hri
  obtain rfl : p = rp := by
    rw [Operation.firstPort, show _ = [p] from ports] at hrp
    exact Except.ok.inj hrp
  have g5 : Augments d4 d5 [] := gains_changeEntry (fun _ => ⟨by rfl, by rfl⟩) h5
  have w5 := (keeps_changeEntry _ fun _ => ⟨by rfl, by rfl, by rfl⟩).kept w4 h5
  have w6 := (keeps_connect ..).kept w5 h6
  have w7 := (keeps_addDependency ..).kept w6 h7
  have w' := (keeps_finish ..).kept w7 h8
  obtain ⟨port, hport, g6⟩ := gains_connect (T := fun _ => False) w5 h6
  have data : port.isGo = false := by
    have face := g5.face (g4.face (blank.faces p (by rw [ports]; exact mem_singleton_self p)))
    rw [view_of _ hport, Option.some.injEq] at face
    exact congrArg Prod.snd face
  simp only [data] at g6
  have g7 := gains_addDependency (T := fun _ => False) w6 h7
  have places : d'.places = d.places ++ [(.reg, id)] := by
    rw [finish_places h8, addDependency_places h7, connect_places h6, changeEntry_places h5,
      changeOp_places (fun _ => by rfl) h4, blank.places, start_places h2, changeOp_places (fun _ => by rfl) h1]
  obtain ⟨j, x, go, hx, own, face, g8⟩ := f.finished w7 w' firm places h8
  have late := ((g5.trans g6).trans g7).trans g8
  -- what is asked for is what has been made
  obtain ⟨t, ht, -, tgo, -⟩ := (f.inside.firm firm).op
  obtain rfl : s.go = g := by
    obtain ⟨t', ht', hgo⟩ := bind_ok.mp hgo
    obtain ⟨_, ht''⟩ := (g7.trans g8).op (fun h => h) (op_ok ht')
    cases ht.symm.trans ht''
    exact tgo.symm.trans (Except.ok.inj hgo)
  obtain rfl : c = cb := Except.ok.inj ((blank.held (g4.trans (g5.trans g6).loosen)).symm.trans hcb)
  obtain ⟨z, hz, zdone⟩ := bind_ok.mp hfb
  obtain rfl : z.done = fbDone := Except.ok.inj zdone
  have early := (g1.trans g2.loosen).trans (blank.gains.loosen.trans g4)
  have unset : d.depsIn e = [] := by
    have none := early.deps e
    rw [g4.deps, blank.deps] at none
    exact (append_eq_nil_iff.mp none.symm).1
  obtain ⟨_, runs⟩ := late.op (fun h => h) (changeOp_makes h4 runs)
  obtain ⟨_, hr⟩ := late.op (fun h => h) hr
  obtain ⟨x', y, exits, hy, buses⟩ := blank.out
  exact ⟨_, e, p, c, z, x, go, firm, places, ⟨_, runs, rfl, rfl⟩, hr, blank.place, blank.entries, ports,
    ⟨x', y, exits, late.exit (g4.exit hy), buses⟩, late.entry (g4.entry blank.face), unset,
    ((g6.trans g7).trans g8).exit (exit_ok hz), ⟨j, hx, own⟩, face, v1, v2, v3, v4, early.trans late.loosen⟩

theorem Parts.Filled.restarts
    (h : s.Started id d d' r e p c z w g) : s.Of d' id ∧ s.Unfed d' ∧ s.Restarts d' id d.ops.size := by
  have out := f.outside.firm h.firm
  have ins := f.inside.firm h.firm
  obtain ⟨a, ha, aplace, -⟩ := f.outside.inBuf
  obtain ⟨m, hm, mplace, -⟩ := f.outside.outBuf
  obtain ⟨q, hq, qplace, -⟩ := f.inside.op
  obtain ⟨v₁, v₂, v₃, v₄, all⟩ := h.gains
  -- the entries that get dependencies are told apart by their operations
  have young {i : Int} {o : Operation} (ho : at? d.ops i = some o) : (d.ops.size : Int) ≠ i :=
    Int.ne_of_gt (at?_lt ho).2
  have n1 : s.inBuf ≠ s.body := f.inside.ne_body ha aplace (by decide)
  have n2 : s.outBuf ≠ s.body := f.inside.ne_body hm mplace (by decide)
  have apart : [s.initial, e, s.feedback, s.completion].Nodup := by
    refine Nodup.of_map (view d'.entries Entry.face) ?_
    simp [ins.initial, ins.feedback, h.face, out.completion, n2.symm, young hq, (young hq).symm, young hm]
  have pbd : d.place? s.body = some (.whileBody, id) := view_some.mpr ⟨_, hq, qplace⟩
  have one := all.gained apart (.head _) (f.unfed f.inside.initial pbd)
  have two := all.gained apart (.tail _ (.head _)) h.deps
  have three := all.gained apart (.tail _ (.tail _ (.head _))) (f.unfed f.inside.feedback pbd)
  have four := all.gained apart (.tail _ (.tail _ (.tail _ (.head _))))
    (f.unfed f.outside.completion (view_some.mpr ⟨_, hm, mplace⟩))
  obtain ⟨o, ho, body, control⟩ := h.runs
  refine ⟨⟨out, ins, o, ho, body⟩, ⟨⟨_, one, rfl, rfl⟩, ?_, ?_⟩, ⟨⟨o, ho, control⟩, ?_, ?_, ?_, ?_⟩⟩
  · intro y hy
    rw [three, mem_singleton] at hy
    rw [hy]
  · intro y hy
    rw [four, mem_singleton] at hy
    rw [hy]
    exact h.go
  · obtain ⟨x, y, exits, hy, buses⟩ := h.out
    exact ⟨r, e, p, x, y, c, z, v₂, v₃, h.op, h.place, h.entries, h.ports, exits, hy, buses, h.again, two, three⟩
  · obtain ⟨j, hj, own⟩ := h.leave
    exact ⟨_, j, w, four, hj, own, rfl⟩
  · intro i b hi
    have none : d.depsIn i = [] := by
      cases he : at? d.entries i with
      | none => simp [Design.depsIn, Design.entryAt?, he]
      | some n =>
        have face := view_of Entry.face he
        rw [Option.some.inj ((h.firm.entry face).symm.trans hi)] at face
        exact f.unfed face (view_some.mpr ⟨_, ha, aplace⟩)
    have n3 : s.inBuf ≠ s.outBuf := by
      intro same
      cases aplace.symm.trans ((Option.some.inj (ha.symm.trans (same ▸ hm)) : a = _) ▸ mplace)
    rw [all.deps, none]
    simp [entry_ne ins.initial hi (by simp [n1.symm]), entry_ne ins.feedback hi (by simp [n1.symm]),
      entry_ne h.face hi (by simp [young ha]), entry_ne out.completion hi (by simp [n3.symm])]
  · intro c k hc
    exact (f.kids h.places hc).imp_right (.imp_right (.imp_right And.left))

end

section
variable (hd : WellFormed d) (ho : owner < d.ops.size)
  (h : newLoop owner name inputs outputs latency d = .ok (loop, d'))
include hd ho h

theorem newLoop_made : ∃ (s : Parts) (ctl : OpId), s.Of d' loop ∧ s.Unfed d' ∧ s.Restarts d' loop ctl := by
  obtain ⟨s, front, e, f, h⟩ := newLoop_filled hd ho h
  obtain ⟨_, _, _, _, _, _, _, started⟩ := f.started h
  exact ⟨s, _, f.restarts started⟩

theorem newLoop_parts : ∃ s : Parts, s.Of d' loop ∧ s.Unfed d' := by
  obtain ⟨s, ctl, of, unfed, -⟩ := newLoop_made hd ho h
  exact ⟨s, of, unfed⟩

end

end

/-! ## Until it is wired -/

/-- The loop and the operations directly in it are as they were, whatever has been built around them
and inside its body. -/
structure Unwired (d d' : Design) (k : OpId) : Prop where
  loop : Intact d d' k
  parts : ∀ {c}, view d.ops Operation.owner c = some k → Untouched d d' c

section
variable {s : Parts}

theorem owner_of_place (ho : at? d.ops k = some o)
    (hp : o.place = (kind, loop)) : view d.ops Operation.owner k = some loop :=
  view_some.mpr ⟨o, ho, congrArg Prod.snd hp⟩

theorem Parts.Of.inside_owner (h : s.Of d loop) : view d.ops Operation.owner s.body = some loop := by
  obtain ⟨o, ho, place, -⟩ := h.inside.op
  exact owner_of_place ho place

theorem Parts.Of.outBuf_owner (h : s.Of d loop) : view d.ops Operation.owner s.outBuf = some loop := by
  obtain ⟨o, ho, place, -⟩ := h.outside.outBuf
  exact owner_of_place ho place

theorem Parts.Of.unwired (h : s.Of d loop) (u : Unwired d d' loop) : s.Of d' loop where
  outside := by
    obtain ⟨o, ho, place, -⟩ := h.outside.inBuf
    exact h.outside.intact u.loop (u.parts (owner_of_place ho place)).toIntact (u.parts h.outBuf_owner).toIntact
  inside := h.inside.intact (u.parts h.inside_owner).toIntact
  runs := by
    obtain ⟨o, ho, body⟩ := h.runs
    obtain ⟨cs, ho'⟩ := u.loop.op ho
    exact ⟨_, ho', body⟩

theorem Parts.Unfed.unwired (hu : s.Unfed d) (h : s.Of d loop) (u : Unwired d d' loop) : s.Unfed d' where
  initial := by
    rw [(u.parts h.inside_owner).deps h.inside.initial]
    exact hu.initial
  feedback := by
    rw [(u.parts h.inside_owner).deps h.inside.feedback]
    exact hu.feedback
  completion := by
    rw [(u.parts h.outBuf_owner).deps h.outside.completion]
    exact fun v hv => (u.parts h.outBuf_owner).port (hu.completion v hv)

end

end Loop

end Datapath
