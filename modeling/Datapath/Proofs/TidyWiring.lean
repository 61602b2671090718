import Datapath.Proofs.TidyBuilders
import Datapath.Proofs.Totality
import Datapath.Proofs.Cells
import Datapath.Proofs.Steps

/-!
# Wiring keeps designs tidy

The latches of a loop take values from its input buffer or from older latches and drive the body, the
registers take values from the body and feed back, and the body drives the output buffer. So the wiring
of a loop leaves a tidy design.
-/

namespace Datapath

open List

variable {d g d' : Design}

namespace Loop

/-- What the wiring of the loop `l` of `d` with the body `b` and the input buffer `f` reads and drives. -/
structure Socket (g d : Design) (l b f : OpId) (ways : Ways) : Prop where
  loop : ∃ m, g.place? l = some (.loop, m)
  body : g.place? b = some (.whileBody, l)
  front : g.place? f = some (.inBuf, l)
  initial : ∃ c, view g.entries Entry.face ways.initial = some (b, c)
  feedback : view g.entries Entry.face ways.feedback = some (b, true)
  start : ∃ s k, Carried g ways.start s ∧ d.place? s = some (k, l) ∧ k.level .loop ≤ 1

def Wired (g d e : Design) : Prop := Unfolds d e ∧ (Unfolds e g → Raises g (fun _ => True) d e)

theorem Wired.chains (g d : Design) : Chains fun e e' => Wired g d e → Wired g d e' :=
  ⟨fun _ h => h, fun h h' hd => h' (h hd)⟩

section
variable {e e' : Design}

theorem Wired.step (h : Wired g d e) (u : Unfolds e e')
    (r : Unfolds d e → Unfolds e' g → Raises g (fun _ => True) e e') : Wired g d e' :=
  ⟨Unfolds.chains.trans h.1 u, fun v => (Raises.chains g _).trans (h.2 (Unfolds.chains.trans u v)) (r h.1 v)⟩

theorem Attaches.unfolds (h : Attaches i bus port e e') : Unfolds e e' := by
  obtain ⟨_, _, _, h⟩ := h
  exact Unfolds.builds.depend.run h

theorem Attaches.raises (h : Attaches i bus port e e') (face : view g.entries Entry.face i = some (k, b))
    (up : b = true ∨ Carried g bus s ∧ Climbs g s k) : Raises g (fun _ => True) e e' := by
  obtain ⟨_, _, _, h⟩ := h
  exact (raises_depend face trivial fun first => ⟨s, up.resolve_left (by rw [first]; exact nofun)⟩).run h

variable (w : WellFormed g) (sits : AllSit (fun _ => False) g)
include w

include sits in
theorem cell_made {kind : Kind} {inputs : Int} {c : OpId} {o : Operation} {i : EntryId}
  (hloop : g.place? loop = some (.loop, outer))
    (hk : kind = .latch ∨ kind = .reg ∧ 0 < inputs) (installed : Installed kind loop inputs c o i d d') :
    Unfolds d d' ∧ (Unfolds d' g → Raises g (fun _ => True) d d' ∧ (d.ops.size : Int) = c ∧
      g.place? c = some (kind, loop) ∧ (∃ b, view g.entries Entry.face i = some (c, b)) ∧
      ∀ {e b}, Unfolds e g → (do (← e.exit (← o.firstExit)).firstBus) = Except.ok b → Carried g b c) := by
  obtain @⟨_, _, _, e, h, hop, hi, hd⟩ := installed
  have u := Unfolds.builds.drive.run hd
  refine ⟨Unfolds.chains.trans (unfolds_newPrimitive.run h) u, fun v => ?_⟩
  have v := Unfolds.chains.trans u v
  obtain ⟨id, q, _, _, _, hq, place, -⟩ := newPrimitive_makes h
  refine ⟨(Raises.chains g _).trans (raises_newPrimitive v h ?_ ?_ ?_) (raises_changeEntry.run hd), id.symm,
    v.place ((view_of _ hq).trans (congrArg some place)), v.first w hop hi, fun {f b} v' hb => ?_⟩
  · rw [hloop]
    rcases hk with rfl | ⟨rfl, -⟩ <;> rfl
  · rcases hk with rfl | ⟨rfl, -⟩ <;> exact nofun
  · rcases hk with rfl | ⟨rfl, some⟩
    · exact .inl rfl
    · exact .inr (register_whole v sits h some (by decide))
  · obtain ⟨x, hx, hb⟩ := bind_ok.mp hb
    obtain ⟨y, hy, hb⟩ := bind_ok.mp hb
    obtain ⟨p, hp, stays⟩ := v.op (op_ok hop)
    obtain ⟨z, hz, own⟩ := w.exits.holds hp x (stays.exits.subset (mem_of_head? (require_ok.mp hx)))
    obtain ⟨z', hz', -, -, -, -, buses⟩ := v'.found (exit_ok hy)
    cases hz.symm.trans hz'
    exact Option.some.inj own ▸ carried_exit w hz (mem_cons_of_mem _ (buses ▸ mem_of_head? (require_ok.mp hb)))

include sits

section
variable {lp : Operation} (site : Socket g d loop body front ways) (hl : lp.id = loop)
include site hl

theorem wireInitial_makes (carried : Carried g bus front)
    (fb : Links) : Along (fun e e' => Wired g d e → Wired g d e') (wireInitial lp ways fb port bus) := by
  constructor
  intro e r e' h hd
  obtain ⟨outer, hloop⟩ := site.loop
  obtain ⟨_, initial⟩ := site.initial
  have t := Unfolds.chains
  have c := Raises.chains g fun _ => True
  rcases wireInitial_steps h with ⟨-, one⟩ | ⟨-, latch, la, i, p0, p1, held, e1, e2, e3, e4, made, h2, h3, hheld,
    h4, h5⟩
  · exact hd.step one.unfolds fun _ _ => one.raises initial
      (.inr ⟨carried, climbs_front site.front site.body hloop nofun⟩)
  · rw [hl] at made
    obtain ⟨u1, made⟩ := cell_made w sits hloop (.inl rfl) made
    have u3 := t.trans h4.unfolds h5.unfolds
    have u2 := t.trans h2.unfolds (t.trans h3.unfolds u3)
    refine hd.step (t.trans u1 u2) fun u v => ?_
    obtain ⟨r1, new, place, ⟨_, face⟩, out⟩ := made (t.trans u2 v)
    have held := out (t.trans u3 v) hheld
    -- the latch takes the value when the loop starts, and drives the body
    obtain ⟨s, k, start, there, low⟩ := site.start
    have older : s < (e.ops.size : Int) := (view_lt (u.place there)).2
    have there := (t.trans u (t.trans u1 (t.trans u2 v))).place there
    refine c.trans r1 <|
      c.trans (h2.raises face (.inr ⟨start, k, .latch, .loop, loop, outer, there, place, hloop, ?_⟩)) <|
      c.trans (h3.raises face (.inr ⟨carried, climbs_front site.front place hloop nofun⟩)) <|
      c.trans (h4.raises (s := s) site.feedback (.inl rfl)) <| h5.raises initial
      (.inr ⟨held, .latch, .whileBody, .loop, loop, outer, place, site.body, hloop, .inl (by decide)⟩)
    rcases Nat.lt_or_eq_of_le low with lt | same
    · exact .inl lt
    · exact .inr ⟨same, rfl, new ▸ older⟩

theorem wireFeedback_makes (carried : Carried g bus body) :
    Along (fun e e' => Wired g d e → Wired g d e') (wireFeedback lp ways port bus) := by
  constructor
  intro e r e' h hd
  obtain ⟨outer, hloop⟩ := site.loop
  have t := Unfolds.chains
  have c := Raises.chains g fun _ => True
  obtain ⟨reg, rg, i, p0, held, e1, e2, made, value, again⟩ := wireFeedback_steps h
  rw [hl] at made
  obtain ⟨u1, made⟩ := cell_made w sits hloop (.inr ⟨rfl, by decide⟩) made
  have u2 := t.trans value.unfolds again.unfolds
  refine hd.step (t.trans u1 u2) fun _ v => ?_
  -- the register takes the value from the body and feeds it back
  obtain ⟨r1, -, place, ⟨_, face⟩, -⟩ := made (t.trans u2 v)
  refine c.trans r1 <| c.trans (value.raises face (.inr ⟨carried, ?_⟩))
    (again.raises (s := body) site.feedback (.inl rfl))
  exact ⟨.whileBody, .reg, .loop, loop, outer, site.body, place, hloop, .inl (by decide)⟩

end

omit sits in
theorem wireOutput_makes {outBuf : OpId} (hloop : g.place? loop = some (.loop, outer))
    (hbody : g.place? body = some (.whileBody, loop)) (back : g.place? outBuf = some (.outBuf, loop))
    (carried : Carried g bus body) :
    Along (fun e e' => Wired g d e → Wired g d e') (wireOutput loop outBuf port bus).run := by
  have c := Wired.chains g d
  refine c.passBind (c.look _) fun p => c.guard (c.query _) ?_
  constructor
  intro e r e' h hd
  rcases step_bind_run.mp h with ⟨_, he, -⟩ | ⟨entry, e, hentry, made⟩
  · exact (c.look _).run he hd
  obtain ⟨hentry, rfl⟩ := look_ok.mp hentry
  obtain ⟨o, ho, hi⟩ := bind_ok.mp hentry
  have made : (connect entry bus port >>= fun v => pure (.ok v)) e = .ok (r, e') := made
  obtain ⟨_, e1, h1, made⟩ := build_bind_ok.mp made
  cases made
  have one := attaches_connect h1
  refine hd.step one.unfolds fun _ v => ?_
  obtain ⟨_, face⟩ := (Unfolds.chains.trans one.unfolds v).first w ho hi
  exact one.raises face (.inr ⟨carried, climbs_back hbody back hloop (by decide)⟩)

/-! ## What the wiring reads -/

omit sits in
theorem waysOf_socket (hd : Orderly d) (u : Unfolds d g) (hloop : d.place? loop = some (.loop, outer))
    (front' : d.place? front = some (.inBuf, loop)) (hbd : at? d.ops body = some bd)
    (hbody : d.place? body = some (.whileBody, loop)) (h : (waysOf d bd).run = .ok (.ok ways)) :
    Socket g d loop body front ways := by
  unfold waysOf at h
  obtain ⟨initial, hi, h⟩ := query_bind_ok.mp h
  obtain ⟨i, es, entries, first⟩ := (hd.tidy.sits hbd).entered
  have hi := query_lift_ok.mp hi
  rw [Operation.firstEntry, entries] at hi
  cases hi
  split at h
  · exact (reject_ok.mp h).elim
  next feedback hf =>
    obtain ⟨vs, hvs, h⟩ := query_bind_ok.mp h
    split at h
    next v =>
      obtain ⟨w', hw, h⟩ := query_bind_ok.mp h
      cases h
      refine ⟨⟨outer, u.place hloop⟩, u.place hbody, u.place front', ?_, ?_, ?_⟩
      · exact u.entry w hbd (entries ▸ mem_cons_self)
      · obtain ⟨n, hn, rfl⟩ := Option.map_eq_some_iff.mp hf
        obtain ⟨j, hj, hn'⟩ := mem_filterMap.mp (mem_of_find?_eq_some hn)
        obtain ⟨b, face⟩ := entry_face hd.wf hbd hj
        have feeds : n.feedback = true := find?_some hn
        rw [view_of _ hn'] at face
        have own : n.owner = body := congrArg Prod.fst (Option.some.inj face)
        exact u.again (view_some.mpr ⟨n, hd.wf.entryIds j n hn' ▸ hn', Prod.ext own feeds⟩)
      · -- the go port is driven by what comes before the body
        have hvs := query_lift_ok.mp hvs
        rw [depsOn_ok first] at hvs
        have mem : v ∈ ((d.depsIn initial).filter (·.target == bd.go)).map Dependency.id :=
          Except.ok.inj hvs ▸ mem_singleton_self v
        obtain ⟨v, hv, rfl⟩ := mem_map.mp mem
        have hv := (mem_filter.mp hv).1
        cases (require_ok.mp (query_lift_ok.mp hw)).symm.trans (dep_in hd.wf hv)
        obtain ⟨s, carried, j, k, l, n, p, hs, hk, hl, up⟩ := hd.tidy.rises first w' hv
        cases hbody.symm.trans hk
        cases hloop.symm.trans hl
        refine ⟨s, j, u.carried carried, hs, ?_⟩
        rcases up with lt | ⟨-, no, -⟩
        · exact Nat.lt_succ_iff.mp lt
        · cases no
    · exact (reject_ok.mp h).elim

theorem wireBody_makes {lp : Operation} (hd : Orderly d) (u : Unfolds d g) (hlp : at? d.ops loop = some lp)
    (hloop : d.place? loop = some (.loop, outer)) (hbd : at? d.ops lp.body = some bd)
    (hbody : d.place? lp.body = some (.whileBody, loop)) (initial : ∀ l ∈ c.initial, Carried g l.2 lp.inBuf)
    (feedback : ∀ l ∈ c.feedback, Carried g l.2 lp.body) (h : (wireBody lp bd c).run d = .ok (.ok r, e)) :
    Wired g d e := by
  have front : d.place? lp.inBuf = some (.inBuf, loop) := by
    refine hd.wf.nesting.inBufs (view_of _ hlp) ((hd.tidy.sits hlp).front ?_)
    rw [(Operation.place_of hlp hloop).1]
    rfl
  have hl : lp.id = loop := hd.wf.nesting.ids _ _ hlp
  have closed := (Wired.chains g d).closed
  obtain ⟨ways, hways, h⟩ := passQuery_bind_ok.mp h
  obtain ⟨-, -, h⟩ := passQuery_bind_ok.mp h
  obtain ⟨_, d1, h1, h⟩ := step_bind_ok.mp h
  obtain ⟨_, d2, h2, h⟩ := step_bind_ok.mp h
  cases h
  have site := waysOf_socket w hd u hloop front hbd hbody hways
  have latches :=
    (closed.mapM_of_mem fun l hl' => wireInitial_makes w sits site hl (initial l hl') c.feedback).run
      (ofBuild_ok.mp h1)
  have registers :=
    (closed.mapM_of_mem fun l hl' => wireFeedback_makes w sits site hl (feedback l hl')).run (ofBuild_ok.mp h2)
  exact registers (latches ⟨Unfolds.chains.refl d, fun _ => (Raises.chains g _).refl d⟩)

end

/-! ## Where the values come from -/

theorem carried_by (hd : WellFormed d) (hb : view d.buses Bus.exit b = some i)
    (own : ∀ {x}, d.exit i = .ok x → ∀ b ∈ x.done :: x.buses, Carried g b op) : Carried g b op := by
  obtain ⟨bus, hbus, rfl⟩ := view_some.mp hb
  obtain ⟨x, hx, mem⟩ := hd.buses.held hbus rfl
  exact own (require_ok.mpr hx) b mem

theorem exitsOf_owner {lp : Operation} (hd : WellFormed d) (u : Unfolds d g) (w : WellFormed g)
    (h : (exitsOf d lp).run = .ok (.ok exits)) :
    (∀ {b}, view d.buses Bus.exit b = some exits.input → Carried g b lp.inBuf) ∧
    (∀ {b}, view d.buses Bus.exit b = some exits.feedback → Carried g b lp.body) ∧
    ∀ {b}, view d.buses Bus.exit b = some exits.completion → Carried g b lp.body := by
  obtain ⟨feedback, hf, h⟩ := query_bind_ok.mp h
  obtain ⟨completion, hc, h⟩ := query_bind_ok.mp h
  obtain ⟨input, hi, h⟩ := query_bind_ok.mp h
  dsimp only at h
  -- an exit that is missing is rejected
  split at h
  · exact (reject_ok.mp (query_bind_ok.mp h).choose_spec.1).elim
  split at h
  · exact (reject_ok.mp (query_bind_ok.mp h).choose_spec.1).elim
  cases h
  exact ⟨(carried_by hd · fun hx => u.mainExit w (bind_ok.mpr ⟨_, query_lift_ok.mp hi, hx⟩)),
    (carried_by hd · fun hx => u.exitOf w (bind_ok.mpr ⟨_, query_lift_ok.mp hf, hx⟩)),
    (carried_by hd · fun hx => u.exitOf w (bind_ok.mpr ⟨_, query_lift_ok.mp hc, hx⟩))⟩

theorem use?_exit {s : Parts} {f : Feed} (h : s.use? d f = some u) : view d.buses Bus.exit f.source =
    some (match u with | .initial => s.input | .feedback => s.again | .output => s.leave) := by
  obtain ⟨b, hb, h⟩ := Option.bind_eq_some_iff.mp h
  refine view_some.mpr ⟨b, hb, ?_⟩
  split at h
  · cases h
    assumption
  split at h
  · cases h
    assumption
  split at h
  · cases h
    assumption
  · cases h

theorem classes_sorted (h : (fs.foldlM (classify d body exits) {}).run = .ok (.ok c)) :
    ∃ s : Parts, exits = ⟨s.again, s.leave, s.input⟩ ∧ s.Sortable d fs ∧ c = s.sorted d fs :=
  ⟨⟨⟨absent, absent, exits.input, absent, absent⟩, ⟨absent, absent, absent, absent, exits.feedback,
    exits.completion⟩⟩, rfl, classify_all.mp h⟩

theorem classified {fs : List Feed} (h : (fs.foldlM (classify d body exits) {}).run = .ok (.ok c)) :
    (∀ l ∈ c.initial, view d.buses Bus.exit l.2 = some exits.input) ∧
    (∀ l ∈ c.feedback, view d.buses Bus.exit l.2 = some exits.feedback) ∧
    ∀ l ∈ c.output, view d.buses Bus.exit l.2 = some exits.completion := by
  obtain ⟨s, rfl, -, rfl⟩ := classes_sorted h
  have from' : ∀ {u f}, f ∈ s.feeds d u fs → s.use? d f = some u := fun hf => by simpa using (mem_filter.mp hf).2
  refine ⟨?_, ?_, ?_⟩
  · intro l hl
    exact use?_exit (from' (lastSource?_mem (mem_links.mp hl)))
  · intro l hl
    obtain ⟨f, hf, rfl⟩ := mem_map.mp hl
    exact use?_exit (from' hf)
  · intro l hl
    obtain ⟨f, hf, rfl⟩ := mem_map.mp hl
    exact use?_exit (from' hf)

end Loop

theorem raises_wire (hd : Orderly d) (w : WellFormed d') (sits : AllSit (fun _ => False) d')
    (h : (Loop.wire loop feeds).run d = .ok (.ok wiring, d')) : Raises d' (fun _ => True) d d' := by
  have u := (Unfolds.builds.wires.wire ..).run h
  obtain ⟨lp, hlp, h⟩ := look_bind_ok.mp h
  obtain ⟨shape, h⟩ := guard_ok h
  obtain ⟨bd, hbd, h⟩ := look_bind_ok.mp h
  obtain ⟨exits, hexits, h⟩ := passQuery_bind_ok.mp h
  obtain ⟨c, hc, h⟩ := passQuery_bind_ok.mp h
  obtain ⟨made, d1, hb, h⟩ := step_bind_ok.mp h
  obtain ⟨ids, d2, ho, h⟩ := step_bind_ok.mp h
  obtain ⟨-, -, h⟩ := passQuery_bind_ok.mp h
  cases h
  have kind : lp.kind = .loop := by
    by_contra other
    exact shape (by simp [other])
  have hbody : d.place? lp.body = some (.whileBody, loop) := (hd.tidy.whole (op_ok hlp)).loop kind
  have hloop : d.place? loop = some (.loop, lp.owner) := by rw [place_of_op (op_ok hlp), kind]
  obtain ⟨initial, feedback, output⟩ := Loop.classified hc
  obtain ⟨fromFront, fromAgain, fromLeave⟩ := Loop.exitsOf_owner hd.wf u w hexits
  have body : Loop.Wired d' d d1 := Loop.wireBody_makes w sits hd u (op_ok hlp) hloop (op_ok hbd) hbody
    (fun l hl => fromFront (initial l hl)) (fun l hl => fromAgain (feedback l hl)) (within_ok.mp hb)
  have u1 := (Unfolds.builds.wires.wireOutputs ..).run ho
  obtain ⟨ob, hob, ho⟩ := look_bind_ok.mp ho
  obtain ⟨present, ho⟩ := guard_ok ho
  have outputs :=
    ((Loop.Wired.chains d' d).passClosed.mapM_of_mem fun l hl =>
      Loop.wireOutput_makes w (u.place hloop) (u.place hbody) (u1.outBuf w hob (by simpa using present))
        (fromLeave (output l hl))).run ho
  exact (outputs body).2 (Unfolds.chains.refl d')

end Datapath
