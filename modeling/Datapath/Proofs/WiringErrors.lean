import Datapath.Proofs.Additions
import Datapath.Proofs.Steps

/-!
# Errors of wiring

Wiring a loop first asks what the feeds are for, where they lead and how the body is entered, and adds
nothing before all of this is answered. An error that is found later leaves what has been added by then,
but nothing that was there before is changed.
-/

namespace Datapath

variable {d e' : Design}

/-! ## Questions that errors answer -/

/-- The error is about the structure of a design, for a reason in `P`. -/
def Error.Because (e : Error) (P : Reason → Prop) : Prop :=
  ∃ site reason, e.cause = .malformed site reason ∧ P reason

/-- The errors that answer the question have their reasons in `P`. -/
structure Rejects {α : Type} (P : Reason → Prop) (q : Query α) : Prop where
  run : ∀ {e}, q.run = .ok (.error e) → e.Because P

theorem malformed_because (hP : P reason) (h : d.malformed op reason = .ok e) : e.Because P := by
  unfold Design.malformed at h
  split at h
  · cases h
    exact ⟨_, _, rfl, hP⟩
  · obtain ⟨s, -, h⟩ := bind_ok.mp h
    cases h
    exact ⟨_, _, rfl, hP⟩

namespace Rejects

variable {α β : Type} {q : Query α}

theorem pure (a : α) : Rejects P (Pure.pure a : Query α) := ⟨nofun⟩

theorem lift (x : Except Fault α) : Rejects P (liftM x : Query α) := by
  constructor
  intro e h
  cases x <;> cases h

theorem bind {f : α → Query β} (hq : Rejects P q) (hf : ∀ a, q.run = .ok (.ok a) → Rejects P (f a)) :
    Rejects P (q >>= f) := by
  constructor
  intro e h
  obtain ⟨r, hr, h⟩ := bind_ok.mp (show (q.run >>= ExceptT.bindCont f) = _ from h)
  cases r with
  | error e' =>
    cases h
    exact hq.run hr
  | ok a => exact (hf a hr).run h

theorem closed : Closed Query fun {_} q => Rejects P q := ⟨pure, fun hq hf => hq.bind fun a _ => hf a⟩

theorem reject (hP : P reason) : Rejects P (d.reject op reason : Query α) := by
  refine (lift _).bind fun e he => ⟨fun h => ?_⟩
  cases h
  exact malformed_because hP (query_lift_ok.mp he)

theorem guard {op : OpId} {P : Reason → Prop} {reason : Reason} {c : Prop} [Decidable c] {k : PUnit → Query β}
    (hP : c → P reason) (hk : Rejects P (k ⟨⟩)) : Rejects P (if c then d.reject op reason >>= k else k ⟨⟩) := by
  by_cases hc : c
  · rw [if_pos hc]
    exact (reject (hP hc)).bind fun _ h => (reject_ok.mp h).elim
  · rw [if_neg hc]
    exact hk

end Rejects

section
variable {α β : Type} {d' : Design}

theorem ofBuild_error {m : Build α} : (Pass.ofBuild m).run d = .ok (.error e, d') ↔ False := by
  refine ⟨fun h => ?_, False.elim⟩
  obtain ⟨_, -, h⟩ := bind_ok.mp (show (m.run d >>= fun p => pure (Except.ok p.1, p.2)) = _ from h)
  cases h

theorem within_error {p : Pass α} (h : (Pass.within part p).run d = .ok (.error e, d')) :
    ∃ inner, e = .within part inner ∧ p.run d = .ok (.error inner, d') := by
  obtain ⟨⟨r, _⟩, hp, h⟩ := bind_ok.mp h
  cases r with
  | ok a => cases h
  | error inner =>
    cases h
    exact ⟨inner, rfl, hp⟩

theorem mapM_error {f : α → Pass β} {l : List α} (h : (l.mapM f).run d = .ok (.error e, d')) :
    ∃ a ∈ l, ∃ u, (f a).run u = .ok (.error e, d') := by
  induction l generalizing d with
  | nil => cases h
  | cons a l ih =>
    rw [List.mapM_cons] at h
    rcases step_bind_run.mp h with ⟨_, ha, he⟩ | ⟨b, u, -, h⟩
    · cases he
      exact ⟨a, List.mem_cons_self, d, ha⟩
    rcases step_bind_run.mp h with ⟨_, hl, he⟩ | ⟨bs, u', -, h⟩
    · cases he
      obtain ⟨c, hc, ran⟩ := ih hl
      exact ⟨c, List.mem_cons_of_mem _ hc, ran⟩
    · cases h

end

/-! ## Designs with more in them -/

/-- The second array starts with the elements of the first, which are related to what they were. -/
structure Continues {α : Type} (R : α → α → Prop) (xs ys : Array α) : Prop where
  size : xs.size ≤ ys.size
  old : ∀ {i x}, at? xs i = some x → ∃ y, at? ys i = some y ∧ R x y

def Lengthens (n : Nat) (l l' : List Int) : Prop := ∃ new, l' = l ++ new ∧ ∀ k ∈ new, (n : Int) ≤ k

/-- Elements have been appended to a design, and nothing else is changed than the lists that refer to
new elements. -/
structure Appends (d d' : Design) : Prop where
  ops : Continues (fun o p => Lengthens d.ops.size o.children p.children ∧ p = { o with children := p.children })
    d.ops d'.ops
  ports : Continues Eq d.ports d'.ports
  buses : Continues (fun b c => Lengthens d.deps.size b.dependents c.dependents ∧
    c = { b with dependents := c.dependents })
    d.buses d'.buses
  exits : Continues Eq d.exits d'.exits
  entries : Continues (fun e f => Lengthens d.deps.size e.deps f.deps ∧ f = { e with deps := f.deps })
    d.entries d'.entries
  deps : Continues Eq d.deps d'.deps
  rest : d'.name = d.name ∧ d'.resources = d.resources ∧ d'.tasks = d.tasks ∧ d'.regions = d.regions

theorem Lengthens.refl (n : Nat) (l : List Int) : Lengthens n l l := ⟨[], by simp⟩

theorem Lengthens.snoc (h : Lengthens n l l') (hk : (n : Int) ≤ k) : Lengthens n l (l' ++ [k]) := by
  obtain ⟨new, rfl, hn⟩ := h
  refine ⟨new ++ [k], by simp, ?_⟩
  simpa [or_imp, forall_and] using ⟨hn, hk⟩

namespace Continues

variable {α : Type} {R : α → α → Prop} {xs ys : Array α} {f : α → α}

theorem refl (hR : ∀ x, R x x) (xs : Array α) : Continues R xs xs := ⟨Nat.le_refl _, fun {_ x} hx => ⟨x, hx, hR x⟩⟩

section
variable (h : Continues R xs ys)
include h

theorem push (a : α) : Continues R xs (ys.push a) := by
  refine ⟨Nat.le_trans h.size (by simp), fun hx => ?_⟩
  obtain ⟨y, hy, r⟩ := h.old hx
  exact ⟨y, at?_push_of a hy, r⟩

theorem append (l : List α) : Continues R xs (ys ++ l) := by
  refine ⟨Nat.le_trans h.size (by simp [← Array.length_toList]), fun hx => ?_⟩
  obtain ⟨y, hy, r⟩ := h.old hx
  exact ⟨y, at?_append_of l hy, r⟩

theorem edit (hf : ∀ {x y}, R x y → R x (f y)) : Continues R xs (editAt ys k f) := by
  refine ⟨by simpa [size_editAt] using h.size, fun {i x} hx => ?_⟩
  obtain ⟨y, hy, r⟩ := h.old hx
  by_cases hi : i = k
  · exact ⟨f y, by rw [at?_editAt, if_pos hi, hy, Option.map_some], hf r⟩
  · exact ⟨y, by rw [at?_edit_ne hi, hy], r⟩

theorem edit_new (new : (xs.size : Int) ≤ k) : Continues R xs (editAt ys k f) := by
  refine ⟨by simpa [size_editAt] using h.size, fun {i x} hx => ?_⟩
  have lt := at?_lt hx
  rw [at?_edit_ne (by omega)]
  exact h.old hx

end

end Continues

namespace Appends

variable {e : Design}

theorem refl (d : Design) : Appends d d where
  ops := .refl (fun _ => ⟨.refl .., rfl⟩) _
  ports := .refl (fun _ => rfl) _
  buses := .refl (fun _ => ⟨.refl .., rfl⟩) _
  exits := .refl (fun _ => rfl) _
  entries := .refl (fun _ => ⟨.refl .., rfl⟩) _
  deps := .refl (fun _ => rfl) _
  rest := ⟨rfl, rfl, rfl, rfl⟩

theorem addOp (h : Appends d e) (ha : Datapath.addOp kind owner name e = .ok (k, e')) : Appends d e' := by
  obtain ⟨-, -, rfl⟩ := addOp_ok ha
  refine { h with ops := (h.ops.push _).edit ?_, ports := h.ports.push _ }
  rintro o p ⟨more, same⟩
  refine ⟨more.snoc (by exact_mod_cast h.ops.size), ?_⟩
  rw [same]

section
variable (h : Appends d e) (new : (d.ops.size : Int) ≤ k)
include h new

theorem addPorts (ha : Datapath.addPorts k count e = .ok (u, e')) : Appends d e' := by
  rw [addPorts_ok ha]
  exact { h with ops := h.ops.edit_new new, ports := h.ports.append _ }

theorem addEntry (ha : Datapath.addEntry k drive e = .ok (i, e')) : Appends d e' := by
  obtain ⟨-, -, rfl⟩ := addEntry_ok ha
  exact { h with ops := h.ops.edit_new new, entries := h.entries.push _ }

theorem addExit (ha : Datapath.addExit k tag latency count e = .ok (x, e')) : Appends d e' := by
  obtain ⟨-, -, rfl⟩ := addExit_ok ha
  exact { h with ops := h.ops.edit_new new, exits := h.exits.push _, buses := (h.buses.push _).append _ }

end

theorem addDependency (h : Appends d e) {kind : DepKind}
    (ha : Datapath.addDependency entry kind source target clocks e = .ok (v, e')) : Appends d e' := by
  obtain ⟨rfl, -, -, -, -, -, -, -, -, rfl⟩ := addDependency_ok ha
  have new : (d.deps.size : Int) ≤ e.deps.size := by exact_mod_cast h.deps.size
  refine { h with deps := h.deps.push _, entries := h.entries.edit ?_, buses := h.buses.edit ?_ }
  · rintro x y ⟨more, same⟩
    refine ⟨more.snoc new, ?_⟩
    rw [same]
  · rintro x y ⟨more, same⟩
    refine ⟨more.snoc new, ?_⟩
    rw [same]

end Appends

namespace Loop

variable {e : Design}

theorem appends_installed {c : OpId} (h : Appends d e)
    (new : Installed kind owner inputs c o i e e') : Appends d e' := by
  obtain ⟨made, op, first, driven⟩ := new
  obtain ⟨-, e1, e2, e3, entry, _, h1, h2, h3, h4⟩ := newPrimitive_ok made
  obtain ⟨rfl, ⟨_, o1⟩, -⟩ := addOp_makes h1
  obtain ⟨o3, -⟩ := addEntry_makes h3 (addPorts_makes h2 o1)
  obtain ⟨o4, -⟩ := addExit_makes h4 o3
  have late : (d.ops.size : Int) ≤ e.ops.size := by exact_mod_cast h.ops.size
  have a2 := (h.addOp h1).addPorts late h2
  have a4 := (a2.addEntry late h3).addExit late h4
  -- the entry that is driven is the new one
  cases (op_ok op).symm.trans o4
  cases first
  obtain ⟨-, rfl⟩ := changeEntry_ok driven
  obtain ⟨rfl, -, -⟩ := addEntry_ok h3
  have there : (d.entries.size : Int) ≤ e2.entries.size := by exact_mod_cast a2.entries.size
  refine { a4 with entries := ?_ }
  dsimp only
  exact a4.entries.edit_new there

/-! ## What is added -/

theorem chains_appends (d : Design) : Chains fun e e' => Appends d e → Appends d e' :=
  ⟨fun _ h => h, fun h h' hd => h' (h hd)⟩

theorem Attaches.appends (h : Attaches i bus p e e') (hd : Appends d e) : Appends d e' := by
  obtain ⟨_, _, _, h⟩ := h
  exact hd.addDependency h

theorem appends_wireInitial {lp : Operation} : Along (fun e e' => Appends d e → Appends d e')
  (wireInitial lp ways fb port bus) := by
  constructor
  intro e r e' h hd
  rcases wireInitial_steps h with ⟨-, one⟩ | ⟨-, _, _, _, _, _, _, _, _, _, _, latch, go, value, -, again, start⟩
  · exact one.appends hd
  · exact start.appends (again.appends (value.appends (go.appends (appends_installed hd latch))))

theorem appends_wireFeedback {lp : Operation} : Along (fun e e' => Appends d e → Appends d e')
  (wireFeedback lp ways port bus) := by
  constructor
  intro e r e' h hd
  obtain ⟨_, _, _, _, _, _, _, register, value, again⟩ := wireFeedback_steps h
  exact again.appends (value.appends (appends_installed hd register))

theorem appends_wireOutputs : Along (fun e e' => Appends d e → Appends d e') (wireOutputs loop ls).run := by
  have c := chains_appends d
  refine c.passBind (c.look _) fun ob => c.guard (c.query _) (c.passClosed.mapM (fun l => ?_) ls)
  refine c.passBind (c.look _) fun p => c.guard (c.query _)
    (c.passBind (c.look _) fun entry => c.ofBuild ⟨fun h hd => ?_⟩)
  exact (attaches_connect h).appends hd

theorem appends_wire : Along (fun e e' => Appends d e → Appends d e') (wire loop feeds).run := by
  have c := chains_appends d
  refine c.passBind (c.look _) fun lp => c.guard (c.query _) (c.passBind (c.look _) fun bd => ?_)
  refine c.passBind (c.query _) fun exits => c.passBind (c.query _) fun classes => ?_
  refine c.passBind (c.within _ ?_) fun made => c.passBind appends_wireOutputs fun ids => ?_
  · refine c.passBind (c.query _) fun ways => c.passBind (c.query _) fun _ => ?_
    refine c.passBind (c.ofBuild (c.closed.mapM (fun _ => appends_wireInitial) _)) fun latches => ?_
    exact c.passBind (c.ofBuild (c.closed.mapM (fun _ => appends_wireFeedback) _)) fun registers => c.passPure _
  · exact c.passBind (c.query _) fun _ => c.passPure _

/-! ## What is rejected -/

/-- The reasons for which a loop is rejected before anything is added to it. An exit is missing from the body. -/
inductive Early (d : Design) (loop : OpId) : Reason → Prop where
  | notLoop : Early d loop .notLoop
  | missingExit {lp : Operation} {tag : ExitTag} (op : d.op loop = .ok lp)
    (missing : d.exitOf lp.body tag = .ok absent) :
    Early d loop (.missingExit tag)
  | noFeedbackEntry : Early d loop .noFeedbackEntry
  | unknownDependency (bus : String) (owner : Option Label) : Early d loop (.unknownDependency bus owner)
  | repeatedFeedback (port : String) : Early d loop (.repeatedFeedback port)
  | repeatedOutput (port : String) : Early d loop (.repeatedOutput port)
  | goDependencies (count : Nat) : Early d loop (.goDependencies count)
  | outsideBody (port : String) : Early d loop (.outsideBody port)

/-- The reasons that are found once the values for the body are wired. -/
inductive Late : Reason → Prop where
  | outsideCompletion (port : String) : Late (.outsideCompletion port)
  | missingExit : Late (.missingExit .done)
  | noInitialValue (port : String) : Late (.noInitialValue port)
  | driverCount (port : String) (initial feedback : Nat) : Late (.driverCount port initial feedback)

theorem rejects_exitsOf {lp : Operation} (hl : d.op loop = .ok lp) : Rejects (Early d loop) (exitsOf d lp) := by
  refine (Rejects.lift _).bind fun feedback hf => (Rejects.lift _).bind fun completion hc => (Rejects.lift _).bind
    fun _ _ => ?_
  refine .guard (fun none => .missingExit hl ?_) (.guard (fun none => .missingExit hl ?_) (.pure _))
  · rw [← eq_of_beq none]
    exact query_lift_ok.mp hf
  · rw [← eq_of_beq none]
    exact query_lift_ok.mp hc

theorem rejects_classify : Rejects (Early d loop) (classify d body exits c f) := by
  refine (Rejects.lift _).bind fun b _ => ?_
  split
  · split
    · exact (Rejects.lift _).bind fun p _ => (Rejects.reject (.repeatedFeedback _)).bind fun _ h =>
        (reject_ok.mp h).elim
    · exact .pure _
  split
  · split
    · exact (Rejects.lift _).bind fun p _ => (Rejects.reject (.repeatedOutput _)).bind fun _ h =>
        (reject_ok.mp h).elim
    · exact .pure _
  split
  · exact .pure _
  · exact (Rejects.lift _).bind fun _ _ => (Rejects.lift _).bind fun _ _ => .reject (.unknownDependency ..)

theorem rejects_waysOf : Rejects (Early d loop) (waysOf d bd) := by
  refine (Rejects.lift _).bind fun initial _ => ?_
  split
  · exact .reject .noFeedbackEntry
  · refine (Rejects.lift _).bind fun vs _ => ?_
    split
    · exact (Rejects.lift _).bind fun _ _ => .pure _
    · exact .reject (.goDependencies _)

theorem rejects_checkTargets : Rejects (Early d loop) (checkTargets d body ls) := by
  refine Rejects.closed.forM (fun l => (Rejects.lift _).bind fun p _ => ?_) ls
  split
  · exact .reject (.outsideBody _)
  · exact .pure _

theorem rejects_checkComplete : Rejects Late (checkComplete d bd) := by
  refine (Rejects.lift _).bind fun initial _ => Rejects.closed.forM (fun p => ?_) _
  refine (Rejects.lift _).bind fun starts _ => (Rejects.lift _).bind fun restarts _ => ?_
  dsimp only
  split
  · exact .pure _
  refine (Rejects.lift _).bind fun p _ => .guard (fun _ => .noInitialValue _) ?_
  split
  · exact .reject (.driverCount ..)
  · exact .pure _

theorem wireBody_error {lp : Operation} (h : (wireBody lp bd c).run d = .ok (.error x, e)) :
  x.Because (Early d loop) ∧ e = d := by
  rcases passQuery_bind_run.mp h with ⟨_, failed, same, rfl⟩ | ⟨ways, -, h⟩
  · cases same
    exact ⟨rejects_waysOf.run failed, rfl⟩
  rcases passQuery_bind_run.mp h with ⟨_, failed, same, rfl⟩ | ⟨_, -, h⟩
  · cases same
    exact ⟨rejects_checkTargets.run failed, rfl⟩
  -- the steps that follow only build
  rcases step_bind_run.mp h with ⟨_, failed, -⟩ | ⟨_, _, -, h⟩
  · exact (ofBuild_error.mp failed).elim
  rcases step_bind_run.mp h with ⟨_, failed, -⟩ | ⟨_, _, -, h⟩
  · exact (ofBuild_error.mp failed).elim
  · cases h

theorem wireOutputs_error (h : (wireOutputs loop ls).run d = .ok (.error x, e)) : x.Because Late := by
  obtain ⟨ob, -, h⟩ := look_bind_run.mp h
  rcases guard_run h with ⟨-, -, _, same, failed⟩ | ⟨-, h⟩
  · cases same
    exact malformed_because .missingExit failed
  obtain ⟨l, -, u, h⟩ := mapM_error h
  obtain ⟨p, -, h⟩ := look_bind_run.mp h
  rcases guard_run h with ⟨-, -, _, same, failed⟩ | ⟨-, h⟩
  · cases same
    exact malformed_because (.outsideCompletion _) failed
  obtain ⟨_, -, h⟩ := look_bind_run.mp h
  exact (ofBuild_error.mp h).elim

theorem exitsOf_done {lp : Operation} (h : (exitsOf d lp).run = .ok (.ok exits)) :
  d.exitOf lp.body .done ≠ .ok absent := by
  obtain ⟨feedback, -, h⟩ := query_bind_ok.mp h
  obtain ⟨completion, hc, h⟩ := query_bind_ok.mp h
  obtain ⟨input, -, h⟩ := query_bind_ok.mp h
  dsimp only at h
  intro missing
  cases missing.symm.trans (query_lift_ok.mp hc)
  split at h
  · exact (reject_ok.mp (query_bind_ok.mp h).choose_spec.1).elim
  · exact (reject_ok.mp (query_bind_ok.mp h).choose_spec.1).elim

theorem not_early {lp : Operation} (hl : d.op loop = .ok lp) (there : d.exitOf lp.body .done ≠ .ok absent)
  (late : Late reason) :
    ¬ Early d loop reason := by
  intro early
  cases late with
  | missingExit =>
    cases early with
    | missingExit op missing =>
      cases hl.symm.trans op
      exact there missing
  | _ => cases early

theorem wire_error (h : (wire loop feeds).run d = .ok (.error x, e)) :
    x.Because (Early d loop) ∧ e = d ∨ x.Because fun reason => Late reason ∧ ¬ Early d loop reason := by
  obtain ⟨lp, hl, h⟩ := look_bind_run.mp h
  rcases guard_run h with ⟨-, same, _, hx, failed⟩ | ⟨-, h⟩
  · cases hx
    exact .inl ⟨malformed_because .notLoop failed, same⟩
  obtain ⟨bd, -, h⟩ := look_bind_run.mp h
  rcases passQuery_bind_run.mp h with ⟨_, failed, hx, same⟩ | ⟨exits, hexits, h⟩
  · cases hx
    exact .inl ⟨(rejects_exitsOf hl).run failed, same⟩
  rcases passQuery_bind_run.mp h with ⟨_, failed, hx, same⟩ | ⟨classes, -, h⟩
  · cases hx
    exact .inl ⟨(Rejects.closed.foldlM (fun _ _ => rejects_classify) ..).run failed, same⟩
  rcases step_bind_run.mp h with ⟨_, failed, hx⟩ | ⟨made, u, -, h⟩
  · cases hx
    obtain ⟨inner, rfl, rejected⟩ := within_error failed
    obtain ⟨because, same⟩ := wireBody_error rejected
    exact .inl ⟨because, same⟩
  right
  have late : x.Because Late := by
    rcases step_bind_run.mp h with ⟨_, failed, hx⟩ | ⟨ids, v, -, h⟩
    · cases hx
      exact wireOutputs_error failed
    rcases passQuery_bind_run.mp h with ⟨_, failed, hx, -⟩ | ⟨_, -, h⟩
    · cases hx
      exact rejects_checkComplete.run failed
    · cases h
  obtain ⟨site, reason, cause, late⟩ := late
  exact ⟨site, reason, cause, late, not_early hl (exitsOf_done hexits) late⟩

/-- An error for one of the early reasons leaves the design as it was. Any other error comes after the values for
the body were wired: the results lead out of the loop, the loop has no exit for them, or a port of the body does not
have one driver in both entries. Then elements have been appended, and what was there is as it was. -/
theorem wiring_error_effects {feeds : List Feed} {x : Error} (h : (wire loop feeds).run d = .ok (.error x, e)) :
    ∃ site reason, x.cause = .malformed site reason ∧ (Early d loop reason → e = d) ∧
      (¬ Early d loop reason → Late reason ∧ Appends d e) := by
  rcases wire_error h with ⟨⟨site, reason, cause, early⟩, same⟩ | ⟨site, reason, cause, late, notEarly⟩
  · exact ⟨site, reason, cause, fun _ => same, fun no => (no early).elim⟩
  · exact ⟨site, reason, cause, fun early => (notEarly early).elim, fun _ => ⟨late, appends_wire.run h (.refl d)⟩⟩

def bodySite : Site := ⟨⟨"l.body", .whileBody, 3⟩, [⟨"l", .loop, 0⟩]⟩

/-- The value of port 6 is fed back and has no initial value, which is found late. That port 2 lies outside the body
is found early, though its feed comes last. -/
theorem feedback_without_start_rejected : ∃ d e, newLoop (-1) "l" 1 1 .zero { name := "x" } = .ok (0, d) ∧
    (wire 0 [⟨7, 6⟩]).run d = .ok (.error (.malformed (some bodySite) (.noInitialValue "d0")), e) ∧ Appends d e ∧
    d.ops.size < e.ops.size ∧
    (wire 0 [⟨1, 6⟩, ⟨7, 6⟩, ⟨1, 2⟩]).run d =
        .ok (.error (.within "loop l" (.malformed (some bodySite) (.outsideBody "go"))), d) := by
  obtain ⟨_, d, made, rfl, ⟨_, e, late, rfl, more⟩, _, f, early, rfl⟩ :
      ∃ id d, newLoop (-1) "l" 1 1 .zero { name := "x" } = .ok (id, d) ∧ id = 0 ∧
      (∃ r e, (wire 0 [⟨7, 6⟩]).run d = .ok (.error r, e) ∧ r = .malformed (some bodySite) (.noInitialValue "d0") ∧
        d.ops.size < e.ops.size) ∧
      ∃ r f, (wire 0 [⟨1, 6⟩, ⟨7, 6⟩, ⟨1, 2⟩]).run d = .ok (.error r, f) ∧
        r = .within "loop l" (.malformed (some bodySite) (.outsideBody "go")) := by
    decide +kernel
  obtain ⟨_, _, cause, -, appends⟩ := wiring_error_effects late
  cases cause
  obtain ⟨_, _, cause, same, -⟩ := wiring_error_effects early
  cases cause
  cases same (.outsideBody _)
  exact ⟨d, e, made, late, (appends nofun).2, more, early⟩

end Loop

end Datapath
