import Datapath.Proofs.FlopWalks
import Datapath.Proofs.Commands

/-!
# Stopping at the first conflict

An analysis of a loop body that stops at its first conflict says as much about the registers as one
that goes on to the end. So removing registers with it is the same as removing them only from loops
without conflicts, whatever the policy.
-/

namespace Datapath.Loop

variable {d : Design}

/-! ## Two walks side by side -/

def Begins (key : Key) (c : Conflict) (f : Found) : Prop := ∃ cs rest, f.conflicts = (key, c :: cs) :: rest

inductive Cut {α : Type} : Except Stop α × Found → Except Stop α × Found → Prop where
  | same {r : Except Stop α} {f : Found} (clean : f.conflicts = []) : Cut (r, f) (r, f)
  | stopped {r : Except Stop α} {f g : Found} {key : Key} {c : Conflict} {why : Cause}
      (short : f.conflicts = [(key, [c])]) (full : Begins key c g) : Cut (.error (.conflict why), f) (r, g)

structure Cuts {α : Type} (p q : FlopWalk α) : Prop where
  clean : ∀ {f x y}, f.conflicts = [] → p.run f = .ok x → q.run f = .ok y → Cut x y
  begun : ∀ {key c f r g}, Begins key c f → q.run f = .ok (r, g) → Begins key c g

section
variable {α β : Type}

theorem Still.cuts {p : FlopWalk α} (h : Still p) : Cuts p p where
  clean := by
    intro f x y clean hx hy
    cases hx.symm.trans hy
    cases h.run hx
    exact .same clean
  begun := by
    intro key c f r g begun hr
    cases h.run hr
    exact begun

theorem Cuts.bind {p q : FlopWalk α} {l : α → FlopWalk β} (hp : Cuts p q) (hk : ∀ a, Cuts (k a) (l a)) :
    Cuts (p >>= k) (q >>= l) where
  clean := by
    rintro f ⟨r, g⟩ ⟨s, h⟩ clean hr hs
    rcases step_bind_run.mp hr with ⟨e, hx, rfl⟩ | ⟨a, u, hx, hx'⟩
    · rcases step_bind_run.mp hs with ⟨e', hy, rfl⟩ | ⟨b, v, hy, hy'⟩
      · cases hp.clean clean hx hy with
        | same clean => exact .same clean
        | stopped short full => exact .stopped short full
      · cases hp.clean clean hx hy with
        | stopped short full => exact .stopped short ((hk b).begun full hy')
    · rcases step_bind_run.mp hs with ⟨e', hy, rfl⟩ | ⟨b, v, hy, hy'⟩
      · cases hp.clean clean hx hy
      · cases hp.clean clean hx hy with
        | same clean => exact (hk a).clean clean hx' hy'
  begun := by
    intro key c f r g begun hr
    rcases step_bind_run.mp hr with ⟨e, hx, -⟩ | ⟨a, u, hx, hx'⟩
    · exact hp.begun begun hx
    · exact (hk a).begun (hp.begun begun hx) hx'

theorem Cuts.forM {k l : α → FlopWalk PUnit} (h : ∀ a, Cuts (k a) (l a)) (as : List α) :
    Cuts (as.forM k) (as.forM l) := by
  induction as with
  | nil => exact (still_closed.pure _).cuts
  | cons a as ih => exact (h a).bind fun _ => ih

theorem Cuts.modify {g : Found → Found} (hg : ∀ f, (g f).conflicts = f.conflicts) :
    Cuts (modify g : FlopWalk PUnit) (modify g) where
  clean := by
    rintro f ⟨r, u⟩ ⟨s, v⟩ clean hx hy
    cases hx.symm.trans hy
    obtain ⟨-, rfl⟩ := step_modify_run.mp hx
    exact .same ((hg f).trans clean)
  begun := by
    intro key c f r u begun hr
    obtain ⟨-, rfl⟩ := step_modify_run.mp hr
    rwa [Begins, hg f]

end

/-! ## The walk over a loop body -/

theorem Begins.addConflict (h : Begins key c f) :
    Begins key c { f with conflicts := addConflict f.conflicts key' c' } := by
  obtain ⟨cs, rest, e⟩ := h
  simp only [e, Loop.addConflict]
  split
  · by_cases same : key = key'
    · exact ⟨cs ++ [c'], _, by simp [same]; rfl⟩
    · exact ⟨cs, _, by simp [same]; rfl⟩
  · exact ⟨cs, rest ++ [(key', [c'])], rfl⟩

section
variable {visit visit' : FlopVisit}

def Found.collided (f : Found) (head tail : Sighting) : Found :=
  { f with conflicts := addConflict f.conflicts head.key ⟨head.access, head.path, tail.access, tail.path⟩ }

theorem collide_stops (h : (collide d true head tail).run f = .ok (r, g)) :
    (∃ why, r = .error (.conflict why)) ∧ g = f.collided head tail := by
  rcases step_bind_run.mp h with ⟨e, h, -⟩ | ⟨_, u, h, h'⟩
  · cases (step_modify_run.mp h).1
  obtain ⟨-, rfl⟩ := step_modify_run.mp h
  rw [if_pos rfl] at h'
  simp only [step_bind_run, step_lift_run] at h'
  obtain ⟨e, ⟨_, _, e', -⟩, -⟩ | ⟨l, _, ⟨_, -, -, rfl⟩, h'⟩ := h'
  · cases e'
  obtain ⟨e, ⟨_, _, e', -⟩, -⟩ | ⟨l', _, ⟨_, -, -, rfl⟩, rfl, rfl⟩ := h'
  · cases e'
  exact ⟨⟨_, rfl⟩, rfl⟩

theorem collide_cuts (head tail : Sighting) : Cuts (collide d true head tail) (collide d false head tail) where
  clean := by
    rintro f ⟨r, g⟩ ⟨s, h⟩ clean hr hs
    obtain ⟨⟨why, rfl⟩, rfl⟩ := collide_stops hr
    obtain rfl : h = f.collided head tail := congrArg Prod.snd (Except.ok.inj hs).symm
    have only : (f.collided head tail).conflicts =
        [(head.key, [⟨head.access, head.path, tail.access, tail.path⟩])] := by
      rw [Found.collided, clean]
      rfl
    exact .stopped only ⟨[], [], only⟩
  begun := by
    intro key c f r g begun hr
    obtain rfl : g = f.collided head tail := congrArg Prod.snd (Except.ok.inj hr).symm
    exact begun.addConflict

theorem meet_cuts (s : Sighting) : Cuts (meet d true s) (meet d false s) := by
  apply Cuts.bind
  · exact Still.cuts ⟨fun h => by cases h; rfl⟩
  intro f
  apply Cuts.bind
  · apply Cuts.forM
    intro v
    split
    · exact collide_cuts ..
    split
    · exact collide_cuts ..
    · exact (still_closed.pure _).cuts
  · exact fun _ => .modify fun _ => rfl

theorem mark_cuts (c : OpId) (key : Key) (early late start : Latency) (path : List OpId) :
    Cuts (mark d t true c key early late start path) (mark d t false c key early late start path) := by
  apply Cuts.bind (still_reading.isLast ..).cuts
  intro last
  dsimp only
  split
  · exact (still_closed.pure _).cuts
  split
  · exact (collide_cuts ..).bind fun _ => meet_cuts _
  · exact meet_cuts _

section
variable (hv : ∀ c start path, Cuts (visit c start path) (visit' c start path))
include hv

theorem dive_cuts (c : OpId) (start : Latency)
    (path : List OpId) : Cuts (dive d t visit c start path) (dive d t visit' c start path) := by
  apply Cuts.bind (Still.lift _).cuts
  intro m
  apply Cuts.bind (Still.lift _).cuts
  intro deps
  split
  · exact (still_closed.pure _).cuts
  · apply Cuts.bind (still_reading.inputAt _).cuts
    exact fun _ => .forM (fun _ => hv ..) _

theorem component_cuts (c : OpId) (start : Latency) (path : List OpId) :
    Cuts (flopComponent d t true visit c start path) (flopComponent d t false visit' c start path) := by
  apply Cuts.bind (Still.lift _).cuts
  intro o
  -- a read or a write of a memory ends when it starts
  have atOnce : Cuts (inputAt d t c >>= fun l => mark d t true c (.resource o.resource) l l start path)
      (inputAt d t c >>= fun l => mark d t false c (.resource o.resource) l l start path) :=
    (still_reading.inputAt c).cuts.bind fun _ => mark_cuts ..
  have spanning : ∀ key, Cuts
      (inputAt d t c >>= fun early => doneAt d t c >>= fun late => mark d t true c key early late start path)
      (inputAt d t c >>= fun early => doneAt d t c >>= fun late => mark d t false c key early late start path) :=
    fun _ => (still_reading.inputAt c).cuts.bind fun _ => (still_reading.doneAt c).cuts.bind fun _ => mark_cuts ..
  have stop : ∀ k : Option Label → Stop, Still (liftM (d.label c) >>= fun l => throw (k l) : FlopWalk Unit) :=
    fun _ => still_closed.bind (.lift _) fun _ => .throw _
  split
  iterate 2 exact atOnce
  iterate 4 exact spanning _
  iterate 2 exact (still_closed.pure _).cuts
  · apply (still_reading.inputAt c).cuts.bind
    intro early
    apply (still_reading.doneAt c).cuts.bind
    intro late
    exact (mark_cuts ..).bind fun _ => dive_cuts hv ..
  · exact (stop fun l => .notAnalyzable (.taskCall l)).cuts
  · split
    · exact dive_cuts hv ..
    split
    · exact (stop fun l => .notAnalyzable (.unexpected l)).cuts
    · exact (still_closed.pure _).cuts

end

theorem visit_cuts (n : Nat) (c : OpId) (start : Latency) (path : List OpId) :
    Cuts (flopVisit d t true n c start path) (flopVisit d t false n c start path) := by
  induction n generalizing c start path with
  | zero => exact ⟨fun _ h _ => (nomatch h), fun _ h => (nomatch h)⟩
  | succ n ih => exact component_cuts ih c start path

end

/-! ## Reports -/

/-- What the report of an analysis that stops at its first conflict has in common with the report of
one that goes on. -/
structure FlopReport.CutOf (r s : FlopReport) : Prop where
  needed : r.needed = s.needed
  removable : r.removable = s.removable
  all : r.all = s.all.take 1

theorem reportOf_needed (body : OpId) (f : Found) (r : Except Stop PUnit) : (reportOf body f r).needed = false := by
  unfold reportOf
  split <;> rfl

theorem reportOf_conflicts (body : OpId) (f : Found) (r : Except Stop PUnit) :
    (reportOf body f r).conflicts = f.conflicts := by
  unfold reportOf
  split <;> rfl

theorem Cut.reports (h : Cut (r, f) (s, g)) (body : OpId) : (reportOf body f r).CutOf (reportOf body g s) := by
  have kept : ∀ {f : Found} {r}, f.conflicts ≠ [] → (reportOf body f r).removable = false := by
    intro f r ne
    have : (reportOf body f r).conflicts.isEmpty = false := by simpa [reportOf_conflicts] using ne
    simp [FlopReport.removable, this]
  cases h with
  | same clean =>
    have none : (reportOf body f r).all = [] := by rw [FlopReport.all, reportOf_conflicts, clean]; rfl
    exact ⟨rfl, rfl, by rw [none]; rfl⟩
  | stopped short full =>
    obtain ⟨cs, rest, full⟩ := full
    refine ⟨by rw [reportOf_needed, reportOf_needed], ?_, ?_⟩
    · rw [kept (by simp [short]), kept (by simp [full])]
    · rw [FlopReport.all, FlopReport.all, reportOf_conflicts, reportOf_conflicts, short, full]
      rfl

theorem analyze_agree (hd : WellFormed d) (body : OpId) :
    Agree FlopReport.CutOf (analyze d body true).run (analyze d body false).run := by
  apply Agree.ask
  intro bd _
  dsimp only
  split
  · exact Agree.ask fun a h => (reject_ok.mp h).elim
  apply Agree.ask
  intro block hblock
  split
  · cases h : (d.reject bd.body (.missingExit .done) : Query FlopReport).run with
    | error f => exact .fault f
    | ok r =>
      cases r with
      | error e => exact .error e
      | ok a => exact (reject_ok.mp h).elim
  split
  · exact .answer ⟨rfl, rfl, rfl⟩
  apply Agree.ask
  rintro ⟨timed, t⟩ _
  split
  · exact .error _
  -- the two walks over the block
  have hblock := op_ok (query_lift_ok.mp hblock)
  have none : Named d t {} := ⟨nofun, nofun⟩
  obtain ⟨r, f, short, -⟩ := walk_responds hd hblock t true none
  obtain ⟨s, g, full, -⟩ := walk_responds hd hblock t false none
  have cut : Cut (r, f) (s, g) := (Cuts.forM (fun c => visit_cuts ..) _).clean rfl short full
  refine .of_answers ?_ ?_ (cut.reports body)
  · exact query_bind_ok.mpr ⟨_, query_lift_ok.mpr short, rfl⟩
  · exact query_bind_ok.mpr ⟨_, query_lift_ok.mpr full, rfl⟩

/-! ## Removal -/

section
variable {α β : Type}

theorem bind_run_congr {p q : Pass α} {f g : α → Pass β} (hp : p.run d = q.run d)
    (hf : ∀ a d', p.run d = .ok (.ok a, d') → (f a).run d' = (g a).run d') : (p >>= f).run d = (q >>= g).run d := by
  have run : ∀ (p : Pass α) (f : α → Pass β),
      (p >>= f).run d = p.run d >>= fun x => ExceptT.bindCont f x.1 x.2 := fun _ _ => rfl
  rw [run, run, ← hp]
  cases h : p.run d with
  | error e => rfl
  | ok x =>
    obtain ⟨e | a, d'⟩ := x
    · rfl
    · exact hf a d' h

theorem foldlM_run_congr {P : Design → Prop} {f g : β → α → Pass β}
    (same : ∀ {d} b a, P d → (f b a).run d = (g b a).run d)
    (keeps : ∀ {d b a r d'}, P d → (f b a).run d = .ok (r, d') → P d') (hd : P d) (as : List α) (b : β) :
    (as.foldlM f b).run d = (as.foldlM g b).run d := by
  induction as generalizing d b with
  | nil => rfl
  | cons a as ih => exact bind_run_congr (same b a hd) fun b' d' h => ih (keeps hd h) b'

theorem query_run_congr {q q' : Design → Query α} {f g : α → Pass β} {R : α → α → Prop}
    (hq : Agree R (q d).run (q' d).run) (hf : ∀ {a b}, R a b → (f a).run d = (g b).run d) :
    (Pass.query q >>= f).run d = (Pass.query q' >>= g).run d := by
  have run : ∀ (q : Design → Query α) (f : α → Pass β),
      (Pass.query q >>= f).run d = (q d).run >>= fun x => ExceptT.bindCont f x d := by
    intro q f
    show ((q d).run >>= fun x => pure (x, d)) >>= (fun x => ExceptT.bindCont f x.1 x.2) = _
    cases (q d).run <;> rfl
  rw [run, run]
  revert hq
  generalize (q d).run = x, (q' d).run = y
  intro hq
  cases hq with
  | answer h => exact hf h
  | error e => rfl
  | fault f => rfl

end

section
variable {o o' : Options} (hd : WellFormed d) (ho : o.failFast = true) (ho' : o'.failFast = false)
  (hp : o'.policy = .fixNone)
include hd ho ho' hp

theorem removeFrom_congr (l : OpId) : (removeFrom o l).run d = (removeFrom o' l).run d := by
  apply bind_run_congr rfl
  intro lp d' h
  obtain ⟨-, rfl⟩ := look_ok.mp h
  apply query_run_congr (R := FlopReport.CutOf)
  · rw [ho, ho']
    exact analyze_agree hd lp.body
  · intro r s cut
    rw [decideOn_eq (.inl ho), decideOn_eq (.inr hp), cut.removable]

theorem removeNext_congr (r : Removal) (l : OpId) : (removeNext o r l).run d = (removeNext o' r l).run d := by
  apply bind_run_congr rfl
  intro carries d' h
  obtain ⟨-, rfl⟩ := look_ok.mp h
  split
  · exact bind_run_congr (removeFrom_congr hd ho ho' hp l) fun _ _ _ => rfl
  · rfl

end

theorem removeFlops_congr (hd : WellFormed d) (ho : o.failFast = true) (ho' : o'.failFast = false)
    (hp : o'.policy = .fixNone) (hr : o.removeFlop = o'.removeFlop) :
    (removeFlops o).run d = (removeFlops o').run d := by
  unfold removeFlops
  rw [hr]
  split
  · rfl
  apply bind_run_congr rfl
  rintro _ _ h
  cases h
  apply foldlM_run_congr (P := WellFormed) (fun r l h => removeNext_congr h ho ho' hp r l) _ hd
  intro e r l x e' he h
  exact (((Thrives.bypasses 0).removeNext o r l).keeps.run he (by omega) h).1

/-- An analysis that stops at its first conflict fails, needs the registers and lets them go just as the
full one does, and names the first of its conflicts. With it, registers are removed as they are with a
full analysis that resolves no conflict. -/
theorem failFast_agrees (hd : WellFormed d) :
    (∀ body, Agree FlopReport.CutOf (analyze d body true).run (analyze d body false).run) ∧
    ∀ (o : Options) (policy : Policy), (removeFlops { o with policy, failFast := true }).run d =
      (removeFlops { o with policy := .fixNone, failFast := false }).run d :=
  ⟨analyze_agree hd, fun _ _ => removeFlops_congr hd rfl rfl rfl rfl⟩

def collidingCommands : List Command :=
  [.newResource .memory "x" false, .newResource .memory "y" false, .newLoop absent "l" 0 0 .zero,
   .setLatency 11 .one, .newAccess .memoryRead 11 "a" 0 .zero, .newAccess .memoryRead 11 "b" 1 .zero,
   .newPrimitive .op 11 "p" 0 0 .one, .newAccess .memoryRead 11 "c" 0 .zero, .newAccess .memoryRead 11 "e" 1 .zero,
   .start 18 17, .start 19 17, .finish 11 .done 17, .newTask "t" 0 0 .zero false, .newTaskCall 11 "u" 0]

/-- The full analysis finds both collisions and gives up at the call; the other one stops before it. -/
theorem collisions_failFast_agree : ∃ d r s, runAll collidingCommands { name := "x" } = some d ∧
    (analyze d 3 true).run = .ok (.ok r) ∧ (analyze d 3 false).run = .ok (.ok s) ∧
    r.all = [⟨15, [11], 18, [11]⟩] ∧ s.all = [⟨15, [11], 18, [11]⟩, ⟨16, [11], 19, [11]⟩] ∧
    (r.analyzable, s.analyzable) = (true, false) ∧ r.CutOf s ∧
    (removeFlops { policy := .firstAlways, failFast := true }).run d =
      (removeFlops { policy := .fixNone, failFast := false }).run d := by
  obtain ⟨d, hd, r, hr, s, hs, first, both, analyzable, unanalyzable⟩ :
      ∃ d, runAll collidingCommands { name := "x" } = some d ∧ ∃ r, (analyze d 3 true).run = .ok (.ok r) ∧
      ∃ s, (analyze d 3 false).run = .ok (.ok s) ∧ r.all = [⟨15, [11], 18, [11]⟩] ∧
      s.all = [⟨15, [11], 18, [11]⟩, ⟨16, [11], 19, [11]⟩] ∧ r.analyzable = true ∧ s.analyzable = false := by
    decide +kernel
  have ⟨agree, same⟩ := failFast_agrees ((Built.empty "x").runAll hd).wellFormed
  have cut := agree 3
  rw [hr, hs] at cut
  cases cut with
  | answer cut =>
    exact ⟨d, r, s, hd, hr, hs, first, both, by rw [analyzable, unanalyzable], cut, same {} .firstAlways⟩

end Datapath.Loop
