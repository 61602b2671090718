import Datapath.Proofs.Balancing
import Datapath.Proofs.Sturdy
import Mathlib.Data.Prod.Lex
import Mathlib.Order.Lattice.Nat

/-!
# The walks through tasks end

Balancing and identifying regions go from an operation to what it owns, through the sides of a branch, and
from a task call to what the body of the task owns. Where no task calls itself, even through others, each such
step goes down: fewer calls are nested in the operation it leads to, or as many and it owns less deeply.
-/

namespace Datapath

open List
open Relation (TransGen ReflTransGen)

/-! ## Longest chains -/

section
variable {α : Type} {r : α → α → Prop} {x y : α}

/-- So many steps can be taken in a row. -/
def CanStep (r : α → α → Prop) : Nat → α → Prop
  | 0, _ => True
  | n + 1, x => ∃ y, r x y ∧ CanStep r n y

noncomputable def longest (r : α → α → Prop) (x : α) : Nat := sSup {n | CanStep r n x}

variable {f : α → Nat} (lower : ∀ x y, r x y → f y < f x)
include lower

theorem CanStep.le (h : CanStep r n x) : n ≤ f x := by
  induction n generalizing x with
  | zero => exact Nat.zero_le _
  | succ n ih =>
    obtain ⟨y, step, h⟩ := h
    exact Nat.lt_of_le_of_lt (ih h) (lower _ _ step)

theorem CanStep.le_longest (h : CanStep r n x) : n ≤ longest r x := le_csSup ⟨f x, fun _ h => h.le lower⟩ h

theorem canStep_longest (x : α) : CanStep r (longest r x) x :=
  Nat.sSup_mem (s := {n | CanStep r n x}) ⟨0, trivial⟩ ⟨f x, fun _ h => CanStep.le lower h⟩

theorem longest_lt (step : r x y) : longest r y < longest r x :=
  CanStep.le_longest lower (n := longest r y + 1) ⟨y, step, canStep_longest lower y⟩

end

/-! ## Depth and height -/

variable {d : Design}

/-- An operation owns another. What is absent counts as below all operations. -/
def Below (d : Design) (x y : OpId) : Prop := ∃ o, d.op? x = some o ∧ (y ∈ o.children ∨ y = absent)

/-- The operation is a task call of the block, or one is nested in it. -/
def CallsInto (d : Design) (x b : OpId) : Prop :=
  ∃ c o, ReflTransGen (Below d) x c ∧ d.op? c = some o ∧ o.kind = .taskCall ∧ o.body = b ∧ b ≠ absent

def Task.Runs (d : Design) (t : Task) (b : OpId) : Prop := t ∈ d.tasks ∧ ∃ o, d.op? t.call = some o ∧ o.body = b

/-- A task call that is nested in the body of the first task has the body of the second. -/
def Task.Calls (d : Design) (s t : Task) : Prop := ∃ x b, s.Runs d x ∧ t.Runs d b ∧ CallsInto d x b

/-- How many calls of tasks lead from one to the next at most, the first of them in the operation. -/
noncomputable def Design.depth (d : Design) : OpId → Nat := longest (CallsInto d)

/-- How many operations own one the next at most, below this one. -/
noncomputable def Design.height (d : Design) : OpId → Nat := longest (Below d)

noncomputable def Design.extent (d : Design) (x : OpId) : Nat ×ₗ Nat := toLex (d.depth x, d.height x)

/-- A walk may visit the second operation from the first: it is below it, or below the body that it calls. -/
def Turns (d : Design) (x y : OpId) : Prop :=
  Below d x y ∨ ∃ o, d.op? x = some o ∧ o.kind = .taskCall ∧ Below d o.body y

theorem Turns.op (h : Turns d x y) : ∃ o, d.op? x = some o := by
  obtain ⟨o, ho, -⟩ | ⟨o, ho, -⟩ := h
  · exact ⟨o, ho⟩
  · exact ⟨o, ho⟩

theorem CallsInto.op (h : CallsInto d x b) : ∃ o, d.op? x = some o := by
  obtain ⟨c, o, path, ho, -⟩ := h
  rcases path.cases_head with rfl | ⟨_, ⟨o, ho, -⟩, -⟩
  · exact ⟨o, ho⟩
  · exact ⟨o, ho⟩

theorem CallsInto.above (h : CallsInto d y b) (step : Below d x y) : CallsInto d x b := by
  obtain ⟨c, o, path, rest⟩ := h
  exact ⟨c, o, path.head step, rest⟩

theorem below_lt (hd : WellFormed d) (path : TransGen (Below d) x y) : y = absent ∨ x < y := by
  have step : ∀ {x y}, Below d x y → y = absent ∨ x < y := by
    rintro x y ⟨o, ho, hy | rfl⟩
    · obtain ⟨k, hk, rfl⟩ := hd.child ho hy
      exact .inr (hd.nesting.older hk)
    · exact .inl rfl
  induction path with
  | single h => exact step h
  | tail _ h ih =>
    obtain ⟨o, ho, -⟩ := id h
    exact (step h).imp_right (Int.lt_trans (ih.resolve_left (ne_absent ho)))

theorem below_height_lt (hd : WellFormed d) (h : Below d x y) : d.height y < d.height x := by
  refine longest_lt (f := d.reach (Below d)) ?_ h
  rintro x y ⟨o, ho, hy⟩
  refine reach_lt ho (fun path => ?_) (.single ⟨o, ho, hy⟩)
  exact (below_lt hd path).elim (ne_absent ho) (Int.lt_irrefl x)

/-! ## Tasks that do not call themselves -/

section
variable (hs : Shaped d)
include hs

theorem CallsInto.task (h : CallsInto d x b) : ∃ t : Task, t.Runs d b := by
  obtain ⟨c, o, -, ho, call, rfl, ne⟩ := h
  obtain ⟨i, _, _, task, stem, body⟩ := (hs.ops (view_of _ ho)).calls call ne
  obtain ⟨t, ht, rfl⟩ := view_some.mp task
  obtain ⟨k, hk, rfl⟩ := view_some.mp stem
  exact ⟨t, mem_of_at? ht, k, hk, body⟩

theorem calls_path (path : TransGen (CallsInto d) x y) (hx : s.Runs d x) (hy : t.Runs d y) :
    TransGen (Task.Calls d) s t := by
  induction path generalizing t with
  | single h => exact .single ⟨_, _, hx, hy, h⟩
  | tail path h ih =>
    obtain ⟨_, -, last⟩ := TransGen.tail'_iff.mp path
    obtain ⟨r, hr⟩ := last.task hs
    exact .tail (ih hr) ⟨_, _, hr, hy, h⟩

variable (acyclic : ∀ t, ¬ TransGen (Task.Calls d) t t)
include acyclic

theorem calls_reach_lt (x b : OpId) (h : CallsInto d x b) : d.reach (CallsInto d) b < d.reach (CallsInto d) x := by
  obtain ⟨o, ho⟩ := h.op
  refine reach_lt ho (fun path => ?_) (.single h)
  obtain ⟨_, -, last⟩ := TransGen.tail'_iff.mp path
  obtain ⟨t, ht⟩ := last.task hs
  exact acyclic t (calls_path hs path ht ht)

theorem below_depth_le (h : Below d x y) : d.depth y ≤ d.depth x := by
  have lower := calls_reach_lt hs acyclic
  refine CanStep.le_longest lower ?_
  have steps : CanStep (CallsInto d) (d.depth y) y := canStep_longest lower y
  match d.depth y, steps with
  | 0, _ => trivial
  | n + 1, ⟨b, calls, rest⟩ => exact ⟨b, calls.above h, rest⟩

theorem turns_extent_lt (hd : WellFormed d) (path : TransGen (Turns d) x y) : d.extent y < d.extent x := by
  have step : ∀ {x y}, Turns d x y → d.extent y < d.extent x := by
    intro x y h
    rw [Design.extent, Design.extent, Prod.Lex.toLex_lt_toLex]
    obtain below | ⟨o, ho, call, below⟩ := h
    · have depth := below_depth_le hs acyclic below
      have height := below_height_lt hd below
      omega
    · obtain ⟨b, hb, -⟩ := id below
      have called : d.depth o.body < d.depth x :=
        longest_lt (f := d.reach (CallsInto d)) (calls_reach_lt hs acyclic) ⟨x, o, .refl, ho, call, rfl,
          ne_absent hb⟩
      exact .inl (Nat.lt_of_le_of_lt (below_depth_le hs acyclic below) called)
  induction path with
  | single h => exact step h
  | tail _ h ih => exact lt_trans (step h) ih

theorem turns_reach_lt (hd : WellFormed d) (path : TransGen (Turns d) x y) :
    d.reach (Turns d) y < d.reach (Turns d) x := by
  obtain ⟨_, h, -⟩ := TransGen.head'_iff.mp path
  obtain ⟨o, ho⟩ := h.op
  exact reach_lt ho (fun again => lt_irrefl _ (turns_extent_lt hs acyclic hd again)) path

end

/-- Of a branch, also one without sides, the decision and the sides are below it. -/
theorem below_branch (hd : WellFormed d) (hs : Shaped d) (ho : d.op? x = some o) (hk : o.kind = .branch) :
    ∀ y ∈ [o.decision, o.trueSide, o.falseSide], Below d x y := by
  have child : ∀ {y kind}, d.place? y = some (kind, x) → Below d x y := fun place => by
    obtain ⟨_, -, mem⟩ := hd.placed_child ho place
    exact ⟨o, ho, .inl mem⟩
  have gone : ∀ {y}, y = absent → Below d x y := fun gone => ⟨o, ho, .inr gone⟩
  simp only [forall_mem_cons, not_mem_nil, false_implies, implies_true, and_true]
  rcases (hs.ops (view_of _ ho)).forks hk with ⟨h1, h2, h3⟩ | forks
  · exact ⟨gone h1, gone h2, gone h3⟩
  · exact ⟨child forks.decision, child forks.trueSide, child forks.falseSide⟩

/-! ## Balancing -/

namespace Branch

section
variable {α β γ : Type} {p q : Walk α} {f g : α → Walk β}

/-- Two walks do the same on each design with the operations of this one, and they keep those. -/
def Agree (d : Design) (p q : Walk α) : Prop := ∀ records e, SameOps d e →
  (p.run records).run e = (q.run records).run e ∧ ∀ r e', (p.run records).run e = .ok (r, e') → SameOps d e'

theorem Agree.of (h : Walks SameOps p) : Agree d p p := fun records _ he =>
  ⟨rfl, fun _ _ run => sameOps_chains.trans he ((h.run records).run run)⟩

theorem Agree.pure (a : α) : Agree d (Pure.pure a : Walk α) (Pure.pure a) := .of (sameOps_chains.walkClosed.pure a)

/-- The second walks may assume an answer that the first gives. -/
theorem Agree.bind (h : Agree d p q) (hf : ∀ a, (∃ records r e e', SameOps d e ∧
    (p.run records).run e = .ok (.ok (a, r), e')) → Agree d (f a) (g a)) : Agree d (p >>= f) (q >>= g) := by
  intro records e he
  obtain ⟨same, kept⟩ := h records e he
  have step {w : Walk α} {k : α → Walk β} : ((w >>= k).run records).run e = ((w.run records).run e >>= fun r =>
      ExceptT.bindCont (fun s => (k s.1).run s.2) r.1 r.2) := rfl
  rw [step, step, ← same]
  cases run : (p.run records).run e with
  | error _ => exact ⟨rfl, nofun⟩
  | ok r =>
    obtain ⟨_ | ⟨a, rs⟩, e'⟩ := r
    · refine ⟨rfl, ?_⟩
      rintro _ _ ⟨⟩
      exact kept _ _ run
    · exact hf a ⟨records, rs, e, e', he, run⟩ rs e' (kept _ _ run)

theorem Agree.mapM {l : List γ} {f g : γ → Walk α} (h : ∀ c ∈ l, Agree d (f c) (g c)) :
    Agree d (l.mapM f) (l.mapM g) := by
  induction l with
  | nil => exact .pure _
  | cons c l ih =>
    rw [mapM_cons, mapM_cons]
    exact (h c mem_cons_self).bind fun _ _ => (ih fun k hk => h k (mem_cons_of_mem _ hk)).bind fun _ _ => .pure _

theorem sameOps_balances : Balances SameOps := { sameOps_chains with depend := sameOps_addDependency }

theorem Agree.look (q : Design → Except Fault α) : Agree d (liftM (Pass.look q) : Walk α) (liftM (Pass.look q)) :=
  .of (sameOps_chains.walk_lift (sameOps_chains.look q))

theorem Agree.read {f g : Operation → Walk α} (h : ∀ o, d.op? x = some o → Agree d (f o) (g o)) :
    Agree d (liftM (Pass.look (·.op x)) >>= f) (liftM (Pass.look (·.op x)) >>= g) := by
  refine (Agree.look _).bind ?_
  rintro o ⟨records, r, e, e', he, run⟩
  have ho := op_ok (look_ok.mp (walk_lift_ok.mp run).1).1
  exact h o (show at? d.ops x = _ by rw [← he.ops]; exact ho)

end

theorem leaving_agree (ls : List Latency) : Agree d (leaving x ls) (leaving x ls) :=
  (Agree.look _).bind fun _ _ => .pure _

theorem children_agree (skip : List OpId) (h : ∀ c, Below d x c → Agree d (v c inLoop) (w c inLoop)) :
    Agree d (children v x inLoop skip) (children w x inLoop skip) :=
  .read fun o ho => .bind (.mapM fun c hc => h c ⟨o, ho, .inl (mem_of_mem_filter hc)⟩) fun _ _ => .pure _

theorem contents_agree (h : ∀ c, Below d x c → Agree d (v c inLoop) (w c inLoop)) :
    Agree d (contents v x inLoop) (contents w x inLoop) := (children_agree [] h).bind fun ls _ => leaving_agree ls

theorem component_agree (hd : WellFormed d) (hs : Shaped d)
    (h : ∀ c, TransGen (Turns d) x c → ∀ inLoop, Agree d (v c inLoop) (w c inLoop)) :
    Agree d (component v x inLoop) (component w x inLoop) := by
  have own : ∀ {inLoop} c, Below d x c → Agree d (v c inLoop) (w c inLoop) := fun c hc => h c (.single (.inl hc)) _
  refine .read fun o ho => ?_
  split
  · exact contents_agree own
  · next hk =>
    unfold branch
    split
    · exact contents_agree own
    refine .read fun o' ho' => ?_
    cases ho.symm.trans ho'
    have below := below_branch hd hs ho hk
    have side : ∀ y ∈ [o.decision, o.trueSide, o.falseSide], Agree d (contents v y true) (contents w y true) :=
      fun y hy =>
      contents_agree fun c hc => h c (.tail (.single (.inl (below y hy))) (.inl hc)) _
    refine (side _ (by simp)).bind fun ts _ => (side _ (by simp)).bind fun fs _ => (children_agree _ own).bind
      fun rest _ => ?_
    have delayed mod : Agree d (liftM (delay mod) : Walk Unit) (liftM (delay mod)) :=
      .of (sameOps_chains.walk_lift (sameOps_balances.delay mod))
    have noted r ls : Agree d (do modify (· ++ [r]); leaving x ls) (do modify (· ++ [r]); leaving x ls) :=
      (Agree.of ⟨fun _ => sameOps_chains.passPure _⟩).bind fun _ _ => leaving_agree ls
    dsimp only
    split
    · exact noted _ _
    all_goals exact (delayed _).bind fun _ _ => noted _ _
  · next hk =>
    refine (children_agree [] own).bind fun ls _ => .read fun o' ho' => ?_
    cases ho.symm.trans ho'
    split
    · exact (Agree.pure _).bind fun _ _ => leaving_agree _
    · refine (contents_agree fun c hc => h c (.single (.inr ⟨o, ho, hk, hc⟩)) _).bind fun _ _ => leaving_agree _
  · split
    · exact contents_agree own
    split
    · exact (Agree.look _).bind fun _ _ => .of (sameOps_chains.walk_lift (sameOps_chains.throw _))
    · exact .look _

theorem levels_agree (hd : WellFormed d) (hs : Shaped d) (acyclic : ∀ t, ¬ TransGen (Task.Calls d) t t)
    (v : Visit) :
    ∀ {x inLoop}, d.reach (Turns d) x < n → Agree d (component^[n] v x inLoop) (visit n x inLoop) := by
  induction n with
  | zero => exact fun h => absurd h (Nat.not_lt_zero _)
  | succ n ih =>
    intro x inLoop room
    rw [Function.iterate_succ_apply']
    refine component_agree hd hs fun c path inLoop => ih ?_
    have := turns_reach_lt hs acyclic hd path
    omega

end Branch

/-! ## Identifying regions -/

namespace Region

theorem query_congr {α β : Type} {q : Query α} {f g : α → Walk β} (h : ∀ a, q.run = .ok (.ok a) → f a = g a) :
    (liftM q >>= f : Walk β) = liftM q >>= g := by
  funext log
  have step {k : α → Walk β} : (liftM q >>= k : Walk β) log = (q >>= fun a => k a log) := by
    change ((q >>= fun a => pure (a, log)) >>= fun p => k p.1 p.2) = _
    rw [bind_assoc]
    rfl
  rw [step, step]
  change (q.run >>= ExceptT.bindCont _) = (q.run >>= ExceptT.bindCont _)
  cases run : q.run with
  | error _ => rfl
  | ok r =>
    cases r with
    | error _ => rfl
    | ok a => exact congrFun (h a run) log

theorem children_congr (h : ∀ c, Below d x c → v c = w c) : children d v x = children d w x := by
  refine query_congr fun ids order => ?_
  obtain ⟨o, ho, perm⟩ := order_ok order
  have each : ∀ c ∈ ids, v c = w c := fun c hc => h c ⟨o, ho, .inl (perm.mem_iff.mp hc)⟩
  clear order perm
  induction ids with
  | nil => rfl
  | cons c ids ih =>
    change (v c >>= fun _ => ids.forM v) = (w c >>= fun _ => ids.forM w)
    rw [each c mem_cons_self, ih fun k hk => each k (mem_cons_of_mem _ hk)]

theorem component_congr (hd : WellFormed d) (hs : Shaped d) (h : ∀ c, TransGen (Turns d) x c → v c = w c) :
    component d v x = component d w x := by
  refine query_congr (q := (liftM (d.op x) : Query Operation)) fun o ho => ?_
  have ho : d.op? x = some o := op_ok (query_lift_ok.mp ho)
  split
  · rfl
  · next hk =>
    have below := below_branch hd hs ho hk
    have side : ∀ y ∈ [o.decision, o.trueSide, o.falseSide], children d v y = children d w y := fun y hy =>
      children_congr fun c hc => h c (.tail (.single (.inl (below y hy))) (.inl hc))
    unfold branch
    rw [h o.decision (.single (.inl (below _ (by simp)))), side o.trueSide (by simp), side o.falseSide (by simp)]
  · next hk =>
    unfold taskCall
    rw [children_congr fun c hc => h c (.single (.inr ⟨o, ho, hk, hc⟩))]
  · rw [children_congr fun c hc => h c (.single (.inl hc))]

theorem levels_congr (hd : WellFormed d) (hs : Shaped d) (acyclic : ∀ t, ¬ TransGen (Task.Calls d) t t)
    (v : Visit) : ∀ {x}, d.reach (Turns d) x < n → (component d)^[n] v x = visit d n x := by
  induction n with
  | zero => exact fun h => absurd h (Nat.not_lt_zero _)
  | succ n ih =>
    intro x room
    rw [Function.iterate_succ_apply']
    refine component_congr hd hs fun c path => ih ?_
    have := turns_reach_lt hs acyclic hd path
    omega

end Region

/-- What the walks do at an operation rests on what they do at operations of a smaller extent only. They do not
go through more levels than there are operations, whatever would be done below those. -/
theorem walks_descend (hd : WellFormed d) (hs : Shaped d) (acyclic : ∀ t, ¬ TransGen (Task.Calls d) t t) :
    (∀ x v w inLoop, (∀ c, d.extent c < d.extent x → ∀ inLoop, Branch.Agree d (v c inLoop) (w c inLoop)) →
      Branch.Agree d (Branch.component v x inLoop) (Branch.component w x inLoop)) ∧
    (∀ x v w, (∀ c, d.extent c < d.extent x → v c = w c) → Region.component d v x = Region.component d w x) ∧
    ∀ task ∈ d.tasks, ∀ n, d.ops.size < n →
      (∀ v inLoop, Branch.Agree d (Branch.component^[n] v task.call inLoop) (Branch.visit n task.call inLoop)) ∧
      ∀ v, Region.children d ((Region.component d)^[n] v) task.call = Region.children d (Region.visit d n)
          task.call := by
  have lower : ∀ {x y}, TransGen (Turns d) x y → d.extent y < d.extent x := turns_extent_lt hs acyclic hd
  refine ⟨fun x v w inLoop h => Branch.component_agree hd hs fun c path => h c (lower path),
    fun x v w h => Region.component_congr hd hs fun c path => h c (lower path), fun task _ n room => ?_⟩
  have top := reach_le d (Turns d) task.call
  refine ⟨fun v inLoop => Branch.levels_agree hd hs acyclic v (by omega), fun v => Region.children_congr fun c hc =>
    ?_⟩
  have := turns_reach_lt hs acyclic hd (.single (.inl hc))
  exact Region.levels_congr hd hs acyclic v (by omega)

/-- A task calls another twice in a loop, once from the side of a branch. -/
theorem shared_walks_descend : ∃ d, runAll Branch.sharedCommands { name := "x" } = some d ∧
    ∀ task ∈ d.tasks, ∀ n, d.ops.size < n → ∀ v,
      Branch.Agree d (Branch.component^[n] v task.call false) (Branch.visit n task.call false) := by
  obtain ⟨d, run, split⟩ : ∃ d, runAll Branch.sharedCommands { name := "x" } = some d ∧ ∀ o ∈ d.ops,
      ((20 : Int) ≤ o.id ∨ o.kind ≠ .taskCall ∧ ∀ c ∈ o.children, (c : Int) < 20) ∧
      (o.kind ≠ .taskCall ∨ (o.body : Int) < 20) := by
    decide +kernel
  have built := (Built.empty "x").runAll run
  have hd := built.wellFormed
  -- operations before the second task own and call nothing after it
  have low : ∀ {x y : Int}, ReflTransGen (Below d) x y → x < 20 → y < 20 := by
    intro x y path hx
    induction path with
    | refl => exact hx
    | tail _ step ih =>
      obtain ⟨o, ho, hy | rfl⟩ := step
      · rcases (split o (mem_of_at? ho)).1 with late | ⟨-, kids⟩
        · rw [hd.nesting.ids _ _ ho] at late
          omega
        · exact kids _ hy
      · decide
  have calls : ∀ {s t : Task}, s.Calls d t → ∃ x b : Int, s.Runs d x ∧ t.Runs d b ∧ 20 ≤ x ∧ b < 20 := by
    rintro s t ⟨x, b, hx, hb, c, o, path, ho, call, rfl, -⟩
    obtain ⟨early, body⟩ := split o (mem_of_at? ho)
    refine ⟨x, _, hx, hb, Int.not_lt.mp fun lt => ?_, body.resolve_left fun no => no call⟩
    rw [hd.nesting.ids _ _ ho] at early
    have := low path lt
    exact early.elim (by omega) fun no => no.1 call
  refine ⟨d, run,
    fun task ht n room v => ((walks_descend hd built.shaped fun t path => ?_).2.2 task ht n room).1 v false⟩
  obtain ⟨_, first, -⟩ := TransGen.head'_iff.mp path
  obtain ⟨_, -, last⟩ := TransGen.tail'_iff.mp path
  obtain ⟨_, -, ⟨-, o, ho, rfl⟩, -, le, -⟩ := calls first
  obtain ⟨-, _, -, ⟨-, p, hp, rfl⟩, -, lt⟩ := calls last
  cases ho.symm.trans hp
  exact absurd lt (Int.not_lt.mpr le)

end Datapath
