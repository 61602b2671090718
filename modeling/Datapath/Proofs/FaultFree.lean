import Datapath.Proofs.SturdyRemoval
import Datapath.Proofs.Tracked

/-!
# Scheduling without faults

The passes rely on some parts of operations without looking whether they are there. Commands can leave
these parts out, and then scheduling faults. Where they are there and no task calls itself, scheduling ends
with an answer or with an error, however malformed the design is otherwise.
-/

namespace Datapath

variable {d : Design}

/-! ## Schedules of sturdy designs -/

section
variable {E : Prop} {e : Design}

theorem Going.space (he : Going E o d e) (ht : at? e.tasks index = some task) (goSpacing : Spacing) :
    Does (changeTask index fun t => { t with goSpacing }) e fun _ => Going E o d := by
  have run : changeTask index (fun t => { t with goSpacing }) e =
      .ok ((), { e with tasks := editAt e.tasks index fun t => { t with goSpacing } }) :=
    bind_ok.mpr ⟨task, require_ok.mpr ht, rfl⟩
  refine ⟨(), _, run, ?_, (Framed.spaces o d).space.run run he.framed, he.rises⟩
  exact (keeps_changeTask index fun _ => by rfl).kept he.wf run

theorem analyze_settles (hd : Sturdy E d) : Settles E (Going E o d) Throughput.analyze := by
  intro e he
  refine .get_bind ((settles_closed E (Going E o d)).mapM_of_mem (fun task ht => ?_) he)
  have ht : task ∈ e.tasks := Array.mem_toList_iff.mp ht
  obtain ⟨_, there, kind, -⟩ := Region.task_call (he.sturdy hd).shaped ht
  obtain ⟨call, f, s, hcall, rfl, -⟩ := he.framed.opBack there
  have index : at? e.tasks task.id = some task := he.wf.taskIds.at?_of_mem (Array.mem_toList_iff.mpr ht)
  intro e' he'
  obtain ⟨f', s', hcall', -⟩ := he'.framed.ops hcall
  obtain ⟨task', ht'⟩ : ∃ t, at? e'.tasks task.id = some t := by
    obtain ⟨lo, hi⟩ := at?_lt index
    exact at?_of_lt lo (he'.framed.taskCount.trans he.framed.taskCount.symm ▸ hi)
  have named : task.balanced = true → ∀ {i q}, Nested e' task.call i → e'.op? i = some q → q.kind.isAccess = true →
      q.resource ≠ absent := by
    intro balanced i q nested hq
    obtain ⟨first, ht0, same, balanced'⟩ := he.framed.task ht
    obtain ⟨p, f, s, hp, rfl, -⟩ := he'.framed.opBack hq
    have kept := hd.accessed ht0 (balanced'.trans balanced) (same ▸ he'.framed.nested nested) hp
    exact kept
  have found : Concludes E (Pass.within s!"task {task.name}" (Pass.query (Throughput.analyzeTask · task))) e'
      fun _ e'' => e'' = e' :=
    .within (.query (Throughput.analyzeTask_replies (he'.sturdy hd) hcall' kind named) fun _ _ _ => rfl)
  refine found.bind ?_
  rintro r _ - rfl
  exact .bind (.inl (.ofBuild (he'.space ht' r.spacing))) fun _ _ _ he'' => .pure he''

theorem schedule_concludes (hd : Sturdy E d) (valid : ∀ code, o.policy ≠ .unnamed code) :
    Concludes E (schedule o) d fun _ _ => True := by
  have start : Going E o d d := ⟨hd.wf, .refl o d, hd.tidy.imp_right Tidy.rises⟩
  refine (balance_settles hd start).within.bind fun _ d1 _ h1 => ?_
  refine (removeFlops_settles hd valid h1).within.bind fun _ d2 _ h2 => ?_
  refine (analyze_settles hd h2).within.bind fun _ d3 _ h3 => ?_
  exact (Region.trackStalls_concludes (h3.sturdy hd)).within.bind fun _ _ _ _ => .pure trivial

end

theorem Built.sturdy (hd : Built d) (complete : Complete d) : Sturdy True d :=
  { complete with
    wf := hd.wellFormed
    shaped := hd.shaped
    laid := hd.laid
    entered := fun ho => (hd.equipped ho).entered
    fronted := fun ho hk => by
      obtain ⟨_, _, _, _, hq, -⟩ := (hd.equipped ho).front (.inl hk)
      exact ne_absent hq
    ended := fun {i o x} ho hk single => by
      obtain ⟨y, hy, there, -⟩ := hd.completed ho hk
      rw [single, List.mem_singleton] at hy
      exact hy ▸ there
    looped := fun ho hk ne => by
      obtain ⟨b, hb, -⟩ := view_some.mp ((hd.shaped.ops (view_of _ ho)).loops hk ne)
      exact ⟨b, hb⟩
    tidy := .inl trivial }

section
variable (hd : WellFormed d) (plain : ∀ o ∈ d.ops, o.kind ≠ .taskCall)
include hd plain

theorem Enters.older (h : Enters d x y) : x < y := by
  obtain ⟨o, ho, hy | ⟨call, -⟩⟩ := h
  · obtain ⟨q, hq, own⟩ := hd.child ho hy
    exact own ▸ hd.nesting.older hq
  · exact absurd call (plain o (mem_of_at? ho))

theorem WellFormed.descends : Descends d := by
  have inward : ∀ {x y : Int}, Relation.TransGen (Enters d) x y → x < y := by
    intro x y path
    induction path with
    | single step => exact step.older hd plain
    | tail _ step ih => exact Int.lt_trans ih (step.older hd plain)
  exact fun x path => Int.lt_irrefl x (inward path)

end

def Operation.isComplete (d : Design) (o : Operation) : Bool :=
  match o.kind with
  | .branch => o.decision != absent
  | .reg =>
    (d.op? o.owner).all (·.kind != .loop) || !o.ports.isEmpty && (o.exits.head?.bind d.exit?).any (!·.buses.isEmpty)
  | .taskCall => false
  | k => !k.isAccess || o.resource != absent || d.tasks.all (!·.balanced)

theorem Complete.of_ops (hd : WellFormed d) (check : ∀ o ∈ d.ops, o.isComplete d = true) : Complete d where
  decided _ ho hk := by simpa [Operation.isComplete, hk] using check _ (mem_of_at? ho)
  accessed {task _ o} ht balanced _ ho hk := by
    have checked := check o (mem_of_at? ho)
    unfold Operation.isComplete at checked
    split at checked
    iterate 3
      next kind =>
        rw [kind] at hk
        cases hk
    next =>
      have there : d.tasks.all (!·.balanced) = false := by
        rw [Array.all_eq_false']
        exact ⟨task, ht, by simp [balanced]⟩
      simpa [hk, there] using checked
  holding {_ o l} ho hk hl loop _ := by
    have checked := check o (mem_of_at? ho)
    rw [Operation.isComplete, hk] at checked
    simp only [hl, Option.all_some, loop, bne_self_eq_false, Bool.false_or, Bool.and_eq_true,
      Option.any_eq_true] at checked
    obtain ⟨ports, y, hy, buses⟩ := checked
    obtain ⟨x, hx, hy⟩ := Option.bind_eq_some_iff.mp hy
    obtain ⟨xs, exits⟩ := List.head?_eq_some_iff.mp hx
    exact ⟨by simpa using ports, x, xs, y, exits, hy, by simpa using buses⟩
  descends := hd.descends fun o ho call => by simpa [Operation.isComplete, call] using check o ho

/-- Scheduling a complete design comes to an answer, which may be an error, under every policy that has a name. -/
theorem schedule_answers {o : Options} (hd : Built d) (complete : Complete d)
    (valid : ∀ code, o.policy ≠ .unnamed code) : ∃ r d', (schedule o).run d = .ok (r, d') := by
  rcases schedule_concludes (hd.sturdy complete) valid with ⟨_, d', ran, -⟩ | ⟨-, e, d', ran⟩
  · exact ⟨.ok (), d', ran⟩
  · exact ⟨.error e, d', ran⟩

/-- A loop of a task that is not balanced has a decision without a test and an access without a resource in
its block, and its own decision an exit that no output buffer completes. -/
def malformedCommands : List Command :=
  [.newTask "t" 0 0 .zero false, .newLoop 3 "l" 0 0 .zero, .setLatency 17 .one, .addExit 13 .done .zero 0,
   .newModule .decision 17 "x" 0 0 .zero, .newPrimitive .memoryRead 17 "r" 0 0 .zero]

theorem schedule_malformed : ∃ d r d', runAll malformedCommands { name := "x" } = some d ∧ Complete d ∧
    (schedule { policy := .firstAlways }).run d = .ok (r, d') := by
  obtain ⟨d, hd, check⟩ : ∃ d, runAll malformedCommands { name := "x" } = some d ∧ ∀ o ∈ d.ops,
    o.isComplete d = true := by
    decide +kernel
  have built : Built d := (Built.empty "x").runAll hd
  have complete : Complete d := .of_ops built.wellFormed check
  obtain ⟨r, d', ran⟩ := schedule_answers (o := { policy := .firstAlways }) built complete nofun
  exact ⟨d, r, d', hd, complete, ran⟩

/-- Each of these lists leaves out one thing that scheduling relies on. -/
def incompleteCommands : List (List Command) := [
  -- the decision of a branch
  [.newTask "t" 0 0 .zero true, .newModule .branch 3 "b" 0 0 .zero],
  -- the resource of an access
  [.newTask "t" 0 0 .zero true, .newPrimitive .memoryRead 3 "r" 0 0 .zero],
  -- the input of a register of a loop, and then its output
  [.newLoop absent "l" 0 0 .zero, .setLatency 11 .one, .newPrimitive .reg 0 "r" 0 0 .zero],
  [.newLoop absent "l" 0 0 .zero, .setLatency 11 .one, .newPrimitive .reg 0 "r" 1 0 .zero, .connect 16 0 18],
  -- a task that does not call itself
  [.newTask "t" 0 0 .zero true, .newTaskCall 3 "c" 0],
  -- an owner other than the block itself; to reject the operation that waits for itself, its owners are named
  [.newBlock 0 "b" 0 0 .zero, .newLoop 0 "l" 0 0 .zero, .setLatency 14 .one, .newPrimitive .op 14 "p" 0 0 .zero,
   .start 18 15]]

def faultsAfter (cs : List Command) : Bool :=
  match cs.forM Command.run { name := "x" } with
  | .ok (_, d) => !((schedule {}).run d).isOk
  | .error _ => false

theorem faultsAfter_spec (faults : faultsAfter cs = true) : ∃ d f,
    cs.forM Command.run { name := "x" } = .ok ((), d) ∧ (schedule {}).run d = .error f := by
  unfold faultsAfter at faults
  split at faults
  next d built =>
    cases ran : (schedule {}).run d with
    | error f => exact ⟨d, f, built, ran⟩
    | ok r =>
      rw [ran] at faults
      cases faults
  next => cases faults

theorem schedule_faults_incomplete : incompleteCommands.Forall fun cs => ∃ d f,
    cs.forM Command.run { name := "x" } = .ok ((), d) ∧ (schedule {}).run d = .error f := by
  have all : incompleteCommands.all faultsAfter = true := by decide +kernel
  exact List.forall_iff_forall_mem.mpr fun cs hcs => faultsAfter_spec (List.all_eq_true.mp all cs hcs)

end Datapath
