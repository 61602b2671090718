import Datapath.Proofs.FaultFree
import Datapath.Proofs.TidyWiring

/-!
# Structured designs

A structured design is built by commands that put operations into blocks and drive them in the order
in which they were made. Structured designs are tidy, so no pass finds an error in one.
-/

namespace Datapath

variable {d d' : Design}

/-! ## Structured commands -/

section
variable (d : Design)

def Design.isBlock (op : OpId) : Bool := (d.op? op).any (·.kind == .block)

/-- Whether a bus comes from an operation of the same block that was made earlier. The output buffers
of a block may be driven by all that it has. -/
def Design.mayDrive (source : BusId) (op : OpId) : Bool :=
  match d.busOwner? source, d.op? op with
  | some s, some o => d.isBlock o.owner && (d.op? s).any (·.owner == o.owner) && (s < op || o.kind == .outBuf)
  | _, _ => false

/-- Whether a task was made before the one that the operation lies in. -/
def Design.mayCall (op : OpId) (task : Int) : Bool :=
  match d.owners op with
  | .ok os => d.tasks.any fun t => task < t.id && os.contains t.call
  | .error _ => false

/-- Whether a command grows to a block, or wires a loop and is not rejected. -/
def Command.isStructured : Command → Bool
  | newTask .. | newResource .. => true
  | newBlock owner .. | newBranch owner .. | newLoop owner .. | newConstant owner .. | newAccess _ owner .. =>
    d.isBlock owner
  | newTaskCall owner _ task => d.isBlock owner && d.mayCall owner task
  | newPrimitive kind owner .. => d.isBlock owner && [Kind.op, .constant, .noOp, .mux, .latch, .reg].contains kind
  | connect entry source _ | connectResource entry source .. =>
    (d.entryAt? entry).any fun e => d.mayDrive source e.owner
  | start op source => d.mayDrive source op
  | finish mod _ op => d.isBlock mod && (d.op? op).any (·.owner == mod)
  | wireLoop loop feeds => (completed ((Loop.wire loop feeds).run d)).isSome
  | _ => false

end

def runStructured : List Command → Design → Option Design
  | [], d => some d
  | c :: cs, d =>
    if c.isStructured d then
      match c.run d with
      | .ok (_, e) => runStructured cs e
      | .error _ => none
    else none

/-! ## Structured commands keep designs tidy -/

section
variable {k : Kind} {c : Command}

theorem place_of_isBlock (h : d.isBlock op = true) : ∃ p, d.place? op = some (.block, p) := by
  obtain ⟨o, ho, kind⟩ := (Option.any_eq_true ..).mp h
  exact ⟨o.owner, by rw [place_of_op ho, beq_iff_eq.mp kind]⟩

theorem Kind.level_block (fits : k.fits (some .block) = true) (ne : k ≠ .outBuf) : k.level .block ≤ 1 := by
  cases k with
  | whileBody => cases fits
  | outBuf => exact absurd rfl ne
  | reg => decide
  | _ => exact Nat.le_of_ble_eq_true rfl

theorem Kind.fits_of_access (h : k.isAccess = true) : k.fits (some .block) = true := by
  cases k <;> first | rfl | cases h

theorem kinds_of_block (h : k ∈ [Kind.op, .constant, .noOp, .mux, .latch, .reg]) :
    k.fits (some .block) = true ∧ k ≠ .inBuf ∧ k ≠ .outBuf ∧ (k.isPlain = true ∨ k = .reg) := by
  revert k
  decide

section
variable (hd : Orderly d)
include hd

theorem Orderly.low (carried : Carried d source s)
    (hs : d.place? s = some (j, m)) (hm : d.place? m = some (.block, p)) : j.level .block ≤ 1 := by
  refine Kind.level_block ?_ ?_
  · have fits := (hd.tidy.lodged hs).fits
    rwa [hm] at fits
  · rintro rfl
    obtain ⟨x, -, own⟩ := carried
    obtain ⟨y, hy, rfl⟩ := view_some.mp own
    obtain ⟨o, ho, kind, -⟩ := op_of_place hs
    obtain ⟨_, ho', mem⟩ := hd.wf.exits.held hy rfl
    cases ho.symm.trans ho'
    rw [(hd.tidy.sits ho).buffer kind] at mem
    cases mem

theorem Orderly.climbs_block (carried : Carried d source s)
    (hs : d.place? s = some (j, m)) (ht : d.place? t = some (k, m)) (hm : d.place? m = some (.block, p))
    (later : s < t ∨ k = .outBuf) : Climbs d s t := by
  have low := hd.low carried hs hm
  rcases later with lt | rfl
  · have front : k ≠ .inBuf := by
      rintro rfl
      obtain ⟨o, ho, -, rfl⟩ := op_of_place hs
      rw [(hd.tidy.lodged ht).first rfl] at lt
      exact Int.not_lt.mpr (Int.add_one_le_of_lt (hd.wf.nesting.older ho)) lt
    have high : 0 < k.level .block := Kind.level_pos front
    refine ⟨j, k, .block, m, p, hs, ht, hm, ?_⟩
    rcases Nat.lt_or_ge (j.level .block) (k.level .block) with below | above
    · exact .inl below
    · exact .inr ⟨by omega, by omega, lt⟩
  · exact climbs_back hs ht hm (Nat.lt_of_le_of_lt low (by decide))

theorem Orderly.mayDrive (h : d.mayDrive source op = true) : ∃ s, Carried d source s ∧ Climbs d s op := by
  unfold Design.mayDrive at h
  split at h
  next s o hs ho =>
    simp only [Bool.and_eq_true, Bool.or_eq_true, decide_eq_true_eq, beq_iff_eq, Option.any_eq_true] at h
    obtain ⟨⟨block, q, hq, own⟩, later⟩ := h
    obtain ⟨p, hm⟩ := place_of_isBlock block
    obtain ⟨b, hb, x, hx, rfl⟩ : ∃ b, d.bus? source = some b ∧ ∃ x, d.exit? b.exit = some x ∧ x.owner = s := by
      simpa [Design.busOwner?, Option.bind_eq_some_iff] using hs
    have carried : Carried d source x.owner := ⟨b.exit, view_of _ hb, view_of _ hx⟩
    exact ⟨x.owner, carried, hd.climbs_block carried (by rw [place_of_op hq, own]) (place_of_op ho) hm later⟩
  · cases h

theorem mayCall_top (ho : d.op? op = some o) (h : d.mayCall op task = true) :
    ∃ r, Top d op r ∧ ∀ a, view d.tasks Task.call task = some a → a < r := by
  unfold Design.mayCall at h
  split at h
  next os hos =>
    obtain ⟨t, ht, h⟩ := Array.any_eq_true'.mp h
    simp only [Bool.and_eq_true, decide_eq_true_eq, List.contains_iff_mem] at h
    obtain ⟨earlier, around⟩ := h
    obtain ⟨q, hq, hos⟩ := bind_ok.mp hos
    cases ho.symm.trans (op_ok hq)
    have there : at? d.tasks t.id = some t := hd.wf.taskIds.at?_of_mem (Array.mem_toList_iff.mpr ht)
    have call := view_of Task.call there
    obtain ⟨s, hs, called⟩ := hd.shaped.tasks call
    refine ⟨t.call, ⟨.head ⟨_, ho, rfl⟩ (Region.ownersFrom_ok hos around), .call, ?_⟩, ?_⟩
    · rw [place_of_stem hs, called.kind, called.owner]
    · exact fun a ha => hd.tidy.tasks earlier ha call
  · cases h

end

theorem finish_carried (hd : WellFormed d) {id : DepId} (h : finish mod tag op d = .ok (id, d')) :
    ∃ b, Carried d b op := by
  obtain ⟨ob, -, h⟩ := ask_bind_ok.mp h
  obtain ⟨e, -, h⟩ := ask_bind_ok.mp h
  obtain ⟨x, hx, -⟩ := ask_bind_ok.mp h
  exact ⟨x.done, (Unfolds.chains.refl d).mainExit hd hx _ List.mem_cons_self⟩

theorem tasks_put (hd : Shaped d)
    (ordered : ∀ {i j a b : Int}, i < j → view d.tasks Task.call i = some a → view d.tasks Task.call j = some b →
        a < b) (new : view d'.tasks Task.call = put (view d.tasks Task.call) n d.ops.size)
    (free : view d.tasks Task.call n = none) (lt : i < j) (hi : view d'.tasks Task.call i = some a)
    (hj : view d'.tasks Task.call j = some b) : a < b := by
  have first : 0 ≤ i := (view_lt hi).1
  rw [new] at hi hj
  by_cases ej : j = n
  · rw [ej, put_self] at hj
    rw [put_ne _ (by omega)] at hi
    cases hj
    obtain ⟨s, hs, -⟩ := hd.tasks hi
    exact (view_lt hs).2
  · rw [put_ne _ ej] at hj
    by_cases ei : i = n
    · -- the place of a new task is behind all tasks
      obtain ⟨t, ht⟩ : ∃ t, at? d.tasks i = some t := at?_of_lt first (Int.lt_trans lt (view_lt hj).2)
      rw [← ei, view_of _ ht] at free
      cases free
    · rw [put_ne _ ei] at hi
      exact ordered lt hi hj

theorem seats_run (allowed : c.isStructured d = true) (ran : c.run d = .ok ((), d')) : Seats d d' := by
  have b := Seats.builds
  cases c with
  | newTask => exact (b.discard (b.newTask fun h => ⟨fun no ho => (h.sits no ho).grow id id⟩)).run ran
  | newResource =>
    obtain ⟨_, made⟩ := run_of_discard ran
    cases made
    exact b.resources
  | newBlock => exact (b.discard b.newModule).run ran
  | newBranch => exact (b.discard b.newBranch).run ran
  | newLoop => exact (b.discard (b.newLoop seats_feedback)).run ran
  | newTaskCall => exact (b.discard b.newTaskCall).run ran
  | newPrimitive =>
    have listed := List.contains_iff_mem.mp ((Bool.and_eq_true ..).mp allowed).2
    exact (b.discard (b.primitive (kinds_of_block listed).2.2.1)).run ran
  | newConstant => exact (b.discard b.newConstant).run ran
  | newAccess => exact (b.discard b.newAccess).run ran
  | connect => exact (b.discard b.connect).run ran
  | connectResource => exact (b.discard b.depend).run ran
  | start => exact (b.discard b.start).run ran
  | finish => exact (b.discard b.finish).run ran
  | wireLoop => exact (b.discard (b.wires.wire ..)).run ran
  | _ => cases allowed

theorem Orderly.raises_run (hd : Orderly d) (w : WellFormed d') (u : Unfolds d d')
    (sits : AllSit (fun _ => False) d') (allowed : c.isStructured d = true) (ran : c.run d = .ok ((), d')) :
    Raises d' (fun _ => True) d d' := by
  have drives {entry source kind target clocks}
    (h : (d.entryAt? entry).any (fun e => d.mayDrive source e.owner) = true) :
      Along (Raises d' fun _ => True) (addDependency entry kind source target clocks) := by
    obtain ⟨e, he, drives⟩ := (Option.any_eq_true ..).mp h
    obtain ⟨s, carried, climbs⟩ := hd.mayDrive drives
    obtain ⟨o, ho, mem⟩ := hd.wf.entries.held he rfl
    obtain ⟨_, face⟩ := u.entry w ho mem
    exact raises_drive face (u.carried carried) (climbs.mono u.place) trivial
  have fits {owner : OpId} {k : Kind} (block : d.isBlock owner = true) (fits : k.fits (some .block) = true) :
      k.fits ((d'.place? owner).map Prod.fst) = true := by
    obtain ⟨p, hp⟩ := place_of_isBlock block
    rw [u.place hp]
    exact fits
  have r := Raises.chains d' fun _ => True
  cases c with
  | newTask =>
    obtain ⟨_, made⟩ := run_of_discard ran
    exact raises_newTask w made
  | newResource =>
    obtain ⟨_, made⟩ := run_of_discard ran
    cases made
    exact .same rfl rfl
  | newBlock =>
    obtain ⟨_, made⟩ := run_of_discard ran
    refine raises_newModule (Unfolds.chains.refl d') made (fits allowed rfl) (fun _ call => ?_) (.inl rfl)
    obtain ⟨p, hp⟩ := place_of_isBlock allowed
    rw [u.place hp] at call
    cases call
  | newBranch =>
    obtain ⟨_, made⟩ := run_of_discard ran
    exact raises_newBranch w made (fits allowed rfl)
  | newLoop =>
    obtain ⟨_, made⟩ := run_of_discard ran
    exact raises_newLoop w sits made (fits allowed rfl)
  | newTaskCall =>
    obtain ⟨_, made⟩ := run_of_discard ran
    obtain ⟨block, later⟩ := (Bool.and_eq_true ..).mp allowed
    obtain ⟨p, hp⟩ := place_of_isBlock block
    obtain ⟨o, ho, -⟩ := op_of_place hp
    obtain ⟨r, top, lt⟩ := mayCall_top hd ho later
    exact raises_newTaskCall hd.shaped made (fits block rfl) top lt
  | newPrimitive =>
    obtain ⟨_, made⟩ := run_of_discard ran
    obtain ⟨block, listed⟩ := (Bool.and_eq_true ..).mp allowed
    obtain ⟨fit, front, -, whole⟩ := kinds_of_block (List.contains_iff_mem.mp listed)
    refine raises_newPrimitive (Unfolds.chains.refl d') made (fits block fit) front
      (whole.imp_right fun reg o ho => ?_)
    -- a register of a block need not hold a value
    obtain ⟨-, o', _, _, _, ho', place, -⟩ := newPrimitive_makes made
    cases ho.symm.trans ho'
    obtain ⟨kind, own⟩ := Operation.place_eq place
    obtain ⟨p, hp⟩ := place_of_isBlock block
    rw [Operation.Whole, kind, reg, own, u.place hp]
    simp
  | newConstant =>
    obtain ⟨_, made⟩ := run_of_discard ran
    exact raises_newConstant made (fits allowed rfl)
  | newAccess =>
    obtain ⟨_, made⟩ := run_of_discard ran
    obtain ⟨_, _, _, _, -, access, -⟩ := newAccess_ok made
    exact raises_newAccess made (fits allowed (Kind.fits_of_access access))
  | connect =>
    obtain ⟨_, made⟩ := run_of_discard ran
    exact (r.ask_bind fun _ => drives allowed).run made
  | connectResource =>
    obtain ⟨_, made⟩ := run_of_discard ran
    exact (drives allowed).run made
  | start =>
    obtain ⟨_, made⟩ := run_of_discard ran
    obtain ⟨s, carried, climbs⟩ := hd.mayDrive allowed
    exact raises_start w (Unfolds.chains.refl d') made (u.carried carried) (climbs.mono u.place) trivial
  | finish mod tag k =>
    obtain ⟨_, made⟩ := run_of_discard ran
    obtain ⟨block, inside⟩ := (Bool.and_eq_true ..).mp allowed
    obtain ⟨o, ho, own⟩ := (Option.any_eq_true ..).mp inside
    obtain ⟨p, hp⟩ := place_of_isBlock block
    obtain ⟨b, carried⟩ := finish_carried hd.wf made
    have inside : d.place? k = some (o.kind, mod) := by rw [place_of_op ho, beq_iff_eq.mp own]
    have low := hd.low carried inside hp
    exact raises_finish w (Unfolds.chains.refl d') made fun ob hob =>
      ⟨climbs_back (u.place inside) hob (u.place hp) (Nat.lt_of_le_of_lt low (by decide)), trivial⟩
  | wireLoop =>
    obtain ⟨r, made⟩ := run_of_discard ran
    obtain ⟨p, hp⟩ := Option.isSome_iff_exists.mp allowed
    cases made.symm.trans (completed_some.mp hp)
    exact raises_wire hd w sits made
  | _ => cases allowed

theorem Orderly.run (hd : Orderly d) (w : WellFormed d') (allowed : c.isStructured d = true)
    (ran : c.run d = .ok ((), d')) : Tidy d' := by
  have u := (unfolds_run c).run ran
  have sits := seats_run allowed ran ⟨fun _ => hd.tidy.sits⟩
  refine hd.raise w u (Command.stem_kept ran) sits (hd.raises_run w u sits allowed ran) ?_
  rcases Command.grows ran with grows | ⟨_, _, _, _, _, _, made⟩
  · rw [grows.tasks]
    exact hd.tidy.tasks
  · obtain ⟨e, _, grows, rfl, call, -⟩ := grows_newTask made
    refine tasks_put hd.shaped hd.tidy.tasks (n := e.tasks.size) ?_ ?_
    · rw [view_push, grows.tasks, call]
    · rw [← grows.tasks, view_size]

/-! ## Scheduling -/

theorem Command.isPlaced_of_structured (h : c.isStructured d = true) : c.isPlaced d = true := by
  have there : ∀ {owner}, d.isBlock owner = true → (owner == absent || (d.op? owner).isSome) = true := by
    intro owner block
    obtain ⟨o, ho, -⟩ := (Option.any_eq_true ..).mp block
    rw [ho]
    simp
  cases c with
  | newTaskCall => exact there ((Bool.and_eq_true ..).mp h).1
  | newPrimitive => exact there ((Bool.and_eq_true ..).mp h).1
  | newBlock => exact there h
  | newBranch => exact there h
  | newLoop => exact there h
  | newConstant => exact there h
  | newAccess => exact there h
  | newModule => cases h
  | _ => rfl

theorem runStructured_tidy (built : Built d) (tidy : Tidy d) (h : runStructured cs d = some d') :
    Built d' ∧ Tidy d' := by
  induction cs generalizing d with
  | nil =>
    cases h
    exact ⟨built, tidy⟩
  | cons c cs ih =>
    unfold runStructured at h
    split at h
    case isTrue allowed =>
      split at h
      case h_1 e ran =>
        have orderly : Orderly d := ⟨built.wellFormed, built.shaped, built.laid, tidy⟩
        have next := built.step c (Command.isPlaced_of_structured allowed) ran
        exact ih next (orderly.run next.wellFormed allowed ran) h
      case h_2 => cases h
    case isFalse => cases h

theorem tidy_empty (name : String) : Tidy { name } where
  lodged h := by
    rw [Design.place?, view_empty] at h
    cases h
  sits h := by
    rw [at?_empty] at h
    cases h
  whole h := by
    rw [at?_empty] at h
    cases h
  tasks _ h := by
    rw [view_empty] at h
    cases h
  rises _ _ h := by
    rw [view_empty] at h
    cases h

/-- Scheduling gives no error on a structured design, whatever the options are. -/
theorem schedule_structured {cs : List Command} {name : String} {o : Options}
    (h : runStructured cs { name } = some d) (valid : ∀ code, o.policy ≠ .unnamed code) :
    ∃ d', (schedule o).run d = .ok (.ok (), d') := by
  obtain ⟨built, tidy⟩ := runStructured_tidy (.empty name) (tidy_empty name) h
  have orderly : Orderly d := ⟨built.wellFormed, built.shaped, built.laid, tidy⟩
  rcases schedule_concludes orderly.sturdy valid with ⟨_, d', ran, -⟩ | ⟨no, -⟩
  · exact ⟨d', ran⟩
  · exact no.elim

end

def structuredCommands : List Command :=
  [.newResource .memory "m" false, .newTask "s" 1 1 .one true, .newTask "t" 1 1 .one true, .newLoop 9 "l" 1 1 .one,
   .newAccess .memoryRead 23 "r" 0 .one, .newAccess .memoryWrite 23 "w" 0 .one, .start 27 30,
   .connectResource 29 36 46 1, .finish 23 .done 28, .connect 26 37 41, .wireLoop 12 [⟨17, 26⟩, ⟨23, 26⟩, ⟨25, 24⟩],
   .start 12 12, .newBranch 9 "b" 1 1 .one, .start 30 18, .newTaskCall 9 "c" 0, .start 43 43, .finish 9 .done 43,
   .connect 11 60 19]

theorem schedule_loop_and_call : ∃ d d', runStructured structuredCommands { name := "x" } = some d ∧
    d.ops.size = 46 ∧ (schedule { policy := .firstAlways }).run d = .ok (.ok (), d') := by
  have size : (runStructured structuredCommands { name := "x" }).map (·.ops.size) = some 46 := by decide +kernel
  obtain ⟨d, hd, hs⟩ := Option.map_eq_some_iff.mp size
  obtain ⟨d', ran⟩ := schedule_structured hd (o := { policy := .firstAlways }) nofun
  exact ⟨d, d', hd, hs, ran⟩

end Datapath
