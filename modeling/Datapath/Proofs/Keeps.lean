import Datapath.Proofs.Building

/-!
# Steps that keep designs well-formed

A step keeps designs well-formed if it leaves a well-formed design behind whenever it starts from
one and does not fault. Operations are only ever made inside an older one, so a step may rely on a
number of operations that are already there.
-/

namespace Datapath

variable {d d' : Design}

/-! ## Properties of computations -/

structure Closed (m : Type → Type) [Monad m] (K : {α : Type} → m α → Prop) : Prop where
  pure : ∀ {α : Type} (a : α), K (pure a)
  bind : ∀ {α β : Type} {x : m α} {f : α → m β}, K x → (∀ a, K (f a)) → K (x >>= f)

section
variable {m : Type → Type} [Monad m] {K : {α : Type} → m α → Prop} {α β : Type}

theorem Closed.forM (h : Closed m K) {f : α → m PUnit} (hf : ∀ a, K (f a)) (l : List α) : K (l.forM f) := by
  induction l with
  | nil => exact h.pure _
  | cons a l ih => exact h.bind (hf a) fun _ => ih

theorem Closed.mapM [LawfulMonad m] (h : Closed m K) {f : α → m β} (hf : ∀ a, K (f a)) (l : List α) :
    K (l.mapM f) := by
  induction l with
  | nil => exact h.pure _
  | cons a l ih =>
    rw [List.mapM_cons]
    exact h.bind (hf a) fun _ => h.bind ih fun _ => h.pure _

theorem Closed.foldlM (h : Closed m K) {f : β → α → m β} (hf : ∀ b a, K (f b a)) (l : List α) (b : β) :
    K (l.foldlM f b) := by
  induction l generalizing b with
  | nil => exact h.pure _
  | cons a l ih => exact h.bind (hf b a) ih

end

/-! ## Steps of building -/

section
variable {α β : Type} {Q : α → Int → Prop} {R : β → Int → Prop} {m : Build α} {f : α → Build β}

/-- The step keeps designs with at least `n` operations well-formed, and its result and the number
of operations it leaves are related by `Q`. -/
structure Sound (n : Int) (m : Build α) (Q : α → Int → Prop) : Prop where
  run : ∀ {d a d'}, WellFormed d → n ≤ d.ops.size → m d = .ok (a, d') →
    WellFormed d' ∧ n ≤ d'.ops.size ∧ Q a d'.ops.size

abbrev Keeps (n : Int) (m : Build α) : Prop := Sound n m fun _ _ => True

abbrev Makes (n : Int) (m : Build OpId) : Prop := Sound n m fun id k => 0 ≤ id ∧ id < k

theorem Sound.pure {a : α} (h : ∀ k, n ≤ k → Q a k) : Sound n (pure a : Build α) Q := by
  constructor
  intro d b d' hd hn hm
  cases hm
  exact ⟨hd, hn, h _ hn⟩

theorem Sound.bind (hm : Sound n m Q) (hf : ∀ a k, n ≤ k → Q a k → Sound k (f a) R) : Sound n (m >>= f) R := by
  constructor
  intro d b d' hd hn h
  obtain ⟨a, e, h1, h2⟩ := build_bind_ok.mp h
  obtain ⟨w, hs, hq⟩ := hm.run hd hn h1
  obtain ⟨w', hs', hr⟩ := (hf a _ hs hq).run w (Int.le_refl _) h2
  exact ⟨w', Int.le_trans hs hs', hr⟩

theorem Sound.seq (hm : Sound n m Q) (hf : ∀ a, Sound n (f a) R) : Sound n (m >>= f) R := by
  constructor
  intro d b d' hd hn h
  obtain ⟨a, e, h1, h2⟩ := build_bind_ok.mp h
  obtain ⟨w, hs, -⟩ := hm.run hd hn h1
  exact (hf a).run w hs h2

theorem Sound.ask {q : Design → Except Fault α} (h : ∀ {d a}, WellFormed d → q d = .ok a → Q a d.ops.size) :
    Sound n (ask q) Q := by
  constructor
  intro d a d' hd hn hm
  obtain ⟨hq, rfl⟩ := ask_ok.mp hm
  exact ⟨hd, hn, h hd hq⟩

theorem keeps_ask (q : Design → Except Fault α) : Keeps n (ask q) := .ask fun _ _ => trivial

theorem Sound.then {q : Design → Except Fault α} (hf : ∀ a, Sound n (f a) R) : Sound n (Datapath.ask q >>= f) R :=
  .seq (keeps_ask q) hf

theorem sound_op (i : OpId) : Sound n (ask (·.op i)) fun o k => o.id < k := by
  refine .ask ?_
  intro d o hd ho
  have ho := op_ok ho
  rw [hd.nesting.ids i o ho]
  exact (at?_lt ho).2

theorem Sound.fault (e : Fault) : Sound n (faulty e >>= f) R := ⟨fun _ _ h => nomatch h⟩

theorem Sound.kept {a : α} (h : Sound d.ops.size m Q) (hd : WellFormed d) (ran : m d = .ok (a, d')) :
    WellFormed d' :=
  (h.run hd (Int.le_refl _) ran).1

theorem keeps_closed (n : Int) : Closed Build fun {_} m => Keeps n m where
  pure _ := .pure fun _ _ => trivial
  bind hm hf := hm.seq hf

theorem Sound.of (h : ∀ {d a d'}, WellFormed d → m d = .ok (a, d') → WellFormed d' ∧ d.ops.size ≤ d'.ops.size) :
    Keeps n m := by
  constructor
  intro d a d' hd hn hm
  obtain ⟨w, hs⟩ := h hd hm
  exact ⟨w, Int.le_trans hn (Int.ofNat_le.mpr hs), trivial⟩

end

/-! ## Builder calls -/

theorem makes_addOp (ho : owner < n) : Makes n (addOp kind owner name) := by
  constructor
  intro d id d' hd hn h
  obtain ⟨x, f⟩ := addOp_extends h
  exact ⟨hd.addOp (Int.lt_of_lt_of_le ho hn) h, Int.le_trans hn (Int.ofNat_le.mpr x.size), view_lt f.place⟩

theorem keeps_addExit (op : OpId) (tag : ExitTag) (latency : Latency) (count : Int) :
    Keeps n (addExit op tag latency count) :=
  .of fun hd h => ⟨hd.addExit h, (addExit_extends h).1.size⟩

theorem keeps_addModuleExit (mod : OpId) (tag : ExitTag) (latency : Latency) (outputs : Int) :
    Keeps n (addModuleExit mod tag latency outputs) :=
  .of fun hd h => addModuleExit_ok hd h

theorem keeps_addEntry (op : OpId) (drive : ExitId) : Keeps n (addEntry op drive) :=
  .of fun hd h => ⟨hd.addEntry h, (addEntry_extends h).size⟩

theorem keeps_addDependency (entry : EntryId) (kind : DepKind) (source : BusId) (target : PortId)
    (clocks : Int64) : Keeps n (addDependency entry kind source target clocks) := by
  refine .of fun hd h => ⟨hd.addDependency h, ?_⟩
  obtain ⟨-, -, e, p, b, -, -, -, -, rfl⟩ := addDependency_ok h
  exact Nat.le_refl _

theorem keeps_connect (entry : EntryId) (source : BusId) (target : PortId) :
    Keeps n (connect entry source target) :=
  .then fun _ => keeps_addDependency ..

theorem keeps_connectAll (entry : EntryId) (sources : List BusId) (targets : List PortId) :
    Keeps n (connectAll entry sources targets) :=
  (keeps_closed n).forM (fun _ => .seq (keeps_connect ..) fun _ => .pure fun _ _ => trivial) _

theorem keeps_relocate (dep : DepId) (source : BusId) : Keeps n (relocate dep source) := by
  refine .of fun hd h => ⟨hd.relocate h, ?_⟩
  obtain ⟨v, b, c, -, -, -, rfl⟩ := relocate_ok h
  exact Nat.le_refl _

theorem keeps_setLatency (op : OpId) (latency : Latency) : Keeps n (setLatency op latency) := by
  refine .of fun hd h => ⟨hd.setLatency h, ?_⟩
  obtain ⟨x, rfl⟩ := setLatency_ok h
  exact Nat.le_refl _

def Operation.links (o : Operation) :=
  (o.id, o.place, Design.allPorts o, o.exits, o.entries, o.children, o.inBuf, o.resource)

theorem keeps_changeOp (id : OpId) (hf : ∀ o, (f o).links = o.links) : Keeps n (changeOp id f) := by
  refine .of fun hd h => ?_
  obtain ⟨-, rfl⟩ := changeOp_ok h
  simp only [Operation.links, Prod.mk.injEq] at hf
  refine ⟨hd.editOp (hd.nesting.edit _ ?_) ?_, Nat.le_of_eq (size_editAt ..).symm⟩
  · intro o
    obtain ⟨h1, h2, -, -, -, h3, h4, -⟩ := hf o
    exact ⟨h1, congrArg Prod.fst h2, congrArg Prod.snd h2, h3, h4⟩
  · intro o
    obtain ⟨-, h1, h2, h3, h4, -, -, h5⟩ := hf o
    exact ⟨h1, h2, h3, h4, h5⟩

theorem keeps_changeBus (id : BusId)
    (hf : ∀ b, (f b).id = b.id ∧ (f b).exit = b.exit ∧ (f b).peer = b.peer ∧ (f b).dependents = b.dependents) :
    Keeps n (changeBus id f) := by
  refine .of fun hd h => ?_
  obtain ⟨b, hb, h⟩ := bind_ok.mp h
  cases h
  exact ⟨hd.editBus id hf, Nat.le_refl _⟩

theorem keeps_changeEntry (id : EntryId)
    (hf : ∀ e, (f e).id = e.id ∧ (f e).owner = e.owner ∧ (f e).deps = e.deps) : Keeps n (changeEntry id f) := by
  refine .of fun hd h => ?_
  obtain ⟨e, he, h⟩ := bind_ok.mp h
  cases h
  exact ⟨hd.editEntry id hf, Nat.le_refl _⟩

theorem keeps_changeTask (index : Int) (hf : ∀ t, (f t).id = t.id) : Keeps n (changeTask index f) := by
  refine .of fun hd h => ?_
  obtain ⟨t, ht, h⟩ := bind_ok.mp h
  cases h
  exact ⟨{ hd with taskIds := hd.taskIds.edit _ hf }, Nat.le_refl _⟩

theorem keeps_start (op : OpId) (source : BusId) : Keeps n (start op source) :=
  .then fun _ => .then fun _ => keeps_addDependency ..

theorem keeps_finish (mod : OpId) (tag : ExitTag) (op : OpId) : Keeps n (finish mod tag op) :=
  .then fun _ => .then fun _ => .then fun _ => keeps_addDependency ..

/-! ## Primitives -/

theorem keeps_addPorts (h0 : 0 ≤ op) (hlt : op < n) (count : Int) : Keeps n (addPorts op count) := by
  constructor
  intro d a d' hd hn h
  obtain ⟨o, ho⟩ : ∃ o, at? d.ops op = some o := at?_of_lt h0 (Int.lt_of_lt_of_le hlt hn)
  exact ⟨hd.addPorts ho h, Int.le_trans hn (Int.ofNat_le.mpr (addPorts_extends h).size), trivial⟩

theorem makes_newPrimitive (ho : owner < n) : Makes n (newPrimitive kind owner name inputs outputs latency) := by
  unfold newPrimitive
  split
  · exact .fault _
  · refine .bind (makes_addOp ho) fun id k hk hid => ?_
    refine .seq (keeps_addPorts hid.1 hid.2 _) fun _ => ?_
    refine .seq (keeps_addEntry ..) fun _ => ?_
    refine .seq (keeps_addExit ..) fun _ => ?_
    exact .pure fun j hj => ⟨hid.1, Int.lt_of_lt_of_le hid.2 hj⟩

theorem makes_newConstant (ho : owner < n) : Makes n (newConstant owner name value) := by
  refine .bind (makes_newPrimitive ho) fun id k _ hid => ?_
  refine .seq (keeps_changeOp _ fun _ => rfl) fun _ => ?_
  refine .then fun _ => .then fun _ => .then fun _ => ?_
  refine .seq (keeps_changeBus _ fun _ => ⟨rfl, rfl, rfl, rfl⟩) fun _ => ?_
  exact .pure fun j hj => ⟨hid.1, Int.lt_of_lt_of_le hid.2 hj⟩

theorem keeps_newResource (kind : ResourceKind) (name : String) (parallelReads : Bool) :
    Keeps n (newResource kind name parallelReads) := by
  refine .of fun hd h => ?_
  cases h
  refine ⟨{ hd with resourceIds := hd.resourceIds.push rfl, accesses := ?_ }, Nat.le_refl _⟩
  rw [view_push]
  exact hd.accesses.addHolder (view_size ..)

theorem newPrimitive_free {id : Int} (h : newPrimitive kind owner name inputs outputs latency d = .ok (id, d')) :
    d'.resources = d.resources ∧ view d'.ops Operation.accessed? id = some none := by
  obtain ⟨-, d1, d2, d3, e, x, h1, h2, h3, h4⟩ := newPrimitive_ok h
  obtain ⟨rfl, -, rfl⟩ := addOp_ok h1
  rw [addPorts_ok h2] at h3
  obtain ⟨-, -, rfl⟩ := addEntry_ok h3
  obtain ⟨-, -, rfl⟩ := addExit_ok h4
  refine ⟨rfl, ?_⟩
  rw [view_edit_same, view_edit_same, view_edit_same, view_adopt fun _ _ => rfl, view_push, put_self]
  · rfl
  all_goals exact fun _ => rfl

theorem WellFormed.setResource (hd : WellFormed d)
    (hr : at? d.resources r = some res) (hk : view d.ops Operation.accessed? k = some none) :
    WellFormed { d with
      ops := editAt d.ops k fun o => { o with resource := r }
      resources := editAt d.resources r fun r => { r with accesses := r.accesses ++ [k] } } := by
  obtain ⟨o, ho, -⟩ := view_some.mp hk
  have hne : r ≠ absent := fun e => by have := (at?_lt hr).1; rw [e] at this; exact absurd this (by decide)
  exact
    { hd with
      nesting := hd.nesting.edit _ fun _ => ⟨rfl, rfl, rfl, rfl, rfl⟩
      resourceIds := hd.resourceIds.edit _ fun _ => rfl
      ports := hd.ports.editLists fun _ => rfl
      exits := hd.exits.editLists fun _ => rfl
      entries := hd.entries.editLists fun _ => rfl
      accesses := by
        rw [view_edit hr, view_edit ho]
        simp only [Operation.accessed?, hne]
        refine hd.accesses.append (view_of _ hr) ?_
        intro j hj; rw [hk] at hj; cases hj
      outBufs := hd.outBufs_edit fun _ => rfl }

theorem isAccess_of_accessKinds {k : ResourceKind} (h : k.accessKinds? = some kinds) :
    kinds.1.isAccess = true ∧ kinds.2.isAccess = true := by
  cases k <;> cases h <;> exact ⟨rfl, rfl⟩

theorem newAccess_ok {id : OpId} (h : newAccess kind owner name resource latency d = .ok (id, d')) :
    ∃ r inputs outputs d1, at? d.resources resource = some r ∧ kind.isAccess = true ∧
      newPrimitive kind owner name inputs outputs latency d = .ok (id, d1) ∧
      d' = { d1 with
        ops := editAt d1.ops id fun o => { o with resource }
        resources := editAt d1.resources resource fun r => { r with accesses := r.accesses ++ [id] } } := by
  simp only [newAccess, build_bind_ok, ask_ok] at h
  obtain ⟨r, _, ⟨hr, rfl⟩, h⟩ := h
  cases hk : r.kind.accessKinds? with
  | none => rw [hk] at h; cases h
  | some kinds =>
  rw [hk] at h
  dsimp only at h
  split at h
  · cases h
  next known =>
  simp only [build_bind_ok, modify_ok] at h
  obtain ⟨_, d1, h1, u, d2, h2, u', _, rfl, rfl, rfl⟩ := h
  obtain ⟨-, rfl⟩ := changeOp_ok h2
  obtain ⟨read, write⟩ := isAccess_of_accessKinds hk
  have access : kind.isAccess = true := by
    by_cases e : kind = kinds.1
    · exact e ▸ read
    · have e' : kind = kinds.2 := by simpa [e] using known
      exact e' ▸ write
  exact ⟨r, _, _, d1, require_ok.mp hr, access, h1, rfl⟩

section
variable {owner : OpId} (ho : owner < n)
include ho

theorem makes_newAccess : Makes n (newAccess kind owner name resource latency) := by
  constructor
  intro d id d' hd hn h
  obtain ⟨r, _, _, d1, hr, -, h1, rfl⟩ := newAccess_ok h
  obtain ⟨w1, hs, hid⟩ := (makes_newPrimitive ho).run hd hn h1
  obtain ⟨er, free⟩ := newPrimitive_free h1
  refine ⟨w1.setResource (er ▸ hr) free, ?_⟩
  simpa only [size_editAt] using ⟨hs, hid⟩

/-! ## Modules -/

theorem makes_newFrame : Makes n (newFrame kind owner name inputs) := by
  constructor
  intro d id d' hd hn h
  obtain ⟨w, h1, h2⟩ := newFrame_ok hd (Int.lt_of_lt_of_le ho hn) h
  exact ⟨w, by omega, Int.le_trans (Int.natCast_nonneg _) h1, h2⟩

theorem makes_newModule : Makes n (newModule kind owner name inputs outputs latency) := by
  unfold newModule
  split
  · exact .fault _
  · refine .bind (makes_newFrame ho) fun id k _ hid => ?_
    refine .seq (keeps_addModuleExit ..) fun _ => ?_
    exact .pure fun j hj => ⟨hid.1, Int.lt_of_lt_of_le hid.2 hj⟩

theorem makes_newDecision : Makes n (newDecision owner name) := by
  refine .bind (makes_newFrame ho) fun id k _ hid => ?_
  refine .seq (keeps_addModuleExit ..) fun _ => .seq (keeps_addModuleExit ..) fun _ => ?_
  refine .then fun _ => .seq (keeps_finish ..) fun _ => .seq (keeps_finish ..) fun _ => ?_
  exact .pure fun j hj => ⟨hid.1, Int.lt_of_lt_of_le hid.2 hj⟩

end

theorem keeps_startSide (decision : OpId) (tag : ExitTag) (side : OpId) (inputs : List BusId) :
    Keeps n (startSide decision tag side inputs) :=
  .then fun _ => .seq (keeps_start ..) fun _ => .then fun _ =>
    .then fun _ => keeps_connectAll ..

theorem keeps_finishSide (side outBuf : OpId) (entry : EntryId) : Keeps n (finishSide side outBuf entry) :=
  .then fun _ => .then fun _ => .seq (keeps_addDependency ..) fun _ => keeps_connectAll ..

theorem makes_newBranch (ho : owner < n) : Makes n (newBranch owner name inputs outputs latency) := by
  refine .bind (makes_newFrame ho) fun id k _ hid => ?_
  refine .then fun ix => .seq (keeps_addModuleExit ..) fun bx => ?_
  refine .bind (makes_newDecision hid.2) fun decision k1 hk1 _ => ?_
  refine .seq (keeps_changeOp _ fun _ => rfl) fun _ => .seq (keeps_start ..) fun _ => ?_
  -- the sides
  have hid1 : id < k1 := Int.lt_of_lt_of_le hid.2 hk1
  refine .seq (makes_newModule hid1) fun trueSide => .seq (makes_newModule hid1) fun falseSide => ?_
  refine .seq (keeps_changeOp _ fun _ => rfl) fun _ => ?_
  refine .seq (keeps_startSide ..) fun _ => .seq (keeps_startSide ..) fun _ => ?_
  -- their ends
  refine .then fun ob => .then fun _ => .then fun _ => ?_
  refine .seq (keeps_changeEntry _ fun _ => ⟨rfl, rfl, rfl⟩) fun _ => ?_
  refine .then fun _ => .seq (keeps_addEntry ..) fun _ => ?_
  refine .seq (keeps_finishSide ..) fun _ => .seq (keeps_finishSide ..) fun _ => ?_
  exact .pure fun j hj => ⟨hid.1, Int.lt_of_lt_of_le hid1 hj⟩

/-! ### The stages of a loop -/

theorem newLoop_ok {id : OpId} (h : newLoop owner name inputs outputs latency d = .ok (id, d')) :
    ∃ e1 lx x e2 b e3 p e4 e5, newFrame .loop owner name inputs d = .ok (id, e1) ∧ e1.inBufExit id = .ok lx ∧
      addModuleExit id .done latency outputs e1 = .ok (x, e2) ∧
      Loop.makeBody id name inputs outputs lx.id e2 = .ok (b, e3) ∧
      Loop.fillBody b.body name inputs e3 = .ok (p, e4) ∧ Loop.wireBlock b p.1 p.2 e4 = .ok ((), e5) ∧
      Loop.startBody b id lx.done name e5 = .ok ((), d') := by
  simp only [newLoop, ↓ask_bind_ok, build_bind_ok, build_pure_ok] at h
  obtain ⟨_, e1, h1, lx, hlx, x, e2, h2, b, e3, h3, p, e4, h4, _, e5, h5, _, _, h6, rfl, rfl⟩ := h
  exact ⟨e1, lx, x, e2, b, e3, p, e4, e5, h1, hlx, h2, h3, h4, h5, h6⟩

theorem sound_makeBody (ho : loop < n) :
    Sound n (Loop.makeBody loop name inputs outputs drive) fun b k => 0 ≤ b.body ∧ b.body < k := by
  refine .bind (makes_newFrame ho) fun body k _ hbody => .then fun _ => ?_
  refine .seq (keeps_addModuleExit ..) fun _ => .seq (keeps_addModuleExit ..) fun _ => .seq (keeps_addEntry ..)
    fun _ => ?_
  refine .seq (keeps_changeEntry _ fun _ => ⟨rfl, rfl, rfl⟩) fun _ => .then fun _ => ?_
  refine .seq (keeps_changeEntry _ fun _ => ⟨rfl, rfl, rfl⟩) fun _ => ?_
  exact .pure fun j hj => ⟨hbody.1, Int.lt_of_lt_of_le hbody.2 hj⟩

theorem keeps_fillBody (ho : body < n) : Keeps n (Loop.fillBody body name inputs) :=
  .seq (makes_newDecision ho) fun _ => .seq (makes_newModule ho) fun _ =>
    .seq (keeps_changeOp _ fun _ => rfl) fun _ => .pure fun _ _ => trivial

theorem keeps_wireBlock : Keeps n (Loop.wireBlock b decision block) := by
  refine .seq (keeps_start ..) fun _ => .then fun _ => .seq (keeps_start ..) fun _ => ?_
  refine .then fun _ => .then fun _ => .seq (keeps_connectAll ..) fun _ => ?_
  refine .then fun _ => .seq (keeps_finish ..) fun _ => .then fun _ => ?_
  refine .then fun _ => .seq (keeps_connectAll ..) fun _ => .then fun _ => ?_
  exact .then fun _ => .then fun _ => .seq (keeps_addDependency ..) fun _ => .pure fun _ _ => trivial

theorem keeps_startBody (ho : loop < n) : Keeps n (Loop.startBody b loop source name) := by
  refine .seq (keeps_changeOp _ fun _ => rfl) fun _ => .seq (keeps_start ..) fun _ => ?_
  refine .seq (makes_newPrimitive ho) fun _ => .seq (keeps_changeOp _ fun _ => rfl) fun _ => .then fun _ => ?_
  refine .then fun _ => .seq (keeps_changeEntry _ fun _ => ⟨rfl, rfl, rfl⟩) fun _ => .then fun _ => ?_
  refine .then fun _ => .seq (keeps_connect ..) fun _ => .then fun _ => .then fun _ => ?_
  exact .seq (keeps_addDependency ..) fun _ => .seq (keeps_finish ..) fun _ => .pure fun _ _ => trivial

theorem makes_newLoop (ho : owner < n) : Makes n (newLoop owner name inputs outputs latency) := by
  refine .bind (makes_newFrame ho) fun id k _ hid => .then fun lx => .seq (keeps_addModuleExit ..) fun _ => ?_
  refine .bind (sound_makeBody hid.2) fun b k1 hk hb => .seq (keeps_fillBody hb.2) fun p => .seq keeps_wireBlock
    fun _ => ?_
  have hid1 := Int.lt_of_lt_of_le hid.2 hk
  exact .seq (keeps_startBody hid1) fun _ => .pure fun j hj => ⟨hid.1, Int.lt_of_lt_of_le hid1 hj⟩

/-! ## Tasks -/

theorem keeps_pushTask {t : Design → Task} (ht : ∀ d, (t d).id = d.tasks.size) :
    Keeps n (do let d ← get; modify fun e => { e with tasks := e.tasks.push (t d) }; return t d : Build Task) := by
  refine .of fun hd h => ?_
  cases h
  exact ⟨{ hd with taskIds := hd.taskIds.push (ht _) }, Nat.le_refl _⟩

theorem keeps_newTask (name : String) (inputs outputs : Int) (latency : Latency) (balanced : Bool) (hn : 0 ≤ n) :
    Keeps n (newTask name inputs outputs latency balanced) := by
  have top : absent < n := Int.lt_of_lt_of_le (by decide) hn
  refine .bind (makes_newModule top) fun call k _ hcall => .then fun cx => ?_
  refine .seq (makes_newModule hcall.2) fun body => .seq (keeps_changeOp _ fun _ => rfl) fun _ => ?_
  refine .seq (keeps_start ..) fun _ => .then fun b => .then fun _ => ?_
  refine .seq (keeps_connectAll ..) fun _ => .then fun ob => .seq (keeps_finish ..) fun _ => ?_
  refine .then fun bx => .then fun _ => .seq (keeps_connectAll ..) fun _ => ?_
  exact keeps_pushTask fun _ => rfl

theorem makes_newTaskCall (ho : owner < n) : Makes n (newTaskCall owner name task) := by
  refine .then fun t => .then fun c => .then fun x => ?_
  refine .bind (makes_newModule ho) fun id k _ hid => .seq (keeps_changeOp _ fun _ => rfl) fun _ => ?_
  exact .pure fun j hj => ⟨hid.1, Int.lt_of_lt_of_le hid.2 hj⟩

end Datapath
