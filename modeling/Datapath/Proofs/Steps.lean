import Datapath.Loop.Wiring
import Datapath.Proofs.Keeps
import Datapath.Schedule

/-!
# What passes do to a design, step by step

A pass changes a design by a few kinds of small steps. A relation between designs that allows each of
them, and that one may chain, relates the designs before and after any pass, whatever it answers.
-/

namespace Datapath

section
variable {α β : Type} {R : Design → Design → Prop}

structure Along (R : Design → Design → Prop) (m : Build α) : Prop where
  run : ∀ {d a d'}, m d = .ok (a, d') → R d d'

structure Chains (R : Design → Design → Prop) : Prop where
  refl : ∀ d, R d d
  trans : ∀ {d e d'}, R d e → R e d' → R d d'

/-- The relation holds along the small step of balancing and of resolving conflicts. -/
structure Balances (R : Design → Design → Prop) : Prop extends Chains R where
  depend : ∀ {entry kind source target clocks}, Along R (addDependency entry kind source target clocks)

/-- The relation holds along the small steps of wiring, which makes registers and latches in operations of `P`. -/
structure Wires (P : OpId → Prop) (R : Design → Design → Prop) : Prop extends Chains R where
  depend : ∀ {entry kind source target clocks}, Along R (addDependency entry kind source target clocks)
  drive : ∀ {id drive}, Along R (changeEntry id fun e => { e with drive })
  hold : ∀ {kind owner name inputs outputs latency}, P owner → kind = .latch ∨ kind = .reg →
    Along R (newPrimitive kind owner name inputs outputs latency)

structure Bypasses (R : Design → Design → Prop) : Prop extends Balances R where
  reroute : ∀ {dep source}, Along R (relocate dep source)
  release : ∀ {id}, Along R (changeOp id fun o => { o with flopNeeded := false })

structure Spaces (R : Design → Design → Prop) : Prop extends Chains R where
  space : ∀ {index goSpacing}, Along R (changeTask index fun t => { t with goSpacing })

structure Signals (R : Design → Design → Prop) : Prop extends Chains R where
  stall : ∀ {id stalls}, Along R (changeOp id fun o => { o with stalls })
  signal : ∀ {index op}, Along R (changeRegion index (·.addStallSignal op))

/-- The relation holds along the small steps of tracking stalls, which start from a design without regions. -/
structure Tracks (R : Design → Design → Prop) : Prop extends Signals R where
  create : ∀ {resource start finish}, Along R (Region.create resource start finish).run
  reset : ∀ {d : Design}, R d (Region.reset d)

structure Walks (R : Design → Design → Prop) (w : Branch.Walk α) : Prop where
  run : ∀ records, Along R (w.run records).run

namespace Chains

variable (hR : Chains R)
include hR

theorem pure (a : α) : Along R (pure a : Build α) := by
  constructor
  intro d b d' h
  rw [(build_pure_ok.mp h).2]
  exact hR.refl d

theorem bind {m : Build α} {f : α → Build β} (hm : Along R m) (hf : ∀ a, Along R (f a)) : Along R (m >>= f) := by
  constructor
  intro d b d' h
  obtain ⟨a, e, h1, h2⟩ := build_bind_ok.mp h
  exact hR.trans (hm.run h1) ((hf a).run h2)

theorem ask (q : Design → Except Fault α) : Along R (ask q) := by
  constructor
  intro d a d' h
  rw [(ask_ok.mp h).2]
  exact hR.refl d

theorem ask_bind {q : Design → Except Fault α} {f : α → Build β} (hf : ∀ a, Along R (f a)) :
    Along R (Datapath.ask q >>= f) :=
  hR.bind (hR.ask q) hf

theorem closed : Closed Build fun {_} m => Along R m := ⟨hR.pure, hR.bind⟩

theorem discard {m : Build α} (hm : Along R m) : Along R (discard m) := hR.bind hm fun _ => hR.pure _

/-! ### With errors -/

theorem passPure (a : α) : Along R (Pure.pure a : Pass α).run := hR.pure _

theorem passBind {p : Pass α} {f : α → Pass β} (hp : Along R p.run) (hf : ∀ a, Along R (f a).run) :
    Along R (p >>= f).run := by
  refine hR.bind hp fun r => ?_
  cases r with
  | error e => exact hR.pure _
  | ok a => exact hf a

theorem passClosed : Closed Pass fun {_} p => Along R p.run := ⟨hR.passPure, hR.passBind⟩

theorem ofBuild {m : Build α} (hm : Along R m) : Along R (Pass.ofBuild m).run := hR.bind hm fun _ => hR.pure _

theorem look (q : Design → Except Fault α) : Along R (Pass.look q).run := hR.ofBuild (hR.ask q)

theorem look_bind {q : Design → Except Fault α} {f : α → Pass β} (hf : ∀ a, Along R (f a).run) :
    Along R (Pass.look q >>= f).run := hR.passBind (hR.look q) hf

theorem query (q : Design → Query α) : Along R (Pass.query q).run := hR.ask fun d => (q d).run

theorem get : Along R (MonadState.get : Pass Design).run := hR.look fun d => .ok d

theorem throw (e : Error) : Along R (MonadExcept.throw e : Pass α).run := hR.pure _

theorem within (part : String) {p : Pass α} (hp : Along R p.run) : Along R (Pass.within part p).run := by
  refine hR.bind hp fun r => ?_
  cases r with
  | error e => exact hR.pure _
  | ok a => exact hR.pure _

theorem guard {c : Prop} [Decidable c] {p : Pass PUnit} {f : PUnit → Pass β} (hp : Along R p.run)
    (hf : Along R (f ⟨⟩).run) : Along R (if c then p >>= f else f ⟨⟩).run := by
  split
  · exact hR.passBind hp fun _ => hf
  · exact hf

/-! ### With records -/

theorem walk_lift {p : Pass α} (hp : Along R p.run) : Walks R (liftM p : Branch.Walk α) :=
  ⟨fun _ => hR.passBind hp fun _ => hR.passPure _⟩

theorem walkClosed : Closed Branch.Walk fun {_} w => Walks R w where
  pure _ := ⟨fun _ => hR.passPure _⟩
  bind hw hf := ⟨fun records => hR.passBind (hw.run records) fun r => (hf r.1).run r.2⟩

end Chains

namespace Balances

variable (hR : Balances R)
include hR

theorem delay (mod : OpId) : Along R (Branch.delay mod).run := by
  refine hR.look_bind fun o => ?_
  split
  · refine hR.look_bind fun go => hR.look_bind fun ob => hR.look_bind fun deps => ?_
    split
    · exact hR.look_bind fun _ => hR.passBind (hR.ofBuild hR.depend) fun _ => hR.passPure _
    · exact hR.passPure _
  · exact hR.query _

end Balances

/-! ## Branches -/

/-- The relation holds along the delays of branches, if operations are read as `Q` says. -/
structure Judges (o : Options) (Q : OpId → Operation → Prop) (R : Design → Design → Prop) :
    Prop extends Chains R where
  read : ∀ {β : Type} {op} {f : Operation → Branch.Walk β}, (∀ o, Q op o → Walks R (f o)) →
    Walks R (liftM (Pass.look (·.op op)) >>= f)
  delay : ∀ {op b b'}, o.balance = true → Q op b → b.kind = .branch → Q op b' →
    ∀ mod ∈ [b'.trueSide, b'.falseSide, op], Along R (Branch.delay mod).run

namespace Judges

variable {o : Options} {Q : OpId → Operation → Prop} (hR : Judges o Q R)
include hR

theorem walk_component (on : o.balance = true) {visit : Branch.Visit} (hv : ∀ op inLoop, Walks R (visit op inLoop))
    (op : OpId) (inLoop : Bool) : Walks R (Branch.component visit op inLoop) := by
  have walk := hR.walkClosed
  have look : ∀ {γ : Type} (q : Design → Except Fault γ), Walks R (liftM (Pass.look q) : Branch.Walk γ) :=
    fun q => hR.walk_lift (hR.look q)
  have children : ∀ op inLoop skip, Walks R (Branch.children visit op inLoop skip) := fun op inLoop skip =>
    walk.bind (look _) fun _ => walk.bind (walk.mapM (fun _ => hv ..) _) fun _ => walk.pure _
  have leaving : ∀ op ls, Walks R (Branch.leaving op ls) := fun op ls => walk.bind (look _) fun _ => walk.pure _
  have contents : ∀ op inLoop, Walks R (Branch.contents visit op inLoop) := fun op inLoop =>
    walk.bind (children ..) fun _ => leaving ..
  refine hR.read fun b hb => ?_
  split
  · exact contents ..
  · next hk =>
    unfold Branch.branch
    split
    · exact contents ..
    refine hR.read fun b' hb' => walk.bind (contents ..) fun ts => walk.bind (contents ..) fun fs => ?_
    refine walk.bind (children ..) fun rest => ?_
    have tail : ∀ r ls, Walks R (do modify (· ++ [r]); Branch.leaving op ls) := fun _ _ =>
      walk.bind ⟨fun _ => hR.passPure _⟩ fun _ => leaving ..
    have delay := hR.delay on hb hk hb'
    dsimp only
    split
    · exact tail ..
    · exact walk.bind (hR.walk_lift (delay _ (by simp))) fun _ => tail ..
    · exact walk.bind (hR.walk_lift (delay _ (by simp))) fun _ => tail ..
    · exact walk.bind (hR.walk_lift (delay _ (by simp))) fun _ => tail ..
  · refine walk.bind (children ..) fun own => walk.bind (look _) fun o => ?_
    split
    · exact walk.bind (walk.pure _) fun _ => leaving ..
    · exact walk.bind (contents ..) fun _ => leaving ..
  · split
    · exact contents ..
    split
    · exact walk.bind (look _) fun _ => hR.walk_lift (hR.throw _)
    · exact look _

theorem walk_visit (on : o.balance = true) (levels : Nat) (op : OpId) (inLoop : Bool) :
    Walks R (Branch.visit levels op inLoop) := by
  induction levels generalizing op inLoop with
  | zero => exact ⟨fun _ => ⟨fun h => nomatch h⟩⟩
  | succ levels ih => exact hR.walk_component on ih op inLoop

theorem balance : Along R (Branch.balance o).run := by
  unfold Branch.balance
  split
  · exact hR.passPure _
  next on =>
  refine hR.passBind hR.get fun d => hR.passClosed.foldlM (fun records t => ?_) _ _
  exact hR.passBind (hR.within _ ((hR.walk_visit (by simpa using on) ..).run _)) fun _ => hR.passPure _

end Judges

namespace Balances

variable (hR : Balances R)
include hR

theorem balance (o : Options) : Along R (Branch.balance o).run := Judges.balance (Q := fun _ _ => True)
    ⟨hR.toChains, fun hf => hR.walkClosed.bind (hR.walk_lift (hR.look _)) fun o => hf o trivial, fun _ _ _ _ _ _ =>
      hR.delay _⟩

/-! ## Conflicts -/

theorem delayFirst (access : OpId) : Along R (Loop.delayFirst access).run := by
  refine hR.look_bind fun o => hR.guard (hR.query _) ?_
  refine hR.look_bind fun _ => hR.look_bind fun _ => ?_
  exact hR.passBind (hR.ofBuild hR.depend) fun _ => hR.passPure _

theorem delayLast (access : OpId) : Along R (Loop.delayLast access).run := by
  refine hR.look_bind fun o => hR.guard (hR.query _) ?_
  refine hR.look_bind fun mx => hR.look_bind fun ax => ?_
  refine hR.guard (hR.query _) <| hR.guard (hR.query _) <| hR.look_bind fun _ => ?_
  refine hR.look_bind fun _ => hR.look_bind fun _ => ?_
  exact hR.passBind (hR.ofBuild hR.depend) fun _ => hR.passPure _

theorem delayOne (heads : Bool) (access : OpId) :
    Along R (if heads then Loop.delayFirst access else Loop.delayLast access).run := by
  cases heads with
  | true => exact hR.delayFirst access
  | false => exact hR.delayLast access

theorem delayAll (heads : Bool) (corr : Loop.Correlation) (count : Nat) (accesses : List OpId) :
    Along R (Loop.delayAll heads corr count accesses) := by
  induction accesses generalizing count with
  | nil => exact hR.pure _
  | cons a rest ih =>
    unfold Loop.delayAll
    split
    · exact hR.ask_bind fun _ => hR.pure _
    · refine hR.bind (hR.delayOne heads _) fun r => ?_
      cases r with
      | error e => exact hR.pure _
      | ok u => exact ih _

end Balances

namespace Wires

variable {P : OpId → Prop} {lp : Operation} (hR : Wires P R)
include hR

/-! ## Wiring -/

theorem connect (entry : EntryId) (source : BusId) (target : PortId) : Along R (connect entry source target) :=
  hR.ask_bind fun _ => hR.depend

theorem wireInitial (hlp : P lp.id) (ways : Loop.Ways) (feedback : Loop.Links) (port : PortId) (bus : BusId) :
    Along R (Loop.wireInitial lp ways feedback port bus) := by
  unfold Loop.wireInitial
  split
  · exact hR.bind (hR.connect ..) fun _ => hR.pure _
  · refine hR.ask_bind fun p => hR.bind (hR.hold hlp (.inl rfl)) fun latch => ?_
    refine hR.ask_bind fun la => hR.ask_bind fun _ => hR.ask_bind fun _ => ?_
    refine hR.bind hR.drive fun _ => hR.ask_bind fun _ => hR.bind hR.depend fun _ => ?_
    refine hR.ask_bind fun _ => hR.bind hR.depend fun _ => hR.ask_bind fun _ => ?_
    exact hR.bind (hR.connect ..) fun _ => hR.bind (hR.connect ..) fun _ => hR.pure _

theorem wireFeedback (hlp : P lp.id) (ways : Loop.Ways) (port : PortId) (bus : BusId) :
    Along R (Loop.wireFeedback lp ways port bus) := by
  refine hR.ask_bind fun p => hR.bind (hR.hold hlp (.inr rfl)) fun reg => ?_
  refine hR.ask_bind fun rg => hR.ask_bind fun _ => hR.ask_bind fun _ => ?_
  refine hR.bind hR.drive fun _ => hR.ask_bind fun _ => hR.bind hR.depend fun _ => ?_
  exact hR.ask_bind fun _ => hR.bind hR.depend fun _ => hR.pure _

theorem wireBody (hlp : P lp.id) (bd : Operation) (c : Loop.Classes) : Along R (Loop.wireBody lp bd c).run := by
  refine hR.passBind (hR.query _) fun ways => hR.passBind (hR.query _) fun _ => ?_
  refine hR.passBind (hR.ofBuild (hR.closed.mapM (fun _ => hR.wireInitial hlp ..) _)) fun latches => ?_
  exact hR.passBind (hR.ofBuild (hR.closed.mapM (fun _ => hR.wireFeedback hlp ..) _)) fun _ => hR.passPure _

theorem wireOutputs (loop : OpId) (links : Loop.Links) : Along R (Loop.wireOutputs loop links).run := by
  refine hR.look_bind fun ob => hR.guard (hR.query _) ?_
  refine hR.passClosed.mapM (fun l => hR.look_bind fun p => hR.guard (hR.query _) ?_) _
  exact hR.look_bind fun _ => hR.ofBuild (hR.connect ..)

end Wires

theorem Wires.wire (hR : Wires (fun _ => True) R) (loop : OpId) (feeds : List Loop.Feed) :
    Along R (Loop.wire loop feeds).run := by
  refine hR.look_bind fun lp => hR.guard (hR.query _) ?_
  refine hR.look_bind fun bd => hR.passBind (hR.query _) fun exits => hR.passBind (hR.query _) fun classes => ?_
  refine hR.passBind (hR.within _ (hR.wireBody trivial ..)) fun made => hR.passBind (hR.wireOutputs ..) fun _ => ?_
  exact hR.passBind (hR.query _) fun _ => hR.passPure _

namespace Bypasses

variable (hR : Bypasses R)
include hR

/-! ## Loop registers -/

theorem bypassAll (cs : List OpId) : Along R (cs.forM fun c => do
    let o ← ask (·.op c)
    if o.kind == .reg then Loop.bypass o) := by
  refine hR.closed.forM (fun c => hR.ask_bind fun o => ?_) _
  split
  · refine hR.ask_bind fun deps => ?_
    split
    · exact hR.ask_bind fun _ => hR.ask_bind fun _ => hR.closed.forM (fun _ => hR.reroute) _
    · exact hR.pure _
  · exact hR.pure _

theorem removeRegisters (loop : OpId) : Along R (Loop.removeRegisters loop) :=
  hR.ask_bind fun lp => hR.bind hR.release fun _ => hR.bypassAll lp.children

theorem removeFrom (o : Options) (loop : OpId) : Along R (Loop.removeFrom o loop).run := by
  refine hR.look_bind fun lp => hR.passBind (hR.query _) fun report => ?_
  unfold Loop.decideOn
  split
  · exact hR.passPure _
  split
  · exact hR.passBind (hR.ofBuild (hR.removeRegisters _)) fun _ => hR.passPure _
  split
  · exact hR.passPure _
  refine hR.passBind (hR.query _) fun cs => ?_
  split
  · exact hR.passPure _
  refine hR.passBind hR.get fun d => hR.passBind (hR.ofBuild (hR.delayAll ..)) fun resolved => ?_
  split
  · exact hR.throw _
  · exact hR.passBind (hR.ofBuild (hR.removeRegisters _)) fun _ => hR.passPure _

theorem removeNext (o : Options) (r : Loop.Removal) (id : OpId) : Along R (Loop.removeNext o r id).run := by
  refine hR.look_bind fun carries => ?_
  split
  · refine hR.passBind (hR.removeFrom ..) fun count => ?_
    split
    · exact hR.passPure _
    · exact hR.passPure _
  · exact hR.passPure _

theorem removeFlops (o : Options) : Along R (Loop.removeFlops o).run := by
  unfold Loop.removeFlops
  split
  · exact hR.passPure _
  · exact hR.passBind hR.get fun d => hR.passClosed.foldlM (hR.removeNext o) _ _

end Bypasses

theorem Spaces.analyze (hR : Spaces R) : Along R (Throughput.analyze).run := by
  refine hR.passBind hR.get fun d => hR.passClosed.mapM (fun t => ?_) _
  refine hR.passBind (hR.within _ (hR.query _)) fun r => ?_
  exact hR.passBind (hR.ofBuild hR.space) fun _ => hR.passPure _

/-! ## Regions -/

theorem Chains.register (hR : Chains R) (signal : ∀ {index op}, Along R (changeRegion index (·.addStallSignal op)))
    (t : Region.Tracker) (op : OpId) : Along R (t.register op) := by
  have stallAll : ∀ ids op, Along R (Region.Tracker.stallAll ids op) := fun ids op =>
    hR.closed.forM (fun _ => signal) _
  refine hR.ask_bind fun o => hR.ask_bind fun role => hR.ask_bind fun targets => ?_
  refine hR.bind (stallAll ..) fun _ => hR.bind (stallAll ..) fun _ => ?_
  exact hR.ask_bind fun exposed => hR.pure _

theorem Chains.identify (hR : Chains R)
    (create : ∀ {resource start finish}, Along R (Region.create resource start finish).run) (task : Task) :
    Along R (Region.identify task).run := by
  refine hR.passBind (hR.query _) fun log => ?_
  refine hR.passBind (hR.passClosed.mapM (fun r => ?_) _) fun found => hR.passPure _
  unfold Region.identifyOne
  split
  · exact hR.passPure _
  split
  · exact hR.passPure _
  · exact hR.passBind create fun p => hR.look_bind fun _ => hR.passPure _

namespace Signals

variable (hR : Signals R)
include hR

theorem register (t : Region.Tracker) (op : OpId) : Along R (t.register op) := hR.toChains.register hR.signal t op

theorem track (regions : List Int) (levels : Nat) (mod : OpId) : Along R (Region.track regions levels mod).run := by
  induction levels generalizing mod with
  | zero => exact ⟨fun h => nomatch h⟩
  | succ levels ih =>
    refine hR.look_bind fun m => hR.passBind (hR.query _) fun order => ?_
    refine hR.passBind (hR.ofBuild (hR.register ..)) fun t => ?_
    refine hR.passBind (hR.passClosed.foldlM (fun t c => hR.look_bind fun o => ?_) _ _) fun t => ?_
    · split
      · exact hR.passBind (ih c) fun _ => hR.ofBuild (hR.register ..)
      · exact hR.ofBuild (hR.register ..)
    · exact hR.look_bind fun _ => hR.ofBuild hR.stall

end Signals

theorem Tracks.of_regions (hR : Chains R) (stall : ∀ {id stalls}, Along R (changeOp id fun o => { o with stalls }))
    (regions : ∀ {d : Design} {regions}, R d { d with regions }) (reset : ∀ {d : Design}, R d (Region.reset d)) :
    Tracks R where
  toChains := hR
  stall := stall
  signal := ⟨fun h => by
    obtain ⟨p, -, h⟩ := bind_ok.mp h
    cases h
    exact regions⟩
  create :=
    hR.passBind (hR.query _) fun p => hR.passBind ⟨fun h => by cases h; exact regions⟩ fun _ => hR.passPure _
  reset := reset

theorem Tracks.trackStalls (hR : Tracks R) : Along R (Region.trackStalls).run := by
  have reset : Along R (modify Region.reset : Pass PUnit).run := by
    constructor
    intro d a d' h
    cases h
    exact hR.reset
  refine hR.passBind reset fun _ => hR.passBind hR.get fun d => ?_
  refine hR.passBind (hR.passClosed.forM (fun t => hR.within _ ?_) _) fun _ => ?_
  · exact hR.passBind (hR.identify hR.create _) fun ps => hR.track ..
  · exact hR.passBind hR.get fun _ => hR.passPure _

end

/-! ## Well-formed designs -/

def Thrives (n : Int) (d d' : Design) : Prop := WellFormed d → n ≤ d.ops.size → WellFormed d' ∧ n ≤ d'.ops.size

section
variable {α β : Type} {n : Int}

theorem Thrives.chains (n : Int) : Chains (Thrives n) where
  refl _ hd hn := ⟨hd, hn⟩
  trans h h' hd hn := h' (h hd hn).1 (h hd hn).2

theorem Sound.along {m : Build α} {Q : α → Int → Prop} (h : Sound n m Q) : Along (Thrives n) m :=
  ⟨fun ran hd hn => ⟨(h.run hd hn ran).1, (h.run hd hn ran).2.1⟩⟩

theorem Along.keeps {m : Build α} (h : Along (Thrives n) m) : Keeps n m :=
  ⟨fun hd hn ran => ⟨(h.run ran hd hn).1, (h.run ran hd hn).2, trivial⟩⟩

theorem Thrives.balances (n : Int) : Balances (Thrives n) :=
  { Thrives.chains n with depend := (keeps_addDependency ..).along }

theorem Thrives.bypasses (n : Int) : Bypasses (Thrives n) :=
  { Thrives.balances n with
    reroute := (keeps_relocate ..).along
    release := (keeps_changeOp _ fun _ => by rfl).along }

theorem Thrives.wires (n : Int) : Wires (· < n) (Thrives n) :=
  { Thrives.balances n with
    drive := (keeps_changeEntry _ fun _ => by exact ⟨rfl, rfl, rfl⟩).along
    hold := fun ho _ => (makes_newPrimitive ho).along }

theorem Branch.keeps_delay (mod : OpId) : Keeps n (delay mod).run := ((Thrives.balances n).delay mod).keeps

theorem Branch.keeps_balance (o : Options) : Keeps n (balance o).run := ((Thrives.balances n).balance o).keeps

theorem Loop.keeps_delayOne (heads : Bool) (a : OpId) : Keeps n (if heads then delayFirst a else delayLast a).run :=
  ((Thrives.balances n).delayOne heads a).keeps

theorem Loop.keeps_delayAll (heads : Bool) (corr : Correlation) (count : Nat) (accesses : List OpId) :
    Keeps n (delayAll heads corr count accesses) :=
  ((Thrives.balances n).delayAll heads corr count accesses).keeps

theorem Loop.keeps_removeFlops (o : Options) : Keeps n (removeFlops o).run :=
  ((Thrives.bypasses n).removeFlops o).keeps

theorem Throughput.keeps_analyze : Keeps n analyze.run :=
  (Spaces.analyze { Thrives.chains n with space := (keeps_changeTask _ fun _ => by rfl).along }).keeps

theorem Loop.keeps_wire (loop : OpId) (feeds : List Feed) : Keeps n (wire loop feeds).run := by
  unfold wire Pass.look Pass.ofBuild
  rw [ExceptT.run_bind_lift]
  refine .bind (sound_op loop) fun lp k _ hlp => ?_
  have c := Thrives.wires k
  refine Along.keeps (c.guard (c.query _) ?_)
  refine c.passBind (c.look _) fun bd => c.passBind (c.query _) fun exits => c.passBind (c.query _) fun classes =>
    ?_
  refine c.passBind (c.within _ (c.wireBody hlp ..)) fun made => c.passBind (c.wireOutputs ..) fun outputs => ?_
  exact c.passBind (c.query _) fun _ => c.passPure _

/-! ## Regions -/

namespace Region

variable {d : Design}

theorem keeps_changeRegion (index : Int) {f : Region → Region} (hf : ∀ p, (f p).id = p.id) :
    Keeps n (changeRegion index f) := by
  refine .of fun hd h => ?_
  obtain ⟨p, hp, h⟩ := bind_ok.mp h
  cases h
  exact ⟨{ hd with regionIds := hd.regionIds.edit _ hf }, Nat.le_refl _⟩

theorem describe_id {resource : ResId} {start finish : List OpId} {p : Region}
    (h : (describe d resource start finish).run = .ok (.ok p)) : p.id = d.regions.size := by
  simp only [describe, query_bind_ok, query_pure_ok] at h
  obtain ⟨_, -, _, -, _, -, _, -, rfl⟩ := h
  rfl

theorem keeps_create (resource : ResId) (start finish : List OpId) :
    Keeps n (create resource start finish).run := by
  refine Sound.of fun {d b d'} hd h => ?_
  obtain ⟨r, e, h1, h2⟩ := build_bind_ok.mp h
  obtain ⟨_, hp, h1⟩ := bind_ok.mp h1
  cases h1
  cases r with
  | error e =>
    cases h2
    exact ⟨hd, Nat.le_refl _⟩
  | ok p =>
    cases h2
    exact ⟨{ hd with regionIds := hd.regionIds.push (describe_id hp) }, Nat.le_refl _⟩

theorem wellFormed_reset (hd : WellFormed d) : WellFormed (reset d) := by
  have same : ∀ {β : Type} {g : Operation → β}, (∀ o, g { o with stalls := [] } = g o) →
      view (reset d).ops g = view d.ops g := fun hg => view_map_same _ hg
  have back : ∀ {i o}, at? (reset d).ops i = some o →
      ∃ m, at? d.ops i = some m ∧ m.id = o.id ∧ m.owner = o.owner := by
    intro i o ho
    have := view_of (fun o => (o.id, o.owner)) ho
    rw [same fun _ => rfl] at this
    obtain ⟨m, hm, e⟩ := view_some.mp this
    exact ⟨m, hm, Prod.mk.inj e⟩
  have nesting : Nesting (reset d).ops :=
    { ids := by
        intro i o ho
        obtain ⟨m, hm, e, -⟩ := back ho
        rw [← e]; exact hd.nesting.ids i m hm
      older := by
        intro i o ho
        obtain ⟨m, hm, -, e⟩ := back ho
        rw [← e]; exact hd.nesting.older hm
      children := by
        rw [same fun _ => rfl, same fun _ => rfl]
        exact hd.nesting.children
      inBufs := by
        intro i b hb hne
        rw [same fun _ => rfl] at hb ⊢
        exact hd.nesting.inBufs hb hne }
  exact
    { hd with
      nesting
      regionIds := .empty
      ports := by rw [same fun _ => rfl]; exact hd.ports
      exits := by rw [same fun _ => rfl]; exact hd.exits
      entries := by rw [same fun _ => rfl]; exact hd.entries
      accesses := by rw [same fun _ => rfl]; exact hd.accesses
      outBufs := by
        intro i x hx hne
        rw [same fun _ => rfl]
        exact hd.outBufs hx hne }

theorem keeps_trackStalls : Keeps n trackStalls.run := Along.keeps <| Tracks.trackStalls
    { Thrives.chains n with
      stall := (keeps_changeOp _ fun _ => by rfl).along
      signal := (keeps_changeRegion _ fun _ => by rfl).along
      create := (keeps_create ..).along
      reset := fun hd hn => ⟨wellFormed_reset hd, by rw [reset, Array.size_map]; exact hn⟩ }

end Region

end

end Datapath

/-! ## Wiring -/

namespace Datapath.Loop

variable {d d' : Design} {lp : Operation} {ways : Ways} {fb : Links} {port : PortId} {bus : BusId}

def Attaches (i : EntryId) (b : BusId) (p : PortId) (d d' : Design) : Prop :=
  ∃ kind clocks id, addDependency i kind b p clocks d = .ok (id, d')

/-- An operation `c` with the one entry `i` is added to its owner, and an exit is to drive the entry. -/
inductive Installed (kind : Kind) (owner : OpId) (inputs : Int) (c : OpId) (o : Operation) (i : EntryId)
    (d d' : Design) : Prop where
  | intro {name : String} {latency : Latency} {drive : ExitId} {e : Design}
      (made : newPrimitive kind owner name inputs 1 latency d = .ok (c, e)) (op : e.op c = .ok o)
      (first : o.firstEntry = .ok i) (driven : changeEntry i (fun n => { n with drive }) e = .ok ((), d'))

theorem attaches_connect {i : EntryId} {id : DepId} (h : connect i bus port d = .ok (id, d')) :
    Attaches i bus port d d' := by
  obtain ⟨p, -, h⟩ := ask_bind_ok.mp h
  exact ⟨_, _, _, h⟩

theorem wireInitial_steps {r : Option (PortId × OpId)} (h : wireInitial lp ways fb port bus d = .ok (r, d')) :
    fb.has port = true ∧ Attaches ways.initial bus port d d' ∨
    fb.has port = false ∧ ∃ c o i p q held e1 e2 e3 e4, Installed .latch lp.id 2 c o i d e1 ∧
      Attaches i ways.start p e1 e2 ∧ Attaches i bus q e2 e3 ∧
      (do (← e3.exit (← o.firstExit)).firstBus) = Except.ok held ∧ Attaches ways.feedback held port e3 e4 ∧
      Attaches ways.initial held port e4 d' := by
  unfold wireInitial at h
  by_cases known : fb.has port = true
  · rw [if_pos known] at h
    obtain ⟨_, e, h1, h⟩ := build_bind_ok.mp h
    cases h
    exact .inl ⟨known, attaches_connect h1⟩
  · rw [if_neg known] at h
    simp only [↓ask_bind_ok, build_bind_ok, build_pure_ok] at h
    obtain ⟨p, -, latch, e1, made, la, op, entry, first, drive, -, _, e2, driven, p0, -, _, e3, h1, p1, -, _, e4,
      h2, held, hb, _, e5, h3, _, e6, h4, rfl, rfl⟩ := h
    refine .inr ⟨by simpa using known, latch, la, entry, p0, p1, held, e2, e3, e4, e5, ⟨made, op, first, driven⟩,
      ?_⟩
    exact ⟨⟨_, _, _, h1⟩, ⟨_, _, _, h2⟩, hb, attaches_connect h3, attaches_connect h4⟩

theorem wireFeedback_steps {r : PortId × OpId} (h : wireFeedback lp ways port bus d = .ok (r, d')) :
    ∃ c o i p held e1 e2, Installed .reg lp.id 1 c o i d e1 ∧ Attaches i bus p e1 e2 ∧
      Attaches ways.feedback held port e2 d' := by
  unfold wireFeedback at h
  simp only [↓ask_bind_ok, build_bind_ok, build_pure_ok] at h
  obtain ⟨p, -, reg, e1, made, rg, op, entry, first, drive, -, _, e2, driven, p0, -, _, e3, h1, held, -, _, e4, h2,
    rfl, rfl⟩ := h
  exact ⟨reg, rg, entry, p0, held, e2, e3, ⟨made, op, first, driven⟩, ⟨_, _, _, h1⟩, ⟨_, _, _, h2⟩⟩

end Datapath.Loop
