import Datapath.Proofs.Rerouted
import Datapath.Proofs.ThroughputWalk
import Datapath.Proofs.TimingTrace
import Mathlib.Data.List.Find

/-!
# The analysis of a loop body looks only inside

If the flow inside a module stays as it is, an analysis that ended well ends in the same way again. So
does an analysis that need not stop at the first conflict and would have met none.
-/

namespace Datapath

open List

variable {d d' : Design} {α : Type}

/-! ## Computations that follow others -/

section
variable {α β ε σ τ : Type}

structure Answers (q q' : ExceptT ε (Except σ) α) : Prop where
  run : ∀ {a}, q.run = .ok (.ok a) → q'.run = .ok (.ok a)

structure Follows (p p' : Steps ε τ σ α) : Prop where
  run : ∀ {t a t'}, p.run t = .ok (.ok a, t') → p'.run t = .ok (.ok a, t')

theorem Answers.refl (q : ExceptT ε (Except σ) α) : Answers q q := ⟨fun h => h⟩

theorem Answers.bind {q q' : ExceptT ε (Except σ) α} {f' : α → ExceptT ε (Except σ) β} (hq : Answers q q')
    (hf : ∀ a, Answers (f a) (f' a)) : Answers (q >>= f) (q' >>= f') := by
  constructor
  intro b h
  obtain ⟨a, ha, h⟩ := query_bind_ok.mp h
  exact query_bind_ok.mpr ⟨a, hq.run ha, (hf a).run h⟩

theorem Answers.mapM {f' : α → ExceptT ε (Except σ) β} (hf : ∀ a, Answers (f a) (f' a)) (l : List α) :
    Answers (l.mapM f) (l.mapM f') := by
  induction l with
  | nil => exact .refl _
  | cons a l ih =>
    simp only [mapM_cons]
    exact .bind (hf a) fun _ => .bind ih fun _ => .refl _

namespace Follows

theorem refl (p : Steps ε τ σ α) : Follows p p := ⟨fun h => h⟩

theorem bind {p : Steps ε τ σ α} {f' : α → Steps ε τ σ β}
    (hp : Follows p p') (hf : ∀ a, Follows (f a) (f' a)) : Follows (p >>= f) (p' >>= f') := by
  constructor
  intro t b t' h
  obtain ⟨a, u, ha, h⟩ := step_bind_ok.mp h
  exact step_bind_ok.mpr ⟨a, u, hp.run ha, (hf a).run h⟩

theorem forM {f' : α → Steps ε τ σ PUnit} {l : List α}
    (hf : ∀ a ∈ l, Follows (f a) (f' a)) : Follows (l.forM f) (l.forM f') := by
  induction l with
  | nil => exact .refl _
  | cons a l ih =>
    rw [forall_mem_cons] at hf
    exact .bind hf.1 fun _ => ih hf.2

theorem mapM {f' : α → Steps ε τ σ β} (hf : ∀ a, Follows (f a) (f' a)) (l : List α) :
    Follows (l.mapM f) (l.mapM f') := by
  induction l with
  | nil => exact .refl _
  | cons a l ih =>
    simp only [mapM_cons]
    exact .bind (hf a) fun _ => .bind ih fun _ => .refl _

theorem stop {p : Steps ε τ σ α} (h : ∀ {t a t'}, p.run t ≠ .ok (.ok a, t')) : Follows p p' :=
  ⟨fun hp => absurd hp h⟩

theorem lift {x x' : Except σ α} (h : ∀ {a}, x = .ok a → x' = .ok a) :
    Follows (liftM x : Steps ε τ σ α) (liftM x') := by
  constructor
  intro t a t' hx
  rw [step_lift_ok] at hx ⊢
  exact ⟨h hx.1, hx.2⟩

end Follows

end

theorem fromQuery_follows {q q' : Query α} (h : Answers q q') :
    Follows (Timing.fromQuery q) (Timing.fromQuery q') := by
  constructor
  intro t a t' hr
  rw [Timing.fromQuery_ok] at hr ⊢
  exact ⟨h.run hr.1, hr.2⟩

theorem Loop.throw_not_ok {β : Type} {x : Except Fault β} {k : β → Stop} {a : α} :
    ((do throw (k (← x))) : FlopWalk α).run f ≠ .ok (.ok a, f') := by
  intro h
  obtain ⟨l, u, -, h⟩ := step_bind_ok.mp h
  cases h

theorem Loop.inputAt_follows (d d' : Design) (t : Timing) (c : OpId) :
    Follows (inputAt d t c) (inputAt d' t c) := by
  unfold inputAt
  cases t.input? c with
  | some l => exact .refl _
  | none => exact .stop throw_not_ok

theorem Loop.collide_follows (d d' : Design) (failFast : Bool) (head tail : Sighting) :
    Follows (collide d failFast head tail) (collide d' false head tail) := by
  cases failFast with
  | false => exact .refl _
  | true =>
    refine .stop fun {f a f'} hr => ?_
    simp only [collide, if_true, step_bind_ok] at hr
    obtain ⟨_, _, -, _, _, -, _, _, -, hr⟩ := hr
    cases hr

theorem Loop.meet_follows (d d' : Design) (failFast : Bool) (s : Sighting) :
    Follows (meet d failFast s) (meet d' false s) := by
  refine .bind (.refl _) fun f => .bind (.forM fun v _ => ?_) fun _ => .refl _
  split
  · exact collide_follows ..
  split
  · exact collide_follows ..
  · exact .refl _

/-! ## The inside of a module -/

structure SameInside (mod : OpId) (d d' : Design) : Prop extends Rerouted d d' where
  forward : ∀ {c o}, Nested d mod c → d.op? c = some o → Timing.forwardDeps d' o = Timing.forwardDeps d o
  driven : ∀ {c o p}, Nested d mod c → d.op? c = some o → p.owner = c →
    (d'.depsOnPort p).isEmpty = (d.depsOnPort p).isEmpty

namespace SameInside

section
variable (h : SameInside mod d d')
include h

theorem op? (c : OpId) :
    d.op? c = none ∧ d'.op? c = none ∨ ∃ o b, d.op? c = some o ∧ d'.op? c = some { o with flopNeeded := b } := by
  cases hc : d.op? c with
  | some o =>
    obtain ⟨b, hb⟩ := h.op hc
    exact .inr ⟨o, b, rfl, hb⟩
  | none =>
    cases hc' : d'.op? c with
    | none => exact .inl ⟨rfl, rfl⟩
    | some o =>
      obtain ⟨b, hb⟩ := h.opBack hc'
      rw [hc] at hb; cases hb

theorem opStep {β ε τ : Type} {k k' : Operation → ExceptT ε (StateT τ (Except Fault)) β}
    (hk : ∀ {o} b, d.op? c = some o → Follows (k o) (k' { o with flopNeeded := b })) :
    Follows (liftM (d.op c) >>= k) (liftM (d'.op c) >>= k') := by
  constructor
  intro t a t' hr
  obtain ⟨o, u, ho, hr⟩ := step_bind_ok.mp hr
  obtain ⟨ho, hu⟩ := step_lift_ok.mp ho
  obtain ⟨b, ho'⟩ := h.op (op_ok ho)
  exact step_bind_ok.mpr ⟨_, u, step_lift_ok.mpr ⟨require_ok.mpr ho', hu⟩, (hk b (op_ok ho)).run hr⟩

theorem exitsOf : d'.exitsOf = d.exitsOf := exitsOf_congr h.exits

theorem mainExit? : d'.mainExit? = d.mainExit? := mainExit?_congr h.exits

theorem port : d'.port = d.port := by
  funext p
  simp only [Design.port, Design.port?, h.ports]

theorem busOwner? (b : BusId) : d'.busOwner? b = d.busOwner? b := by
  have same := congrFun h.buses b
  unfold view at same
  unfold Design.busOwner?
  cases hb : d.bus? b with
  | none =>
    rw [show at? d.buses b = none from hb, Option.map_none, Option.map_eq_none_iff] at same
    rw [show d'.bus? b = none from same]
    rfl
  | some c =>
    rw [show at? d.buses b = some c from hb] at same
    obtain ⟨c', hc', e⟩ := Option.map_eq_some_iff.mp same
    rw [show d'.bus? b = some c' from hc', h.exit?]
    have exit : c'.exit = c.exit := (congrArg Bus.exit e : c'.bare.exit = c.bare.exit)
    change (do let x ← d.exit? c'.exit; return x.owner) = (do let x ← d.exit? c.exit; return x.owner)
    rw [exit]

/-! ### Order -/

theorem drivers (hc : Nested d mod c) (m : OpId) : d'.drivers m c = d.drivers m c := by
  have owned : ∀ s, ((d'.op? s).any fun o => o.owner == m) = (d.op? s).any fun o => o.owner == m := by
    intro s
    rcases h.op? s with ⟨e, e'⟩ | ⟨o, b, e, e'⟩
    · rw [e, e']
    · rw [e, e']; rfl
  unfold Design.drivers
  rcases h.op? c with ⟨e, e'⟩ | ⟨o, b, e, e'⟩
  · rw [e, e']
  · have forward := h.forward hc e
    unfold Timing.forwardDeps at forward
    rw [e, e']
    change (filter _ (filterMap _ (flatMap d'.depsOf ((d'.entriesOf o).filter (!·.feedback))))) = _
    simp only [forward, h.busOwner?, owned]

theorem order (hm : d.op? m = some p) (hp : Inside d mod m p) : Answers (d.order m) (d'.order m) := by
  constructor
  intro ids hr
  obtain ⟨p', hq, nodup, arranged⟩ := order_ok_iff.mp hr
  cases hm.symm.trans hq
  obtain ⟨b, hm'⟩ := h.op hm
  refine order_ok_iff.mpr ⟨_, hm', nodup, arranged ▸ arrange_congr fun c hc k => ?_⟩
  rw [h.drivers (hp.nested hm hc) m]

/-! ### Timing -/

theorem inputOf (hc : Nested d mod c) (ho : d.op? c = some o) (t : Timing) (b : Bool) (base : Latency) :
    Answers (t.inputOf d o base) (t.inputOf d' { o with flopNeeded := b } base) := by
  have deps := h.forward hc ho
  unfold Timing.inputOf
  rw [show Timing.forwardDeps d' { o with flopNeeded := b } = Timing.forwardDeps d o from deps]
  refine .bind (.mapM (fun v => ?_) _) fun _ => .refl _
  cases t.bus? v.source with
  | some l => exact .refl _
  | none =>
    constructor
    intro a hr
    obtain ⟨_, -, hr⟩ := query_bind_ok.mp hr
    exact (reject_ok.mp hr).elim

theorem busesOf (o : Operation) (b : Bool) (input : Latency) :
    Timing.busesOf d' { o with flopNeeded := b } input = Timing.busesOf d o input := by
  simp only [Timing.busesOf, h.exitsOf]
  rfl

theorem timeOne (ih : ∀ {m p} base, d.op? m = some p → Inside d mod m p →
      Follows (Timing.inside d n m base) (Timing.inside d' n m base)) (hc : Nested d mod c) (base : Latency) :
    Follows (Timing.timeOne d (Timing.inside d n) base c) (Timing.timeOne d' (Timing.inside d' n) base c) := by
  refine h.opStep fun {o} b ho => .bind (.refl _) fun t => ?_
  refine .bind (fromQuery_follows (h.inputOf hc ho t b base)) fun input => ?_
  refine .bind (.refl _) fun _ => ?_
  rw [h.busesOf]
  split
  next hi => exact .bind (ih _ ho (.inr ⟨hc, hi⟩)) fun _ => .refl _
  next => exact .refl _

theorem inside (n : Nat) (base : Latency) (hm : d.op? m = some p) (hp : Inside d mod m p) :
    Follows (Timing.inside d n m base) (Timing.inside d' n m base) := by
  induction n generalizing m p base with
  | zero => exact .refl _
  | succ n ih =>
    constructor
    intro t a t' hr
    simp only [Timing.inside_succ, step_bind_ok, Timing.fromQuery_ok] at hr ⊢
    obtain ⟨ids, u, ⟨hq, hu⟩, hr⟩ := hr
    refine ⟨ids, u, ⟨(h.order hm hp).run hq, hu⟩, ?_⟩
    obtain ⟨p', hp', perm⟩ := order_ok hq
    rw [hm] at hp'; cases hp'
    refine (Follows.forM fun c hc => ?_).run hr
    exact h.timeOne ih (hp.nested hm (perm.mem_iff.mp hc)) base

theorem compute (hm : d.op? mod = some p) (base : Latency) :
    Follows (Timing.compute d mod base) (Timing.compute d' mod base) := by
  unfold Timing.compute
  rw [h.size]
  exact .bind (.refl _) fun _ => .bind (.refl _) fun t => h.inside _ _ hm (.inl rfl)

theorem done? {t : Timing} (hd : t.done? d c = .ok l) : t.done? d' c = .ok l := by
  obtain ⟨o, ho, hd⟩ := bind_ok.mp hd
  obtain ⟨b, ho'⟩ := h.op (op_ok ho)
  refine bind_ok.mpr ⟨_, require_ok.mpr ho', ?_⟩
  rw [h.mainExit?]
  exact hd

/-! ### Walks over a loop body -/

section

open Loop

theorem flowExits (o : Operation) (b : Bool) : flowExits d' { o with flopNeeded := b } = flowExits d o := by
  simp only [Loop.flowExits, h.exitsOf]
  rfl

theorem ownerCompletesAfter (c : OpId) (late : Latency) :
    Follows (ownerCompletesAfter d t c late) (ownerCompletesAfter d' t c late) := by
  refine h.opStep fun {o} b ho => h.opStep fun {p} b' hp => ?_
  rw [h.flowExits]
  refine .bind (.mapM (fun x => ?_) _) fun _ => .refl _
  cases t.input? x.peer with
  | some l => exact .refl _
  | none => exact .stop throw_not_ok

theorem completion (c : OpId) : Follows (completion d t c) (completion d' t c) := by
  refine h.opStep fun {o} b ho => ?_
  rw [h.flowExits]
  refine .bind (.mapM (fun x => ?_) _) fun _ => .refl _
  cases t.bus? x.done with
  | some l => exact .refl _
  | none => exact .stop throw_not_ok

theorem isLast (path : List OpId) (c : OpId) (late : Latency) :
    Follows (isLast d t path c late) (isLast d' t path c late) := by
  induction path generalizing c late with
  | nil => exact .refl _
  | cons m path ih =>
    refine .bind (h.ownerCompletesAfter c late) fun after => ?_
    split
    · exact .refl _
    split
    · exact .refl _
    · exact .bind (h.completion m) fun _ => ih ..

theorem mark (c : OpId) (key : Key) (early late start : Latency) (path : List OpId) :
    Follows (mark d t failFast c key early late start path) (mark d' t false c key early late start path) := by
  refine .bind (h.isLast ..) fun last => ?_
  dsimp only
  split
  · exact .refl _
  split
  · exact .bind (collide_follows ..) fun _ => meet_follows ..
  · exact meet_follows ..

theorem doneAt (c : OpId) : Follows (doneAt d t c) (doneAt d' t c) := by
  refine .bind (.lift h.done?) fun l => ?_
  cases l with
  | some l => exact .refl _
  | none => exact .stop throw_not_ok

theorem dive (hd : WellFormed d) (hm : d.op? m = some p) (hp : Nested d mod m) (hi : p.kind.isInlineModule = true)
    (hv : ∀ c start path, Nested d mod c → Follows (visit c start path) (visit' c start path)) (start : Latency)
    (path : List OpId) : Follows (dive d t visit m start path) (dive d' t visit' m start path) := by
  refine h.opStep fun {o} b ho => ?_
  rw [hm] at ho; cases ho
  obtain ⟨q, hq, hown⟩ := hd.ports.holds hm p.go mem_cons_self
  have here : d.port p.go = .ok q := require_ok.mpr hq
  simp only [Design.portDeps, h.port, here]
  change Follows (if (d.depsOnPort q).isEmpty then _ else _) (if (d'.depsOnPort q).isEmpty then _ else _)
  rw [h.driven hp hm (Option.some.inj hown)]
  split
  · exact .refl _
  · exact .bind (inputAt_follows ..) fun input => .forM fun c hc => hv _ _ _ (.deeper hp hm hi hc)

theorem flopComponent (hd : WellFormed d) (hc : Nested d mod c)
    (hv : ∀ c start path, Nested d mod c → Follows (visit c start path) (visit' c start path)) (start : Latency)
    (path : List OpId) :
    Follows (flopComponent d t failFast visit c start path) (flopComponent d' t false visit' c start path) := by
  refine h.opStep fun {o} b ho => ?_
  dsimp only
  split
  · exact .bind (inputAt_follows ..) fun _ => h.mark ..
  · exact .bind (inputAt_follows ..) fun _ => h.mark ..
  · exact .bind (inputAt_follows ..) fun _ => .bind (h.doneAt c) fun _ => h.mark ..
  · exact .bind (inputAt_follows ..) fun _ => .bind (h.doneAt c) fun _ => h.mark ..
  · exact .bind (inputAt_follows ..) fun _ => .bind (h.doneAt c) fun _ => h.mark ..
  · exact .bind (inputAt_follows ..) fun _ => .bind (h.doneAt c) fun _ => h.mark ..
  · exact .refl _
  · exact .refl _
  next hk =>
    have hi : o.kind.isInlineModule = true := by rw [hk]; rfl
    refine .bind (inputAt_follows ..) fun _ => .bind (h.doneAt c) fun _ => .bind (h.mark ..) fun _ => ?_
    exact h.dive hd ho hc hi hv ..
  next => exact .stop throw_not_ok
  next ht =>
    split
    next hm => exact h.dive hd ho hc (by simpa [Kind.isInlineModule, hm] using ht) hv ..
    next =>
      split
      · exact .stop throw_not_ok
      · exact .refl _

theorem flopVisit (hd : WellFormed d) (n : Nat) (hc : Nested d mod c) (start : Latency) (path : List OpId) :
    Follows (flopVisit d t failFast n c start path) (flopVisit d' t false n c start path) := by
  induction n generalizing c start path with
  | zero => exact .refl _
  | succ n ih => exact h.flopComponent hd hc (fun c start path hc => ih hc start path) start path

end

end

end SameInside

namespace Loop

/-! ## Steps that only read -/

structure Reading (K : {α : Type} → FlopWalk α → Prop) : Prop extends Closed FlopWalk K where
  lift : ∀ {α : Type} (x : Except Fault α), K (liftM x : FlopWalk α)
  stop : ∀ {α : Type} (why : Cause), K (throw (.notAnalyzable why) : FlopWalk α)

namespace Reading

variable {K : {α : Type} → FlopWalk α → Prop} (h : Reading K)
include h

theorem unknownLatency (c : OpId) : K (Loop.unknownLatency d c : FlopWalk α) := h.bind (h.lift _) fun _ => h.stop _

theorem inputAt (c : OpId) : K (Loop.inputAt d t c) := by
  unfold Loop.inputAt
  split
  · exact h.pure _
  · exact h.unknownLatency _

theorem doneAt (c : OpId) : K (Loop.doneAt d t c) := by
  apply h.bind (h.lift _)
  intro l
  split
  · exact h.pure _
  · exact h.unknownLatency _

theorem ownerCompletesAfter (c : OpId) (late : Latency) : K (Loop.ownerCompletesAfter d t c late) := by
  apply h.bind (h.lift _)
  intro o
  apply h.bind (h.lift _)
  intro owner
  apply h.bind
  · apply h.mapM
    intro x
    split
    · exact h.pure _
    · exact h.unknownLatency _
  · exact fun _ => h.pure _

theorem completion (c : OpId) : K (Loop.completion d t c) := by
  apply h.bind (h.lift _)
  intro o
  apply h.bind
  · apply h.mapM
    intro x
    split
    · exact h.pure _
    · exact h.unknownLatency _
  · intro dones
    split <;> exact h.pure _

theorem isLast (path : List OpId) (c : OpId) (late : Latency) : K (Loop.isLast d t path c late) := by
  induction path generalizing c late with
  | nil => exact h.pure _
  | cons m rest ih =>
    apply h.bind (h.ownerCompletesAfter c late)
    intro after
    split
    · exact h.pure _
    split
    · exact h.pure _
    · exact h.bind (h.completion m) fun late => ih m late

end Reading

/-! ## What a walk notes -/

structure Located (d : Design) (mod : OpId) (f : Found) : Prop where
  sightings : ∀ s ∈ f.sightings, Nested d mod s.access
  conflicts : ∀ p ∈ f.conflicts, ∀ c ∈ p.2, Nested d mod c.headAccess ∧ Nested d mod c.tailAccess
  filled : ∀ p ∈ f.conflicts, p.2 ≠ []

structure Locates {α : Type} (d : Design) (mod : OpId) (p : FlopWalk α) : Prop where
  run : ∀ {f r f'}, Located d mod f → p.run f = .ok (r, f') →
    Located d mod f' ∧ ∀ why, r = .error (.conflict why) → f'.conflicts ≠ []

namespace Locates

section
variable {α β : Type}

theorem pure (a : α) : Locates d mod (pure a : FlopWalk α) := by
  constructor
  intro f r f' hf h
  obtain ⟨rfl, rfl⟩ := step_pure_run.mp h
  exact ⟨hf, fun _ e => nomatch e⟩

theorem bind {p : FlopWalk α} {k : α → FlopWalk β} (hp : Locates d mod p) (hk : ∀ a, Locates d mod (k a)) :
    Locates d mod (p >>= k) := by
  constructor
  intro f r f' hf h
  rcases step_bind_run.mp h with ⟨e, he, rfl⟩ | ⟨a, g, hg, h⟩
  · obtain ⟨hf', stop⟩ := hp.run hf he
    exact ⟨hf', fun why e => stop why (by rw [Except.error.inj e])⟩
  · exact (hk a).run (hp.run hf hg).1 h

theorem get {k : Found → FlopWalk β} (hk : ∀ f, Located d mod f → Locates d mod (k f)) :
    Locates d mod (get >>= k) := by
  constructor
  intro f r f' hf h
  exact (hk f hf).run hf h

theorem modify (hg : ∀ f, Located d mod f → Located d mod (g f)) : Locates d mod (modify g : FlopWalk PUnit) := by
  constructor
  intro f r f' hf h
  obtain ⟨rfl, rfl⟩ := step_modify_run.mp h
  exact ⟨hg f hf, fun _ e => nomatch e⟩

theorem lift (x : Except Fault α) : Locates d mod (liftM x : FlopWalk α) := by
  constructor
  intro f r f' hf h
  obtain ⟨a, -, rfl, rfl⟩ := step_lift_run.mp h
  exact ⟨hf, fun _ e => nomatch e⟩

theorem op {k : Operation → FlopWalk β} (hk : ∀ {o}, d.op? c = some o → Locates d mod (k o)) :
    Locates d mod (liftM (d.op c) >>= k) := by
  constructor
  intro f r f' hf h
  rcases step_bind_run.mp h with ⟨e, he, -⟩ | ⟨o, g, hg, rest⟩
  · obtain ⟨_, -, he, -⟩ := step_lift_run.mp he
    cases he
  · obtain ⟨_, ho, e, rfl⟩ := step_lift_run.mp hg
    cases e
    exact (hk (op_ok ho)).run hf rest

theorem throw (why : Cause) : Locates d mod (throw (.notAnalyzable why) : FlopWalk α) := by
  constructor
  intro f r f' hf h
  obtain ⟨rfl, rfl⟩ := step_throw_run.mp h
  exact ⟨hf, fun _ e => nomatch e⟩

theorem reading (d : Design) (mod : OpId) : Reading fun {_} p => Locates d mod p := ⟨⟨pure, bind⟩, lift, throw⟩

theorem forM {k : α → FlopWalk PUnit} {l : List α} (hk : ∀ a ∈ l, Locates d mod (k a)) :
    Locates d mod (l.forM k) := by
  induction l with
  | nil => exact pure _
  | cons a l ih =>
    rw [forall_mem_cons] at hk
    exact bind hk.1 fun _ => ih hk.2

end

end Locates

theorem mem_addConflict {c : Conflict} {P : Conflict → Prop} (h : ∀ p ∈ conflicts, ∀ c ∈ p.2, P c)
    (hc : P c) : ∀ p ∈ addConflict conflicts key c, ∀ c ∈ p.2, P c := by
  unfold addConflict
  split
  · intro p hp a ha
    obtain ⟨q, hq, rfl⟩ := mem_map.mp hp
    split at ha
    · rcases mem_append.mp ha with ha | ha
      · exact h q hq a ha
      · exact mem_singleton.mp ha ▸ hc
    · exact h q hq a ha
  · intro p hp a ha
    rcases mem_append.mp hp with hp | hp
    · exact h p hp a ha
    · rw [mem_singleton.mp hp] at ha
      exact mem_singleton.mp ha ▸ hc

theorem filled_addConflict {c : Conflict} (h : ∀ p ∈ conflicts, p.2 ≠ []) :
    ∀ p ∈ addConflict conflicts key c, p.2 ≠ [] := by
  unfold addConflict
  split
  · intro p hp
    obtain ⟨q, hq, rfl⟩ := mem_map.mp hp
    split
    · simp
    · exact h q hq
  · intro p hp
    rcases mem_append.mp hp with hp | hp
    · exact h p hp
    · rw [mem_singleton.mp hp]
      simp

theorem addConflict_ne_nil (conflicts : List (Key × List Conflict)) (key : Key) (c : Conflict) :
    addConflict conflicts key c ≠ [] := by
  unfold addConflict
  split
  next h =>
    intro e
    rw [map_eq_nil_iff.mp e] at h
    cases h
  next => simp

theorem locates_collide {head tail : Sighting} (hh : Nested d mod head.access)
    (ht : Nested d mod tail.access) : Locates d mod (collide d failFast head tail) := by
  constructor
  intro f r f' hf h
  rcases step_bind_run.mp h with ⟨e, he, rfl⟩ | ⟨_, g, hg, h⟩
  · cases (step_modify_run.mp he).1
  obtain ⟨-, rfl⟩ := step_modify_run.mp hg
  have noted : Located d mod
      { f with conflicts := addConflict f.conflicts head.key ⟨head.access, head.path, tail.access, tail.path⟩ } :=
    ⟨hf.sightings, mem_addConflict hf.conflicts ⟨hh, ht⟩, filled_addConflict hf.filled⟩
  cases failFast with
  | false =>
    obtain ⟨rfl, rfl⟩ := step_pure_run.mp h
    exact ⟨noted, fun _ e => nomatch e⟩
  | true =>
    rcases step_bind_run.mp h with ⟨e, he, -⟩ | ⟨head', u, hu, h⟩
    · obtain ⟨_, -, he, -⟩ := step_lift_run.mp he
      cases he
    rcases step_bind_run.mp h with ⟨e, he, -⟩ | ⟨tail', u', hu', h⟩
    · obtain ⟨_, -, he, -⟩ := step_lift_run.mp he
      cases he
    obtain ⟨_, -, -, rfl⟩ := step_lift_run.mp hu
    obtain ⟨_, -, -, rfl⟩ := step_lift_run.mp hu'
    obtain ⟨rfl, rfl⟩ := step_throw_run.mp h
    exact ⟨noted, fun _ _ => addConflict_ne_nil _ _ _⟩

theorem locates_meet (hs : Nested d mod s.access) : Locates d mod (meet d failFast s) := by
  refine .get fun f hf => .bind (.forM fun v hv => ?_) fun _ => .modify fun g hg => ?_
  · have seen := hf.sightings v (mem_filter.mp hv).1
    split
    · exact locates_collide seen hs
    split
    · exact locates_collide hs seen
    · exact .pure _
  · refine ⟨fun v hv => ?_, hg.conflicts, hg.filled⟩
    rcases mem_append.mp hv with hv | hv
    · exact hg.sightings v hv
    · exact mem_singleton.mp hv ▸ hs

theorem locates_mark (hc : Nested d mod c) (key : Key) (early late start : Latency) (path : List OpId) :
    Locates d mod (mark d t failFast c key early late start path) := by
  refine .bind ((Locates.reading d mod).isLast ..) fun last => ?_
  dsimp only
  split
  · exact .pure _
  split
  · exact .bind (locates_collide hc hc) fun _ => locates_meet hc
  · exact locates_meet hc

theorem locates_dive (hm : d.op? m = some p) (hp : Nested d mod m) (hi : p.kind.isInlineModule = true)
    (hv : ∀ c start path, Nested d mod c → Locates d mod (visit c start path)) (start : Latency)
    (path : List OpId) : Locates d mod (dive d t visit m start path) := by
  refine .op fun {o} ho => .bind (.lift _) fun deps => ?_
  rw [hm] at ho; cases ho
  split
  · exact .pure _
  · exact .bind ((Locates.reading d mod).inputAt m) fun _ => .forM fun c hc => hv _ _ _ (.deeper hp hm hi hc)

theorem locates_component (hc : Nested d mod c)
    (hv : ∀ c start path, Nested d mod c → Locates d mod (visit c start path)) (start : Latency)
    (path : List OpId) : Locates d mod (flopComponent d t failFast visit c start path) := by
  have read := Locates.reading d mod
  refine .op fun {o} ho => ?_
  split
  iterate 2 exact .bind (read.inputAt c) fun _ => locates_mark hc ..
  iterate 4 exact .bind (read.inputAt c) fun _ => .bind (read.doneAt c) fun _ => locates_mark hc ..
  · exact .pure _
  · exact .pure _
  next hk =>
    have hi : o.kind.isInlineModule = true := by rw [hk]; rfl
    refine .bind (read.inputAt c) fun _ => .bind (read.doneAt c) fun _ => ?_
    refine .bind (locates_mark hc ..) fun _ => ?_
    exact locates_dive ho hc hi hv ..
  next => exact .bind (.lift _) fun _ => .throw _
  next ht =>
    split
    next hm => exact locates_dive ho hc (by simpa [Kind.isInlineModule, hm] using ht) hv ..
    next =>
      split
      · exact .bind (.lift _) fun _ => .throw _
      · exact .pure _

theorem locates_visit (n : Nat) (hc : Nested d mod c) (start : Latency)
    (path : List OpId) : Locates d mod (flopVisit d t failFast n c start path) := by
  induction n generalizing c start path with
  | zero =>
    constructor
    intro f r f' hf h
    cases h
  | succ n ih => exact locates_component hc (fun c start path hc => ih hc start path) start path

/-! ## The analysis -/

/-- The analysis of a loop body walks over a block and ends there with what it found. -/
structure Walks (d : Design) (body : OpId) (failFast : Bool) (block : OpId) (ended : Except Stop PUnit)
    (found : Found) : Prop where
  body : ∃ bd, d.op? body = some bd ∧ bd.kind.isLoopBody = true ∧ block ≠ absent ∧ bd.body = block
  walked : ∃ b x t, d.op? block = some b ∧ d.mainExit? b = some x ∧ ¬ x.latency.min ≤ 0 ∧
    (Timing.compute d block .zero).run .relative = .ok (.ok (), t) ∧
    (b.children.forM fun c => flopVisit d t failFast (d.ops.size + 1) c .zero [block] : FlopWalk PUnit).run {} =
      .ok (ended, found)

section
variable {body : OpId} (h : (analyze d body failFast).run = .ok (.ok report))
include h

theorem analyze_found : report.analyzable = false ∧ report.conflicts = [] ∨
      ∃ block ended found, Walks d body failFast block ended found ∧ report.conflicts = found.conflicts ∧
        (report.analyzable = true → ended = .ok () ∨ ∃ why, ended = .error (.conflict why)) := by
  simp only [analyze, query_bind_ok, query_lift_ok] at h
  obtain ⟨bd, hbd, h⟩ := h
  split at h
  next =>
    obtain ⟨_, hrej, -⟩ := query_bind_ok.mp h
    exact (reject_ok.mp hrej).elim
  next hk =>
    simp only [Bool.or_eq_true, Bool.not_eq_true', beq_iff_eq, not_or, Bool.not_eq_false] at hk
    obtain ⟨b, hb, h⟩ := query_bind_ok.mp h
    split at h
    next => exact (reject_ok.mp h).elim
    next x hx =>
      split at h
      next =>
        rw [query_pure_ok.mp h]
        exact .inl ⟨rfl, rfl⟩
      next hmin =>
        obtain ⟨⟨timed, t⟩, ht, h⟩ := query_bind_ok.mp h
        cases timed with
        | error e =>
          obtain ⟨_, hthrow, -⟩ := query_bind_ok.mp h
          cases hthrow
        | ok u =>
          obtain ⟨⟨ended, found⟩, hw, h⟩ := query_bind_ok.mp h
          refine .inr ⟨bd.body, ended, found, ⟨⟨bd, op_ok hbd, hk.1, hk.2, rfl⟩,
            b, x, t, op_ok (query_lift_ok.mp hb), hx, hmin, query_lift_ok.mp ht, query_lift_ok.mp hw⟩, ?_⟩
          rcases ended with (why | why) | ⟨⟩
          · rw [query_pure_ok.mp h]
            exact ⟨rfl, nofun⟩
          · rw [query_pure_ok.mp h]
            exact ⟨rfl, fun _ => .inr ⟨why, rfl⟩⟩
          · rw [query_pure_ok.mp h]
            exact ⟨rfl, fun _ => .inl rfl⟩

theorem analyze_walks (hr : report.analyzable = true) :
    ∃ block ended found, Walks d body failFast block ended found ∧ report.conflicts = found.conflicts ∧
      (ended = .ok () ∨ ∃ why, ended = .error (.conflict why)) := by
  rcases analyze_found h with ⟨no, -⟩ | ⟨block, ended, found, walks, same, how⟩
  · cases no.symm.trans hr
  · exact ⟨block, ended, found, walks, same, how hr⟩

end

namespace Walks

theorem analyze {body : OpId} (h : Walks d body failFast block (.ok ()) found) :
    (analyze d body failFast).run = .ok (.ok { body, analyzable := true, conflicts := found.conflicts }) := by
  obtain ⟨⟨bd, hbd, hk, ha, rfl⟩, b, x, t, hb, hx, hmin, ht, hw⟩ := h
  refine query_bind_ok.mpr ⟨bd, query_lift_ok.mpr (require_ok.mpr hbd), ?_⟩
  rw [if_neg (by simp [hk, ha])]
  refine query_bind_ok.mpr ⟨b, query_lift_ok.mpr (require_ok.mpr hb), ?_⟩
  rw [hx]
  dsimp only
  rw [if_neg hmin]
  refine query_bind_ok.mpr ⟨_, query_lift_ok.mpr ht, ?_⟩
  exact query_bind_ok.mpr ⟨_, query_lift_ok.mpr hw, rfl⟩

theorem located {body : OpId} (h : Walks d body failFast block ended found) :
    Located d block found ∧ ∀ why, ended = .error (.conflict why) → found.conflicts ≠ [] := by
  obtain ⟨-, b, x, t, hb, -, -, -, hw⟩ := h
  have inside : Locates d block
      (b.children.forM fun c => flopVisit d t failFast (d.ops.size + 1) c .zero [block]) :=
    .forM fun _ hc => locates_visit _ (.child hb hc) _ _
  exact inside.run ⟨by simp, by simp, by simp⟩ hw

theorem same {body : OpId} (h : SameInside block d d') (hd : WellFormed d)
  (w : Walks d body failFast block (.ok ()) found) :
    Walks d' body false block (.ok ()) found := by
  obtain ⟨⟨bd, hbd, hk, ha, hbody⟩, b, x, t, hb, hx, hmin, ht, hw⟩ := w
  obtain ⟨f, hbd'⟩ := h.op hbd
  obtain ⟨g, hb'⟩ := h.op hb
  refine ⟨⟨_, hbd', hk, ha, hbody⟩, _, x, t, hb', ?_, hmin, (h.compute hb .zero).run ht, ?_⟩
  · rw [h.mainExit?]
    exact hx
  · rw [h.size]
    exact (Follows.forM fun c hc => h.flopVisit hd _ (.child hb hc) _ _).run hw

end Walks

theorem walks_of_removable (ran : (analyze d body failFast).run = .ok (.ok report))
    (free : report.removable = true) :
    ∃ block found, Walks d body failFast block (.ok ()) found ∧ found.conflicts = [] := by
  simp only [FlopReport.removable, Bool.and_eq_true, List.isEmpty_iff] at free
  obtain ⟨⟨-, analyzable⟩, none⟩ := free
  obtain ⟨block, ended, found, walks, conflicts, ends⟩ := analyze_walks ran analyzable
  rw [conflicts] at none
  rcases ends with rfl | ⟨why, e⟩
  · exact ⟨block, found, walks, none⟩
  · exact absurd none (walks.located.2 why e)

theorem removable_same (hbd : d.op? body = some bd) (h : SameInside bd.body d d') (hd : WellFormed d)
    (hr : (analyze d body failFast).run = .ok (.ok report)) (hrem : report.removable = true) :
    ∃ report', (analyze d' body false).run = .ok (.ok report') ∧ report'.removable = true := by
  obtain ⟨block, found, walks, none⟩ := walks_of_removable hr hrem
  obtain ⟨bd', hbd', -, -, hblock⟩ := walks.body
  rw [hbd] at hbd'; cases hbd'
  subst hblock
  refine ⟨_, (walks.same h hd).analyze, ?_⟩
  simp [FlopReport.removable, none]

end Loop

end Datapath
