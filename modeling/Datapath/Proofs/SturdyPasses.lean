import Datapath.Proofs.Analyses
import Datapath.Proofs.Cells

/-!
# Passes over sturdy designs

A pass adds delays between siblings, lets the readers of registers read what these capture, and marks
modules. A sturdy design stays so, and a tidy one stays tidy. So the branches of a sturdy design are
balanced, or it is rejected, and those of a tidy one are balanced.
-/

namespace Datapath

variable {d : Design} {E : Prop}

/-! ## What a pass leaves -/

section
variable {e : Design}

theorem view_eq_of {α β : Type} {xs ys : Array α} {g : α → β} (size : ys.size = xs.size)
    (same : ∀ {i x}, at? xs i = some x → ∃ y, at? ys i = some y ∧ g y = g x) : view ys g = view xs g := by
  funext i
  cases h : at? xs i with
  | some x =>
    obtain ⟨y, hy, e⟩ := same h
    rw [view_of _ h, view_of _ hy, e]
  | none =>
    have out : at? ys i = none := by
      cases hy : at? ys i with
      | none => rfl
      | some y =>
        obtain ⟨h0, hlt⟩ := at?_lt hy
        rw [size] at hlt
        obtain ⟨x, hx⟩ := at?_of_lt h0 hlt
        rw [hx] at h
        cases h
    simp [view, h, out]

variable (h : Framed o d e)
include h

theorem Framed.view_ops {β : Type} {g : Operation → β}
    (hg : ∀ p f s, g { p with flopNeeded := f, stalls := s } = g p) : view e.ops g = view d.ops g := by
  apply view_eq_of h.opCount
  intro i p hp
  obtain ⟨f, s, hq, -⟩ := h.ops hp
  exact ⟨_, hq, hg p f s⟩

theorem Framed.place : e.place? = d.place? := h.view_ops fun _ _ _ => rfl

theorem Framed.view_buses : view e.buses Bus.exit = view d.buses Bus.exit := by
  apply view_eq_of h.busCount
  intro i b hb
  obtain ⟨dependents, hb', -⟩ := h.buses hb
  exact ⟨_, hb', rfl⟩

theorem Framed.view_faces : view e.entries Entry.face = view d.entries Entry.face := by
  apply view_eq_of h.entryCount
  intro i n hn
  obtain ⟨more, hn', -⟩ := h.entries hn
  exact ⟨_, hn', rfl⟩

theorem Framed.view_calls : view e.tasks Task.call = view d.tasks Task.call := by
  apply view_eq_of h.taskCount
  intro i t ht
  obtain ⟨goSpacing, ht'⟩ := h.tasks ht
  exact ⟨_, ht', rfl⟩

theorem Framed.task (ht : t ∈ e.tasks) : ∃ s ∈ d.tasks, s.call = t.call ∧ s.balanced = t.balanced := by
  obtain ⟨n, hn, rfl⟩ := Array.mem_iff_getElem.mp ht
  obtain ⟨s, hs⟩ : ∃ s, at? d.tasks n = some s :=
    at?_of_lt (Int.natCast_nonneg n) (by rw [h.taskCount] at hn; omega)
  obtain ⟨goSpacing, hs'⟩ := h.tasks hs
  have same : e.tasks[n] = { s with goSpacing } := by simpa [at?, hn] using hs'
  exact ⟨s, mem_of_at? hs, by rw [same], by rw [same]⟩

theorem Framed.carried : Carried e b s ↔ Carried d b s := by
  unfold Carried
  rw [h.view_buses, h.exits]

theorem Framed.shaped (hs : Shaped d) : Shaped e := by
  apply hs.grows
  apply Grows.same
  · exact h.view_ops fun _ _ _ => rfl
  · rw [h.ports]
    exact fun _ hb => hb
  · rw [h.view_buses]
    exact fun hb => hb
  · rw [h.exits]
    exact fun hx => hx
  · exact h.view_calls

theorem Framed.laid (hl : Laid d) : Laid e where
  go hi := by
    obtain ⟨p, f, s, hp, rfl, -⟩ := h.opBack hi
    rw [h.ports]
    exact hl.go (o := p) hp
  bare hi hq := by
    obtain ⟨p, f, s, hp, rfl, -⟩ := h.opBack hi
    obtain ⟨q, f, s, there, rfl, -⟩ := h.opBack hq
    exact (hl.bare hp there : q.ports = [])
  front hi hk := by
    obtain ⟨p, f, s, hp, rfl, -⟩ := h.opBack hi
    obtain ⟨b, ib, hb, carried, place⟩ := hl.front hp hk
    rw [h.ports, h.place]
    exact ⟨b, ib, hb, h.carried.mpr carried, place⟩
  body hi hk ne := by
    obtain ⟨p, f, s, hp, rfl, -⟩ := h.opBack hi
    rw [h.place]
    exact hl.body (o := p) hp hk ne
  again hj := by
    rw [h.view_faces] at hj
    rw [h.place]
    exact hl.again hj

theorem Framed.tidy (ht : Tidy d) (rises : Rises e) : Tidy e where
  lodged hi := by
    rw [h.place] at hi
    obtain ⟨fits, first, body⟩ := ht.lodged hi
    rw [← h.place] at fits body
    exact ⟨fits, first, body⟩
  sits := by
    intro i q hi
    obtain ⟨p, f, s, hp, rfl, -⟩ := h.opBack hi
    have sits : p.Sits e i := by
      refine (ht.sits hp).grow ?_ ?_
      · rw [h.view_faces]
        exact fun he => he
      · rw [h.exits]
        exact fun hx => hx
    obtain ⟨entered, leaves, exit, buffer, front⟩ := sits
    exact ⟨entered, leaves, exit, buffer, front⟩
  whole hi := by
    obtain ⟨p, f, s, hp, rfl, -⟩ := h.opBack hi
    refine (ht.whole hp).grow (by rw [h.place]) ?_ ?_
    · rw [h.place]
      exact fun hp => hp
    · rw [h.exits]
      exact fun hx => hx
  tasks lt ha hb := by
    rw [h.view_calls] at ha hb
    exact ht.tasks lt ha hb
  rises := rises

theorem Framed.enclosed (he : Loop.Enclosed e a) : Loop.Enclosed d a := by
  intro q p x hq hp hx
  obtain ⟨f, s, hq', -⟩ := h.ops hq
  obtain ⟨f', s', hp', -⟩ := h.ops hp
  refine he hq' hp' ?_
  unfold Loop.flowExits
  rw [h.exitsOf]
  exact hx

theorem Framed.enters (enters : Enters e x y) : Enters d x y := by
  obtain ⟨q, hq, way⟩ := enters
  obtain ⟨p, f, s, hp, rfl, -⟩ := h.opBack hq
  refine ⟨p, hp, way.imp_right fun ⟨call, b, hb, hy⟩ => ?_⟩
  obtain ⟨b, f, s, hb', rfl, -⟩ := h.opBack hb
  exact ⟨call, b, hb', hy⟩

theorem Framed.reached : Reached e x → Reached d x := by
  rintro ⟨t, ht, path⟩
  obtain ⟨s, hs, call, -⟩ := h.task ht
  exact ⟨s, hs, call ▸ Relation.ReflTransGen.mono (fun _ _ => h.enters) _ _ path⟩

omit h in
structure Going (E : Prop) (o : Options) (d e : Design) : Prop where
  wf : WellFormed e
  framed : Framed o d e
  rises : E ∨ Rises e

omit h in
theorem Going.sturdy (hd : Sturdy E d) (he : Going E o d e) : Sturdy E e where
  wf := he.wf
  shaped := he.framed.shaped hd.shaped
  laid := he.framed.laid hd.laid
  entered hi := by
    obtain ⟨p, f, s, hp, rfl, -⟩ := he.framed.opBack hi
    have kept := hd.entered hp
    exact kept
  fronted hi := by
    obtain ⟨p, f, s, hp, rfl, -⟩ := he.framed.opBack hi
    have kept := hd.fronted hp
    exact kept
  ended hi hk single := by
    obtain ⟨p, f, s, hp, rfl, -⟩ := he.framed.opBack hi
    rw [he.framed.exitsOf] at single
    have kept := hd.ended hp hk single
    exact kept
  decided reached hi := by
    obtain ⟨p, f, s, hp, rfl, -⟩ := he.framed.opBack hi
    have kept := hd.decided (he.framed.reached reached) hp
    exact kept
  looped hi hk ne := by
    obtain ⟨p, f, s, hp, rfl, -⟩ := he.framed.opBack hi
    obtain ⟨b, hb⟩ := hd.looped hp hk ne
    obtain ⟨f, s, hb', -⟩ := he.framed.ops hb
    exact ⟨_, hb'⟩
  accessed ht balanced nested hi := by
    obtain ⟨t, ht', call, same⟩ := he.framed.task ht
    obtain ⟨p, f, s, hp, rfl, -⟩ := he.framed.opBack hi
    have kept := hd.accessed ht' (same.trans balanced) (call ▸ he.framed.nested nested) hp
    exact kept
  holding hi hk hl loop body := by
    obtain ⟨p, f, s, hp, rfl, -⟩ := he.framed.opBack hi
    obtain ⟨l, f', s', hl', rfl, -⟩ := he.framed.opBack hl
    obtain ⟨ports, x, xs, y, hx, hy, ne⟩ := hd.holding hp hk hl' loop body
    exact ⟨ports, x, xs, y, hx, (congrArg (at? · x) he.framed.exits).trans hy, ne⟩
  descends x path := hd.descends x (Relation.TransGen.mono (fun _ _ => he.framed.enters) _ _ path)
  tidy := by
    rcases hd.tidy with allowed | tidy
    · exact .inl allowed
    · exact he.rises.imp_right (he.framed.tidy tidy)

end

/-! ## Balancing branches -/

section
variable {α β : Type}

structure Strides (E : Prop) (I : Design → Prop) (w : Branch.Walk α) : Prop where
  run : ∀ records, Settles E I (w.run records)

theorem strides_closed (E : Prop) (I : Design → Prop) : Closed Branch.Walk fun {_} w => Strides E I w where
  pure _ := ⟨fun _ => (settles_closed E I).pure _⟩
  bind hw hf := ⟨fun records => (settles_closed E I).bind (hw.run records) fun r => (hf r.1).run r.2⟩

theorem Strides.lift {p : Pass α} (hp : Settles E I p) : Strides E I (liftM p : Branch.Walk α) :=
  ⟨fun _ => (settles_closed E I).bind hp fun _ => (settles_closed E I).pure _⟩

theorem Strides.throw (allowed : E) (e : Error) : Strides E I (throw e : Branch.Walk α) :=
  ⟨fun _ t _ => .inr ⟨allowed, e, t, rfl⟩⟩

theorem Strides.look_bind {q : Design → Except Fault α} {f : α → Branch.Walk β}
    (h : ∀ ⦃e⦄, I e → ∃ a, q e = .ok a ∧ Strides E I (f a)) : Strides E I (liftM (Pass.look q) >>= f) := by
  constructor
  intro records e he
  obtain ⟨a, ha, hf⟩ := h he
  have looked : Concludes E ((liftM (Pass.look q) : Branch.Walk α).run records) e fun r e' => r = (a, records) ∧
    e' = e :=
    .look_bind ha (.pure ⟨rfl, rfl⟩)
  refine looked.bind ?_
  rintro _ _ - ⟨rfl, rfl⟩
  exact hf.run records he

end

section
variable {e e' : Design}

theorem Rises.depend (h : Rises e) (we : WellFormed e) (face : view e.entries Entry.face entry = some (k, b))
    (carried : Carried e source s) (up : Climbs e s k)
    (ha : addDependency entry kind source target clocks e = .ok (i, e')) : Rises e' := by
  have g := gains_addDependency (T := fun _ => False) we ha
  apply (h.mono g.place).gains g
  intro v hv j hj
  cases List.mem_singleton.mp hv
  cases (g.entry face).symm.trans hj
  exact ⟨s, g.carried carried, up.mono g.place⟩

theorem Sturdy.delay (he : Sturdy E e) (hq : e.op? k = some q) (carried : Carried e source s)
    (up : E ∨ Climbs e s k) :
    ∃ n i e', q.firstEntry = .ok n ∧ connectResource n source q.go 1 e = .ok (i, e') ∧ (E ∨ Rises e') := by
  obtain ⟨n, ns, entries⟩ := List.exists_cons_of_ne_nil (he.entered hq)
  obtain ⟨b, face⟩ := entry_face he.wf hq (entries ▸ List.mem_cons_self)
  obtain ⟨x, hx, -⟩ := id carried
  obtain ⟨i, e', run⟩ := addDependency_run face (he.laid.go hq) hx (show delayAllowed .resource 1 = true by rfl)
  refine ⟨n, i, e', by rw [Operation.firstEntry, entries]; rfl, run, ?_⟩
  rcases he.tidy with allowed | tidy
  · exact .inl allowed
  · exact up.imp_right fun up => tidy.rises.depend he.wf face carried up run

theorem WellFormed.outBuf (he : WellFormed e) (hm : e.op? mod = some m)
    (main : e.mainExit? m = some y) (there : y.peer ≠ absent) :
    ∃ q, (do e.op (← e.exit y.id).peer) = Except.ok q ∧ e.op? y.peer = some q ∧ q.kind = .outBuf ∧
      q.owner = mod := by
  obtain ⟨q, hq, kind, own⟩ := he.peer hm (mainExit?_mem main) there
  obtain ⟨-, hy⟩ := he.exitsOf hm (mainExit?_mem main)
  refine ⟨q, ?_, hq, kind, own⟩
  rw [show e.exit y.id = .ok y from require_ok.mpr hy]
  exact run_op hq

theorem delay_settles (hd : Sturdy E d) (asked : o.balance = true) (hm : d.op? mod = some m)
    (hk : m.kind.isModule = true) (once : m.kind.exitsOnce = true) :
    Settles E (Going E o d) (Branch.delay mod) := by
  intro e he
  have se := he.sturdy hd
  obtain ⟨f, s, hm', -⟩ := he.framed.ops hm
  have runs : Concludes E (Branch.delay mod) e fun _ e' => E ∨ Rises e' := by
    refine .look_bind (run_op hm') ?_
    split
    next x single =>
      -- the output buffer and the input buffer of the module
      obtain ⟨y, hy, -⟩ := se.wf.exits.holds hm' x (single ▸ List.mem_singleton_self x)
      have id : y.id = x := se.wf.exitIds _ _ hy
      obtain ⟨q, target, hq, qkind, qown⟩ := se.wf.outBuf hm' (mainExit?_single single hy)
        (se.ended hm' hk (exitsOf_single single hy))
      obtain ⟨b, ib, hb, carried, front⟩ := se.laid.front hm' hk
      obtain ⟨p, hp, rfl⟩ := view_some.mp hb
      obtain ⟨g, hg, -⟩ := view_some.mp (se.laid.go hq)
      have deps : e.portDeps q.go = .ok (e.depsOnPort g) := by
        rw [Design.portDeps, show e.port q.go = .ok g from require_ok.mpr hg]
        rfl
      rw [id] at target
      refine .look_bind (require_ok.mpr hp) (.look_bind target (.look_bind deps ?_))
      split
      · have up := climbs_front front (qown ▸ place_of_op hq) (place_of_op hm') (by rw [qkind]; decide)
        obtain ⟨n, i, e', first, run, rises⟩ := se.delay hq carried (.inr up)
        exact .look_bind first (.inl (Gives.discard (Gives.ofBuild ⟨i, e', run, rises⟩)))
      · exact .pure he.rises
    next other =>
      have allowed : E := se.orderly.resolve_right fun orderly => by
        obtain ⟨x, y, single, -⟩ := (orderly.tidy.sits hm').exit once
        exact other x single
      exact .query (reject_replies (Q := fun _ => False) se.wf hm' allowed _) fun _ _ no => no.elim
  have kind : ∀ m', d.op? mod = some m' → m'.kind.isModule = true := by
    intro m' hm'
    cases hm.symm.trans hm'
    exact hk
  refine runs.learn fun _ e' run rises => ?_
  obtain ⟨wf, framed⟩ := (stays_delay hd.wf hd.laid asked kind).run run ⟨he.wf, he.framed⟩
  exact ⟨wf, framed, rises⟩

section
variable (hm : d.op? op = some m)

theorem Going.look_op {m : Operation} (he : Going E o d e) (hm : d.op? op = some m) :
    ∃ f s, e.op op = .ok { m with flopNeeded := f, stalls := s } := by
  obtain ⟨f, s, hm', -⟩ := he.framed.ops hm
  exact ⟨f, s, run_op hm'⟩

include hm

theorem children_strides (skip : List OpId) (hv : ∀ c ∈ m.children, Strides E (Going E o d) (visit c inLoop)) :
    Strides E (Going E o d) (Branch.children visit op inLoop skip) := by
  apply Strides.look_bind
  intro e he
  obtain ⟨f, s, hop⟩ := he.look_op hm
  refine ⟨_, hop, ?_⟩
  apply (strides_closed E _).bind
  · apply (strides_closed E _).mapM_of_mem
    exact fun c hc => hv c (List.mem_of_mem_filter hc)
  · exact fun _ => (strides_closed E _).pure _

theorem leaving_strides (ls : List Latency) : Strides E (Going E o d) (Branch.leaving op ls) := by
  apply Strides.look_bind
  intro e he
  obtain ⟨f, s, hop⟩ := he.look_op hm
  rw [hop]
  exact ⟨_, rfl, (strides_closed E _).pure _⟩

theorem contents_strides (hv : ∀ c ∈ m.children, Strides E (Going E o d) (visit c inLoop)) :
    Strides E (Going E o d) (Branch.contents visit op inLoop) :=
  (strides_closed E _).bind (children_strides hm [] hv) fun ls => leaving_strides hm ls

variable (hd : Sturdy E d)
include hd

theorem branch_strides (asked : o.balance = true) (reached : Reached d op) (hk : m.kind = .branch)
    (hv : ∀ c, Relation.TransGen (Enters d) op c → ∀ inLoop, Strides E (Going E o d) (visit c inLoop)) :
    Strides E (Going E o d) (Branch.branch visit op inLoop) := by
  have own : ∀ {inLoop}, ∀ c ∈ m.children, Strides E (Going E o d) (visit c inLoop) :=
    fun c hc => hv c (.single ⟨m, hm, .inl hc⟩) _
  unfold Branch.branch
  split
  · exact contents_strides hm own
  apply Strides.look_bind
  intro e he
  obtain ⟨f, s, hop⟩ := he.look_op hm
  refine ⟨_, hop, ?_⟩
  dsimp only
  have sides : ∀ {side}, d.place? side = some (.block, op) →
      Strides E (Going E o d) (Branch.contents visit side true) ∧ Settles E (Going E o d) (Branch.delay side) := by
    intro side place
    obtain ⟨b, hb, mem⟩ := hd.wf.placed_child hm place
    have kind : b.kind = .block := (Operation.place_of hb place).1
    refine ⟨contents_strides hb fun c hc => ?_, delay_settles hd asked hb (by rw [kind]; rfl) (by rw [kind]; rfl)⟩
    exact hv c (.tail (.single ⟨m, hm, .inl mem⟩) ⟨b, hb, .inl hc⟩) _
  have forks := hd.forks reached hm hk
  apply (strides_closed E _).bind (sides forks.trueSide).1
  intro trues
  apply (strides_closed E _).bind (sides forks.falseSide).1
  intro falses
  apply (strides_closed E _).bind (children_strides hm _ own)
  intro rest
  have tail : ∀ r ls, Strides E (Going E o d) (do modify (· ++ [r]); Branch.leaving op ls) := by
    intro r ls
    apply (strides_closed E _).bind
    · exact ⟨fun _ => (settles_closed E _).pure _⟩
    · exact fun _ => leaving_strides hm ls
  split
  · exact tail ..
  · exact (strides_closed E _).bind (.lift (sides forks.trueSide).2) fun _ => tail ..
  · exact (strides_closed E _).bind (.lift (sides forks.falseSide).2) fun _ => tail ..
  · have self := delay_settles hd asked hm (by rw [hk]; rfl) (by rw [hk]; rfl)
    exact (strides_closed E _).bind (.lift self) fun _ => tail ..

theorem taskCall_strides (hk : m.kind = .taskCall)
    (hv : ∀ c, Relation.TransGen (Enters d) op c → ∀ inLoop, Strides E (Going E o d) (visit c inLoop)) :
    Strides E (Going E o d) (Branch.taskCall visit op inLoop) := by
  apply (strides_closed E _).bind
  · exact children_strides hm [] fun c hc => hv c (.single ⟨m, hm, .inl hc⟩) _
  intro own
  apply Strides.look_bind
  intro e he
  obtain ⟨f, s, hop⟩ := he.look_op hm
  refine ⟨_, hop, ?_⟩
  split
  · exact leaving_strides hm _
  next ne =>
    have ne : m.body ≠ absent := by simpa using ne
    obtain ⟨k, place, -⟩ := hd.shaped.calls (view_of Operation.stem hm) hk ne
    obtain ⟨b, hb, -⟩ := op_of_place place
    apply (strides_closed E _).bind
    · exact contents_strides hb fun c hc => hv c (.single ⟨m, hm, .inr ⟨hk, b, hb, hc⟩⟩) _
    · exact fun _ => leaving_strides hm _

omit hm hd in
theorem Kind.fits_plain {k : Kind} {l : Option Kind} (h : k.fits l = true) :
    (k.isHardware || k == .invalid) = false := by
  cases l with
  | none =>
    simp only [Kind.fits, beq_iff_eq] at h
    rw [h]
    rfl
  | some l => cases k <;> simp [Kind.fits, Kind.isAccess, Kind.isRead, Kind.isWrite, Kind.isHardware] at h ⊢

theorem component_strides (asked : o.balance = true) (reached : Reached d op)
    (hv : ∀ c, Relation.TransGen (Enters d) op c → ∀ inLoop, Strides E (Going E o d) (visit c inLoop)) :
    Strides E (Going E o d) (Branch.component visit op inLoop) := by
  have own : ∀ {inLoop}, ∀ c ∈ m.children, Strides E (Going E o d) (visit c inLoop) :=
    fun c hc => hv c (.single ⟨m, hm, .inl hc⟩) _
  apply Strides.look_bind
  intro e he
  obtain ⟨f, s, hop⟩ := he.look_op hm
  refine ⟨_, hop, ?_⟩
  split
  · exact contents_strides hm own
  next hk => exact branch_strides hm hd asked reached hk hv
  next hk => exact taskCall_strides hm hd hk hv
  next =>
    split
    · exact contents_strides hm own
    split
    next odd =>
      have allowed : E := hd.orderly.resolve_right fun orderly => by
        rw [Kind.fits_plain (orderly.tidy.lodged (place_of_op hm)).fits] at odd
        cases odd
      apply Strides.look_bind
      intro e he
      obtain ⟨f, s, hm', -⟩ := he.framed.ops hm
      obtain ⟨s, hs, -⟩ := site_total he.wf hm'
      exact ⟨s, hs, .throw allowed _⟩
    · exact .lift fun e he => .inl ⟨_, _, rfl, he⟩

end

theorem visit_strides (hd : Sturdy E d) (asked : o.balance = true) (n : Nat) : ∀ {op m inLoop}, Reached d op →
    d.op? op = some m → d.room op < n → Strides E (Going E o d) (Branch.visit n op inLoop) := by
  induction n with
  | zero => exact fun _ _ h => absurd h (Nat.not_lt_zero _)
  | succ n ih =>
    intro op m inLoop reached hm room
    apply component_strides hm hd asked reached
    intro c path inLoop
    obtain ⟨k, hk⟩ := enters_op hd.wf path
    have := enters_room_lt hd.descends path
    exact ih (reached.enters path) hk (by omega)

theorem balance_settles (hd : Sturdy E d) : Settles E (Going E o d) (Branch.balance o) := by
  unfold Branch.balance
  split
  · exact (settles_closed E _).pure _
  next asked =>
    intro e he
    refine (settles_closed E (Going E o d)).foldlM_of_mem ?_ [] he
    intro records t ht
    obtain ⟨c, hc, -⟩ := Region.task_call (he.sturdy hd).shaped (Array.mem_toList_iff.mp ht)
    obtain ⟨m, f, s, hm, -⟩ := he.framed.opBack hc
    have asked : o.balance = true := by simpa using asked
    have reached : Reached d t.call := he.framed.reached ⟨t, Array.mem_toList_iff.mp ht, .refl⟩
    rw [he.framed.opCount]
    apply (settles_closed E _).bind
    · exact fun e he => ((visit_strides hd asked _ reached hm (room_le d _)).run records he).within
    · exact fun _ => (settles_closed E _).pure _

end

end Datapath
