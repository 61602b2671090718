import Datapath.Proofs.Balancing
import Datapath.Proofs.Hazards

/-!
# Balance after the other passes

The passes that follow balancing leave operations, ports and exits in place and lose no dependency.
What they may spoil is the judgement of a branch, by a new delay of something that runs in it. Where
no such delay is added, another run of the balancer finds nothing to do.
-/

namespace Datapath

open List

variable {d d' e : Design}

/-! ## The passes after balancing -/

def Operation.still (o : Operation) : Operation := { o with flopNeeded := false, stalls := [] }

theorem Operation.of_still {o q : Operation} (h : q.still = o.still) :
    q = { o with flopNeeded := q.flopNeeded, stalls := q.stalls } := by
  cases q
  simp only [Operation.still] at h
  simp_all

theorem op_of_still (h : view ys Operation.still = view xs Operation.still) (ho : at? xs i = some o) :
    ∃ b s, at? ys i = some { o with flopNeeded := b, stalls := s } := by
  obtain ⟨q, hq, e⟩ := view_some.mp (h ▸ view_of Operation.still ho)
  exact ⟨_, _, hq.trans (congrArg some (Operation.of_still e))⟩

structure Steady (d d' : Design) : Prop where
  size : d'.ops.size = d.ops.size
  ops : view d'.ops Operation.still = view d.ops Operation.still
  ports : d'.ports = d.ports
  exits : d'.exits = d.exits
  entries : d'.entries = d.entries
  deps : d'.deps = d.deps
  calls : view d'.tasks Task.call = view d.tasks Task.call

theorem Steady.chains : Chains Steady where
  refl _ := ⟨rfl, rfl, rfl, rfl, rfl, rfl, rfl⟩
  trans h h' := ⟨h'.size.trans h.size, h'.ops.trans h.ops, h'.ports.trans h.ports, h'.exits.trans h.exits,
    h'.entries.trans h.entries, h'.deps.trans h.deps, h'.calls.trans h.calls⟩

theorem Steady.spaces : Spaces Steady :=
  { Steady.chains with
    space := ⟨fun {d _ _} h => by
      obtain ⟨t, -, h⟩ := bind_ok.mp h
      cases h
      exact { Steady.chains.refl d with calls := view_edit_same _ _ fun _ => rfl }⟩ }

theorem Steady.tracks : Tracks Steady := by
  refine .of_regions Steady.chains ⟨fun {d _ _} h => ?_⟩ (fun {d _} => { Steady.chains.refl d with }) fun {d} => ?_
  · obtain ⟨-, rfl⟩ := changeOp_ok h
    exact { Steady.chains.refl d with size := size_editAt .., ops := view_edit_same _ _ fun _ => rfl }
  · exact { Steady.chains.refl d with size := Array.size_map .., ops := view_map_same _ fun _ => rfl }

def SameTasks (d d' : Design) : Prop := d'.tasks = d.tasks

theorem SameTasks.bypasses : Bypasses SameTasks where
  refl _ := rfl
  trans h h' := Eq.trans h' h
  depend := ⟨fun h => by obtain ⟨-, -, _, _, _, -, -, -, -, rfl⟩ := addDependency_ok h; rfl⟩
  reroute := ⟨fun h => by obtain ⟨_, _, _, -, -, -, rfl⟩ := relocate_ok h; rfl⟩
  release := ⟨fun h => by obtain ⟨-, rfl⟩ := changeOp_ok h; rfl⟩

structure Onward (d d' : Design) : Prop where
  size : d'.ops.size = d.ops.size
  ops : view d'.ops Operation.still = view d.ops Operation.still
  ports : d'.ports = d.ports
  exits : d'.exits = d.exits
  calls : view d'.tasks Task.call = view d.tasks Task.call
  entries : ∀ i, ∃ more, (∀ k ∈ more, (d.deps.size : Int) ≤ k) ∧
    at? d'.entries i = (at? d.entries i).map fun e => { e with deps := e.deps ++ more }
  deps : ∀ {i v}, at? d.deps i = some v → ∃ s, at? d'.deps i = some { v with source := s } ∧
    (¬ IsRegisterOutput d v.source → s = v.source)

theorem still_of_bare (h : view ys Operation.bare = view xs Operation.bare) :
    view ys Operation.still = view xs Operation.still := by
  have twice : ∀ zs : Array Operation, view zs Operation.still = fun i =>
      (view zs Operation.bare i).map fun o => { o with stalls := [] } := by
    intro zs
    funext i
    unfold view
    rw [Option.map_map]
    rfl
  rw [twice, twice, h]

theorem Rerouted.onward (h : Rerouted d e) (same : SameTasks d e) (h' : Steady e d') : Onward d d' where
  size := h'.size.trans h.size
  ops := h'.ops.trans (still_of_bare h.ops)
  ports := h'.ports.trans h.ports
  exits := h'.exits.trans h.exits
  calls := h'.calls.trans (by rw [show e.tasks = d.tasks from same])
  entries := by rw [h'.entries]; exact h.entries
  deps := by rw [h'.deps]; exact h.deps

theorem schedule_ok (h : (schedule o).run d = .ok (.ok (), d')) :
    ∃ rs e r f, (Branch.balance o).run d = .ok (.ok rs, e) ∧ (Loop.removeFlops o).run e = .ok (.ok r, f) ∧
      Steady f d' := by
  simp only [schedule, step_bind_ok, step_pure_ok, within_ok] at h
  obtain ⟨rs, e, h1, r, f, h2, _, g, h3, _, k, h4, -, rfl⟩ := h
  exact ⟨rs, e, r, f, h1, h2, Steady.chains.trans (Steady.spaces.analyze.run h3) (Steady.tracks.trackStalls.run h4)⟩

theorem Onward.op (h : Onward d d') (ho : at? d.ops i = some o) :
    ∃ b s, at? d'.ops i = some { o with flopNeeded := b, stalls := s } := op_of_still h.ops ho

theorem Onward.opBack (h : Onward d d') (ho : at? d'.ops i = some o) :
    ∃ b s, at? d.ops i = some { o with flopNeeded := b, stalls := s } := op_of_still h.ops.symm ho

theorem Onward.tasks (h : Onward d d') : d'.tasks.toList.map Task.call = d.tasks.toList.map Task.call := by
  apply ext_getElem?
  intro n
  have := congrFun h.calls n
  simpa [view, at?] using this

/-! ## Dependencies on a port -/

theorem Onward.drives (h : Onward d d') (hv : v ∈ d.depsOnPort p) :
    ∃ s, { v with source := s } ∈ d'.depsOnPort p ∧ (¬ IsRegisterOutput d v.source → s = v.source) := by
  obtain ⟨o, i, e, k, ho, hi, he, hk, hv, ht⟩ := Branch.mem_depsOnPort.mp hv
  obtain ⟨b, s, ho'⟩ := h.op ho
  obtain ⟨more, -, he'⟩ := h.entries i
  rw [he] at he'
  obtain ⟨source, hv', same⟩ := h.deps hv
  exact ⟨source, Branch.mem_depsOnPort.mpr ⟨_, i, _, k, ho', hi, he', mem_append_left _ hk, hv', ht⟩, same⟩

theorem Onward.drivesBack (h : Onward d d') (hd : WellFormed d) (hv : v ∈ d'.depsOnPort p) :
    (∃ s, { v with source := s } ∈ d.depsOnPort p) ∨ ∃ k : Int, d.deps.size ≤ k ∧ at? d'.deps k = some v := by
  obtain ⟨o, i, e, k, ho, hi, he, hk, hv, ht⟩ := Branch.mem_depsOnPort.mp hv
  obtain ⟨b, s, ho'⟩ := h.opBack ho
  obtain ⟨more, new, he'⟩ := h.entries i
  rw [he] at he'
  obtain ⟨e', he0, rfl⟩ := Option.map_eq_some_iff.mp he'.symm
  rcases mem_append.mp hk with hk | hk
  · obtain ⟨w, hw, -⟩ := hd.deps.holds he0 k hk
    obtain ⟨source, hw', -⟩ := h.deps hw
    cases hv.symm.trans hw'
    exact .inl ⟨w.source, Branch.mem_depsOnPort.mpr ⟨_, i, e', k, ho', hi, he0, hk, hw, ht⟩⟩
  · exact .inr ⟨k, new k hk, hv⟩

namespace Branch

/-! ## What runs inside a branch -/

def Runs (d : Design) (m c : OpId) : Prop :=
  (∃ k, at? d.ops c = some k ∧ k.owner = m) ∨ ∃ o, at? d.ops m = some o ∧ o.kind = .taskCall ∧ o.body = c

def InLoop (d : Design) (c : OpId) : Prop :=
  ∃ l lp, at? d.ops l = some lp ∧ lp.kind = .loop ∧ Relation.ReflTransGen (Runs d) l c

/-- The operation is a branch inside a loop, or runs in one. -/
def InBranch (d : Design) (c : OpId) : Prop :=
  ∃ b o, at? d.ops b = some o ∧ o.kind = .branch ∧ InLoop d b ∧ Relation.ReflTransGen (Runs d) b c

/-- No delay of an operation that runs in a branch inside a loop is new. -/
def Spares (d d' : Design) : Prop :=
  ∀ ⦃m c k v p⦄, InBranch d m → Runs d m c → (d.deps.size : Int) ≤ k → d'.dep? k = some v → delays v = true →
    d'.port? v.target = some p → p.owner ≠ c

theorem InLoop.step (h : InLoop d m) (hc : Runs d m c) : InLoop d c := by
  obtain ⟨l, lp, hl, hk, runs⟩ := h
  exact ⟨l, lp, hl, hk, runs.tail hc⟩

theorem InBranch.step (h : InBranch d m) (hc : Runs d m c) : InBranch d c := by
  obtain ⟨b, o, hb, hk, hl, runs⟩ := h
  exact ⟨b, o, hb, hk, hl, runs.tail hc⟩

theorem runs_child (hd : WellFormed d) (ho : at? d.ops m = some o) (hc : c ∈ o.children) : Runs d m c :=
  .inl (hd.child ho hc)

theorem runs_side (hs : Static d.ops) (ho : at? d.ops m = some o) (hk : o.kind = .branch)
    (side : c = o.trueSide ∨ c = o.falseSide) (hc : at? d.ops c = some k) : Runs d m c := by
  obtain ⟨q, hq, -, hown⟩ := hs.forks ho hk side (ne_absent hc)
  exact .inl ⟨q, hq, hown⟩

section
variable (h : Onward d d') (hd : WellFormed d) (spares : Spares d d') (hm : InBranch d m)
  (ho : at? d.ops m = some o)
include h hd spares hm ho

theorem late_onward : hasDelayedChild d' o = hasDelayedChild d o := by
  rw [Bool.eq_iff_iff, delayed_child, delayed_child, h.ports]
  constructor
  · rintro ⟨c, hc, k, p, v, hk, hp, hv, hdel⟩
    obtain ⟨b, s, hk'⟩ := h.opBack hk
    rcases h.drivesBack hd hv with ⟨source, hv'⟩ | ⟨i, new, hi⟩
    · exact ⟨c, hc, _, p, _, hk', hp, hv', hdel⟩
    · exfalso
      obtain ⟨-, -, -, -, -, -, -, -, -, ht⟩ := mem_depsOnPort.mp hv
      obtain ⟨q, hq, hown⟩ := hd.ports.holds hk' k.go mem_cons_self
      cases hp.symm.trans hq
      refine spares hm (runs_child hd ho hc) new hi hdel ?_ (Option.some.inj hown)
      rw [ht, hd.portIds _ _ hp, Design.port?, h.ports]
      exact hp
  · rintro ⟨c, hc, k, p, v, hk, hp, hv, hdel⟩
    obtain ⟨b, s, hk'⟩ := h.op hk
    obtain ⟨source, hv', -⟩ := h.drives hv
    exact ⟨c, hc, _, p, _, hk', hp, hv', hdel⟩

theorem leave_onward (ls : List Latency) : Branch.leave d' o ls = Branch.leave d o ls := by
  unfold Branch.leave
  rw [late_onward h hd spares hm ho]

end

theorem InBranch.le (hd : WellFormed d) (hops : ∀ o ∈ d.ops, o.kind ≠ .taskCall ∧ (o.kind ≠ .branch ∨ k ≤ o.id))
    (h : InBranch d m) (hc : Runs d m c) : k < c := by
  have older : ∀ m c : Int, Runs d m c → m < c := by
    rintro m c (⟨q, hq, rfl⟩ | ⟨q, hq, hk, -⟩)
    · exact hd.nesting.older hq
    · exact absurd hk (hops q (mem_of_at? hq)).1
  obtain ⟨b, o, hb, hk, -, runs⟩ := h
  have le : k ≤ b := by
    rcases (hops o (mem_of_at? hb)).2 with hn | le
    · exact absurd hk hn
    · rwa [hd.nesting.ids b o hb] at le
  have : b ≤ m := by
    clear hc
    induction runs with
    | refl => exact Int.le_refl _
    | tail _ step ih => exact Int.le_trans ih (Int.le_of_lt (older _ _ step))
  exact Int.lt_of_le_of_lt (Int.le_trans le this) (older m c hc)

/-! ## Delays of branches -/

theorem go_not_register (hd : WellFormed d) (hs : Shaped d) (ho : at? d.ops m = some o) (hk : o.kind = .branch)
    (hside : o.trueSide ≠ absent) (hgo : at? d.ports o.go = some go) : ¬ IsRegisterOutput d go.peer := by
  intro h
  obtain ⟨k, reg, howner, hreg, hkind⟩ := h.owner hd
  rcases (hs.ops (view_of _ ho)).forks hk with h | f
  · exact hside h.2.1
  obtain ⟨b, ib, hb, ⟨x, hx, hxo⟩, hib⟩ := f.go
  cases (view_of Port.peer hgo).symm.trans hb
  obtain ⟨c, hc, rfl⟩ := view_some.mp hx
  obtain ⟨y, hy, rfl⟩ := view_some.mp hxo
  have : k = y.owner := by
    unfold Design.busOwner? at howner
    rw [show d.bus? go.peer = some c from hc] at howner
    simp only [Option.bind_eq_bind, Option.bind_some] at howner
    rw [show d.exit? c.exit = some y from hy] at howner
    exact (Option.some.inj howner).symm
  subst this
  obtain ⟨q, hq, hplace⟩ := view_some.mp hib
  cases hq.symm.trans hreg
  have buffer : reg.kind = .inBuf := congrArg Prod.fst hplace
  rw [hkind] at buffer
  cases buffer

theorem Carries.onward (h : Onward d d') (hd : WellFormed d) (hs : Shaped d) (ho : at? d.ops m = some o)
    (hk : o.kind = .branch) (hside : o.trueSide ≠ absent) (hc : Carries d m v) :
    ∃ w, Carries d' m w := by
  obtain ⟨q, x, y, go, ob, p, hq, hx, hy, hob, hgo, hp, hv, hdel, hsource⟩ := hc
  cases ho.symm.trans hq
  obtain ⟨b, s, ho'⟩ := h.op ho
  obtain ⟨b', s', hob'⟩ := h.op hob
  obtain ⟨source, hv', same⟩ := h.drives hv
  rw [hsource] at same
  refine ⟨_, _, x, y, go, _, p, ho', hx, h.exits ▸ hy, hob', h.ports ▸ hgo, h.ports ▸ hp, hv', hdel, ?_⟩
  exact same (go_not_register hd hs ho hk hside hgo)

/-! ## Walks -/

def Job.Placed (d : Design) : Job → Prop
  | visit c il | contents c il => il = true → InLoop d c
  | all cs il => il = true → ∀ c ∈ cs, InLoop d c

def Job.Enclosed (d : Design) : Job → Prop
  | visit c _ | contents c _ => InBranch d c
  | all cs _ => ∀ c ∈ cs, InBranch d c

theorem Rests.onward (h : Onward d d') (hd : WellFormed d) (hs : Shaped d) (spares : Spares d d')
    (hr : Rests d n j ls rs) (settled : ∀ r ∈ rs, r.action.settled = r.action) (hj : j.Placed d) :
    ∃ ls', Rests d' n j ls' rs ∧ (j.Enclosed d → ls' = ls) := by
  have hst := static_of hd hs
  induction hr with
  | nil => exact ⟨[], .nil, fun _ => rfl⟩
  | cons _ _ ih1 ih2 =>
    obtain ⟨ls1, h1, e1⟩ := ih1 (fun r hr => settled r (mem_append_left _ hr)) fun hl =>
      hj hl _ mem_cons_self
    obtain ⟨ls2, h2, e2⟩ := ih2 (fun r hr => settled r (mem_append_right _ hr)) fun hl c hc =>
      hj hl c (mem_cons_of_mem _ hc)
    refine ⟨_, .cons h1 h2, fun inside => ?_⟩
    rw [e1 (inside _ mem_cons_self), e2 fun c hc => inside c (mem_cons_of_mem _ hc)]
  | contents ho _ ih =>
    obtain ⟨b, s, ho'⟩ := h.op ho
    obtain ⟨ls', inner, e⟩ := ih settled fun hl c hc => (hj hl).step (runs_child hd ho hc)
    refine ⟨_, .contents ho' inner, fun inside => ?_⟩
    rw [e fun c hc => inside.step (runs_child hd ho hc)]
    exact leave_onward h hd spares inside ho _
  | leaf ho hr hh =>
    obtain ⟨b, s, ho'⟩ := h.op ho
    refine ⟨_, .leaf ho' hr hh, fun _ => ?_⟩
    rw [exitsOf_congr h.exits]
    rfl
  | @plain n op o il ls rs ho hr _ ih =>
    obtain ⟨b, s, ho'⟩ := h.op ho
    obtain ⟨ls', inner, e⟩ := ih settled (by
      intro hl
      rcases Bool.or_eq_true_iff.mp hl with hl | hk
      · exact hj hl
      · exact ⟨op, o, ho, beq_iff_eq.mp hk, .refl⟩)
    exact ⟨_, .plain ho' hr inner, e⟩
  | idle ho hr _ ih =>
    obtain ⟨b, s, ho'⟩ := h.op ho
    obtain ⟨ls', own, e⟩ := ih settled fun hl c hc => (hj hl).step (runs_child hd ho hc)
    refine ⟨_, .idle ho' hr own, fun inside => ?_⟩
    rw [e fun c hc => inside.step (runs_child hd ho hc)]
    exact leave_onward h hd spares inside ho _
  | @call n op o il ls ls' rs rs' ho hr _ _ ih1 ih2 =>
    obtain ⟨b, s, ho'⟩ := h.op ho
    have body : Runs d op o.body := .inr ⟨o, ho, (role_call hr).1, rfl⟩
    obtain ⟨ls1, own, e1⟩ := ih1 (fun r hr => settled r (mem_append_left _ hr)) fun hl c hc =>
      (hj hl).step (runs_child hd ho hc)
    obtain ⟨ls2, called, e2⟩ := ih2 (fun r hr => settled r (mem_append_right _ hr)) fun hl => (hj hl).step body
    refine ⟨_, .call ho' hr own called, fun inside => ?_⟩
    rw [e1 fun c hc => inside.step (runs_child hd ho hc), e2 (inside.step body)]
    exact leave_onward h hd spares inside ho _
  | @fork n op o ts fs ls rs1 rs2 rs3 ho hr trueSide falseSide rest acts ih1 ih2 ih3 =>
    obtain ⟨b, s, ho'⟩ := h.op ho
    have hk := role_fork hr
    simp only [mem_append, mem_singleton] at settled
    have loop : InLoop d op := hj rfl
    have inside : InBranch d op := ⟨op, o, ho, hk, loop, .refl⟩
    have side : ∀ {c ks qs}, Rests d n (.contents c true) ks qs → c = o.trueSide ∨ c = o.falseSide →
      Runs d op c := by
      intro c ks qs h hc
      cases h with
      | contents hq => exact runs_side hst ho hk hc hq
    have child : ∀ c ∈ middle o, Runs d op c := fun c hc => runs_child hd ho (mem_filter.mp hc).1
    have runs1 := side trueSide (.inl rfl)
    have runs2 := side falseSide (.inr rfl)
    obtain ⟨_, t, e1⟩ := ih1 (fun r hr => settled r (.inl (.inl (.inl hr)))) fun _ => loop.step runs1
    obtain ⟨_, f, e2⟩ := ih2 (fun r hr => settled r (.inl (.inl (.inr hr)))) fun _ => loop.step runs2
    obtain ⟨_, m, e3⟩ := ih3 (fun r hr => settled r (.inl (.inr hr))) fun _ c hc => loop.step (child c hc)
    rw [e1 (inside.step runs1)] at t
    rw [e2 (inside.step runs2)] at f
    rw [e3 fun c hc => inside.step (child c hc)] at m
    refine ⟨_, .fork ho' hr t f m ?_, fun _ => leave_onward h hd spares inside ho _⟩
    have action : (judge ts fs).settled = judge ts fs := settled _ (.inr rfl)
    cases ha : judge ts fs with
    | balanced => rfl
    | delayTrue | delayFalse => rw [ha] at action; cases action
    | delayBranch =>
      rw [ha] at acts
      obtain ⟨v, hv⟩ := (touch_delay hd acts).held
      have ne : o.trueSide ≠ absent := by
        cases trueSide with
        | contents hq => exact ne_absent hq
      obtain ⟨w, hw⟩ := hv.onward h hd hs ho hk ne
      exact delay_rests hw

/-! ## Another run of the balancer -/

theorem Settled.settled (h : Settled rs qs) : ∀ q ∈ qs, q.action.settled = q.action := by
  intro q hq
  have : (q.branch, q.action) ∈ rs.map fun r => (r.branch, r.action.settled) := by
    rw [← show _ = _ from h]
    exact mem_map.mpr ⟨q, hq, rfl⟩
  obtain ⟨r, -, e⟩ := mem_map.mp this
  have action : r.action.settled = q.action := congrArg Prod.snd e
  rw [← action]
  cases r.action <;> rfl

theorem balance_off (h : o.balance = false) (d : Design) : (balance o).run d = .ok (.ok [], d) := by
  simp only [balance, h, Bool.not_false]
  rfl

section
variable (hd : Built d) (h : (balance o).run d = .ok (.ok rs, e))
include hd h

theorem balance_onward (onward : Onward e d')
    (spares : Spares e d') : ∃ qs, (balance o).run d' = .ok (.ok qs, d') ∧ Settled rs qs := by
  cases ho : o.balance with
  | false =>
    rw [balance_off ho] at h
    cases h
    exact ⟨[], balance_off ho d', rfl⟩
  | true =>
    obtain ⟨he, longer, ls, qs, rests, settled⟩ := balance_settled hd.wellFormed hd.shaped ho h
    obtain ⟨_, does⟩ := balance_does ho h
    have shaped : Shaped e := hd.shaped.grows ((Grows.connects.balances.balance o).run h)
    obtain ⟨ls', rests', -⟩ := rests.onward onward he shaped spares settled.settled nofun
    rw [← does.sameOps.tasks, ← longer.ops, ← onward.tasks, ← onward.size] at rests'
    exact ⟨qs, balance_rests ho rests', settled⟩

theorem balanced_wellFormed : WellFormed e := by
  cases ho : o.balance with
  | false =>
    rw [balance_off ho] at h
    cases h
    exact hd.wellFormed
  | true => exact (balance_settled hd.wellFormed hd.shaped ho h).1

theorem removeFlops_onward {f : Design}
    (h' : (Loop.removeFlops o).run e = .ok (.ok r, f)) (steady : Steady f d') : Onward e d' := by
  obtain ⟨-, rerouted, -⟩ := Loop.removeFlops_ok (balanced_wellFormed hd h) h'
  exact rerouted.onward ((SameTasks.bypasses.removeFlops o).run h') steady

end

theorem spares_of_count (h : d'.deps.size = d.deps.size) : Spares d d' := by
  intro m c k v p _ _ hk hv
  have := (at?_lt hv).2
  omega

def Lasting (o : Options) : Prop :=
  ∀ ⦃d d'⦄, Built d → (schedule o).run d = .ok (.ok (), d') → ∃ qs, (balance o).run d' = .ok (.ok qs, d')

def sideCommands : List Command :=
  [.newResource .memory "x" false, .newTask "t" 0 0 .zero true, .newLoop 3 "l" 0 0 .zero, .setLatency 17 .one,
   .newBranch 17 "b" 0 0 .zero, .newAccess .memoryRead 28 "a" 0 .zero, .start 21 13]

theorem not_lasting (cmds : List Command) (h : ∃ d, runAll cmds { name := "x" } = some d ∧
    ∃ u d', (schedule o).run d = .ok (.ok u, d') ∧ ∃ rs e, (balance o).run d' = .ok (.ok rs, e) ∧
    e.deps.size ≠ d'.deps.size) : ¬ Lasting o := by
  intro lasting
  obtain ⟨d, hd, ⟨⟩, d', h, rs, e, h', ne⟩ := h
  obtain ⟨qs, same⟩ := lasting ((Built.empty "x").runAll hd) h
  rw [h'] at same
  cases same
  exact ne rfl

theorem delays_unbalance (hb : o.balance = true) (hrem : o.removeFlop = true) (hdel : o.delays = true) :
    ¬ Lasting o := by
  obtain ⟨policy, balance, removeFlop, failFast⟩ := o
  cases hb
  cases hrem
  cases failFast with
  | true => cases hdel
  | false =>
    cases policy with
    | fixNone | unnamed code => cases hdel
    | fixFewest | fixMost | firstAlways | lastAlways =>
      exact not_lasting sideCommands (by decide +kernel)

/-- After all passes the balancer finds nothing to do, unless the removal of loop registers delayed
something that runs in a branch inside a loop. The options under which it never finds anything are
exactly those without balancing, without the removal, or without delays. -/
theorem balance_lasts_without_delays (o : Options) :
    (∀ {d d'}, Built d → (schedule o).run d = .ok (.ok (), d') → ∃ rs e, (balance o).run d = .ok (.ok rs, e) ∧
      (Spares e d' → ∃ qs, (balance o).run d' = .ok (.ok qs, d') ∧ Settled rs qs)) ∧
    (Lasting o ↔ (o.balance && (o.removeFlop && o.delays)) = false) := by
  refine ⟨fun hd h => ?_, fun lasting => ?_, fun off d d' hd h => ?_⟩
  · obtain ⟨rs, e, r, f, h₁, h₂, steady⟩ := schedule_ok h
    exact ⟨rs, e, h₁, balance_onward hd h₁ (removeFlops_onward hd h₁ h₂ steady)⟩
  · rw [← Bool.not_eq_true, Bool.and_eq_true, Bool.and_eq_true]
    exact fun ⟨hb, hrem, hdel⟩ => delays_unbalance hb hrem hdel lasting
  · obtain ⟨rs, e, r, f, h₁, h₂, steady⟩ := schedule_ok h
    rcases Bool.and_eq_false_iff.mp off with hb | off
    · exact ⟨[], balance_off hb d'⟩
    · have spares : Spares e d' := by
        refine spares_of_count ?_
        rw [steady.deps]
        exact Loop.removeFlops_count (balanced_wellFormed hd h₁) (Bool.and_eq_false_iff.mp off) h₂
      obtain ⟨qs, same, -⟩ := balance_onward hd h₁ (removeFlops_onward hd h₁ h₂ steady) spares
      exact ⟨qs, same⟩

def besideCommands : List Command :=
  [.newResource .memory "x" false, .newTask "t" 0 0 .zero true, .newLoop 3 "l" 0 0 .zero, .setLatency 17 .one,
   .newAccess .memoryRead 17 "a" 0 .zero, .newBranch 17 "b" 0 0 .zero, .newPrimitive .op 29 "p" 0 0 .one]

theorem beside_balance_lasts : ∃ d d' rs qs e, runAll besideCommands { name := "x" } = some d ∧
    (schedule { policy := .firstAlways }).run d = .ok (.ok (), d') ∧
    (balance { policy := .firstAlways }).run d = .ok (.ok rs, e) ∧ e.deps.size = d.deps.size + 1 ∧
    d'.deps.size = e.deps.size + 1 ∧ (balance { policy := .firstAlways }).run d' = .ok (.ok qs, d') ∧
    (qs.map fun q => (q.branch, q.action)) = [(22, .balanced)] := by
  obtain ⟨d, hd, ⟨⟩, d', h, rs, e, h₁, hsize, hnew, hrs, hops, hdeps⟩ : ∃ d,
      runAll besideCommands { name := "x" } = some d ∧ ∃ u d', (schedule { policy := .firstAlways }).run
      d = .ok (.ok u, d') ∧ ∃ rs e, (balance { policy := .firstAlways }).run d = .ok (.ok rs, e) ∧
      e.deps.size = d.deps.size + 1 ∧ d'.deps.size = e.deps.size + 1 ∧
      (rs.map fun r => (r.branch, r.action)) = [(22, .delayFalse)] ∧
      (∀ o ∈ e.ops, o.kind ≠ .taskCall ∧ (o.kind ≠ .branch ∨ 22 ≤ o.id)) ∧ ∀ v ∈ d'.deps, v.id < e.deps.size ∨
      (d'.port? v.target).all (·.owner < 22) = true := by
    set_option synthInstance.maxSize 100000 in decide +kernel
  have built := (Built.empty "x").runAll hd
  obtain ⟨_, _, h₁', lasts⟩ := (balance_lasts_without_delays _).1 built h
  cases h₁.symm.trans h₁'
  have ids : Indexed d'.deps Dependency.id := by
    obtain ⟨_, _, _, f, hb, hf, steady⟩ := schedule_ok h
    rw [steady.deps]
    exact (Loop.removeFlops_ok (balanced_wellFormed built hb) hf).1.depIds
  have spares : Spares e d' := by
    intro m c k v p hm hc hk hv _ hp
    have young := hm.le (balanced_wellFormed built h₁) hops hc
    rcases hdeps v (mem_of_at? hv) with old | owner
    · rw [ids k v hv] at old
      exact absurd old (Int.not_lt.mpr hk)
    · rw [hp, Option.all_some, decide_eq_true_eq] at owner
      exact fun own => absurd (own ▸ owner) (Int.not_lt.mpr (Int.le_of_lt young))
  obtain ⟨qs, same, settled⟩ := lasts spares
  refine ⟨d, d', rs, qs, e, hd, h, h₁, hsize, hnew, same, ?_⟩
  obtain ⟨r, rfl, hr⟩ := map_eq_singleton_iff.mp hrs
  rw [show _ = _ from settled, map_singleton, show r.branch = 22 from congrArg Prod.fst hr,
    show r.action = .delayFalse from congrArg Prod.snd hr]
  rfl

/-- The access in the true side is delayed, which leaves the false side faster. -/
theorem delayed_access_unbalances : ∃ d d' e r, runAll sideCommands { name := "x" } = some d ∧
    (schedule { policy := .firstAlways }).run d = .ok (.ok (), d') ∧
    (balance { policy := .firstAlways }).run d' = .ok (.ok [r], e) ∧ r.branch = 21 ∧ r.action = .delayFalse ∧
    e.deps.size = d'.deps.size + 1 := by
  obtain ⟨d, hd, ⟨⟩, d', h, rs, e, h', hrs, hsize⟩ : ∃ d, runAll sideCommands { name := "x" } = some d ∧
      ∃ u d', (schedule { policy := .firstAlways }).run d = .ok (.ok u, d') ∧
      ∃ rs e, (balance { policy := .firstAlways }).run d' = .ok (.ok rs, e) ∧
      (rs.map fun r => (r.branch, r.action)) = [(21, .delayFalse)] ∧ e.deps.size = d'.deps.size + 1 := by
    decide +kernel
  obtain ⟨r, rfl, hr⟩ := map_eq_singleton_iff.mp hrs
  exact ⟨d, d', e, r, hd, h, h', congrArg Prod.fst hr, congrArg Prod.snd hr, hsize⟩

end Branch

end Datapath
