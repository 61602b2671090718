import Datapath.Proofs.SturdyPasses

/-!
# Removing registers of sturdy designs

The registers of a loop of a tidy design only feed back, so what reads them can read something else
without any change to the order of a module. The accesses that have to be delayed lie in modules, where
the buffers that delay them are.
-/

namespace Datapath

open List

variable {e : Design} {E : Prop}

/-! ## Reading past a register -/

section
variable {e' : Design}

theorem dep_mem (we : WellFormed e) (hw : e.dep? i = some w) :
    w ∈ e.depsIn w.entry ∧ ∃ f, view e.entries Entry.face w.entry = some f := by
  obtain ⟨n, hn, mem⟩ := we.deps.held hw rfl
  refine ⟨?_, n.face, view_of _ hn⟩
  rw [depsIn_of hn]
  exact mem_filterMap.mpr ⟨i, mem, hw⟩

theorem relocate_run (we : WellFormed e) (hw : e.dep? i = some w) (hs : view e.buses Bus.exit s = some x) :
    ∃ e', relocate i s e = .ok ((), e') := by
  obtain ⟨b, hb, -⟩ := we.readers.held hw rfl
  have hs' :=
    view_edit_of (f := fun b : Bus => { b with dependents := b.dependents.filter (· != i) }) (k := w.source)
    (fun _ => rfl) hs
  obtain ⟨c, hc, -⟩ := view_some.mp hs'
  unfold relocate
  rw [show e.dep i = .ok w from require_ok.mpr hw, ok_bind, show e.bus w.source = .ok b from require_ok.mpr hb,
    ok_bind]
  refine ⟨_, bind_ok.mpr ⟨c, require_ok.mpr hc, rfl⟩⟩

theorem relocate_rest (hr : relocate i s e = .ok (u, e')) : e'.ops = e.ops ∧ e'.exits = e.exits ∧
    e'.entries = e.entries ∧ view e'.buses Bus.exit = view e.buses Bus.exit ∧ ∀ j, j ≠ i →
      e'.dep? j = e.dep? j := by
  obtain ⟨v, b, c, -, -, -, rfl⟩ := relocate_ok hr
  refine ⟨rfl, rfl, rfl, ?_, fun j ne => at?_edit_ne ne⟩
  rw [view_edit_same _ _ fun _ => by rfl, view_edit_same _ _ fun _ => by rfl]

theorem Rises.relocate (h : Rises e) (we : WellFormed e) (hw : e.dep? i = some w)
    (back : view e.entries Entry.face w.entry = some (k, true))
    (hr : Datapath.relocate i s e = .ok (u, e')) : Rises e' := by
  obtain ⟨ops, exits, entries, buses, deps⟩ := relocate_rest hr
  intro j m hj y hy
  rw [entries] at hj
  -- the dependency that moves is not one of an entry outside the feedback path
  have hy : y ∈ e.depsIn j := by
    obtain ⟨n, hn, -⟩ := view_some.mp hj
    rw [depsIn_of (entries ▸ hn)] at hy
    rw [depsIn_of hn]
    obtain ⟨q, hq, hy⟩ := mem_filterMap.mp hy
    refine mem_filterMap.mpr ⟨q, hq, ?_⟩
    have ne : q ≠ i := by
      rintro rfl
      obtain ⟨w', hw', entry⟩ := dep_of_mem we hn q hq
      cases hw.symm.trans hw'
      rw [entry, hj] at back
      cases back
    rw [← deps q ne]
    exact hy
  obtain ⟨s, ⟨x, hx, own⟩, up⟩ := h hj y hy
  refine ⟨s, ⟨x, buses ▸ hx, exits ▸ own⟩, up.mono fun hp => ?_⟩
  rw [Design.place?, ops]
  exact hp

theorem Kind.level_le (k l : Kind) : k.level l ≤ 3 := by
  unfold Kind.level
  split
  · decide
  · decide
  · decide
  · split <;> decide
  · decide

theorem Carried.unique (h : Carried e b s) (h' : Carried e b t) : s = t := by
  obtain ⟨x, hx, hs⟩ := h
  obtain ⟨y, hy, ht⟩ := h'
  cases hx.symm.trans hy
  exact Option.some.inj (hs.symm.trans ht)

theorem Orderly.feeds_back {lp : Operation} (he : Orderly e) (hc : e.op? c = some reg) (hk : reg.kind = .reg)
    (hl : e.op? reg.owner = some lp) (loop : lp.kind = .loop) (hw : e.dep? i = some w)
    (carried : Carried e w.source c) : ∃ k, view e.entries Entry.face w.entry = some (k, true) := by
  obtain ⟨mem, ⟨k, b⟩, face⟩ := dep_mem he.wf hw
  cases b with
  | true => exact ⟨k, face⟩
  | false =>
    obtain ⟨s, hs, ⟨j, t, l, m, p, pj, pt, pm, up⟩⟩ := he.tidy.rises face w mem
    cases carried.unique hs
    rw [place_of_op hc] at pj
    cases pj
    rw [place_of_op hl] at pm
    cases pm
    have top : reg.kind.level lp.kind = 3 := by rw [hk, loop]; rfl
    have := Kind.level_le t lp.kind
    omega

theorem relocateAll_does {readers : List DepId} (we : WellFormed e) (h : E ∨ Rises e)
    (hs : view e.buses Bus.exit s = some x) (once : readers.Nodup)
    (back : ∀ i ∈ readers, ∃ w, e.dep? i = some w ∧ (E ∨ ∃ k, view e.entries Entry.face w.entry = some (k, true))) :
    Does (readers.forM (relocate · s)) e fun _ e' => E ∨ Rises e' := by
  induction readers generalizing e with
  | nil => exact .pure h
  | cons i readers ih =>
    rw [nodup_cons] at once
    obtain ⟨w, hw, face⟩ := back i mem_cons_self
    obtain ⟨f, hf⟩ := relocate_run we hw hs
    have rises : E ∨ Rises f := by
      rcases h with allowed | rises
      · exact .inl allowed
      · exact face.imp_right fun ⟨k, face⟩ => rises.relocate we hw face hf
    refine Does.bind (Q := fun _ e' => e' = f) ⟨(), f, hf, rfl⟩ ?_
    rintro _ _ rfl
    obtain ⟨-, -, entries, buses, deps⟩ := relocate_rest hf
    refine ih (we.relocate hf) rises (buses ▸ hs) once.2 ?_
    intro j hj
    have ne : j ≠ i := fun e => once.1 (e ▸ hj)
    obtain ⟨w', hw', face'⟩ := back j (mem_cons_of_mem _ hj)
    exact ⟨w', (deps j ne).trans hw', entries ▸ face'⟩

theorem bypass_does {lp : Operation} (he : Sturdy E e) (hc : e.op? c = some reg) (hk : reg.kind = .reg)
    (hl : e.op? reg.owner = some lp) (loop : lp.kind = .loop) (ne : lp.body ≠ absent) :
    Does (Loop.bypass reg) e fun _ e' => E ∨ Rises e' := by
  have rises : E ∨ Rises e := he.tidy.imp_right Tidy.rises
  obtain ⟨ports, x, xs, y, hx, hy, buses⟩ := he.holding hc hk hl loop ne
  obtain ⟨p, ps, hp⟩ := exists_cons_of_ne_nil ports
  obtain ⟨q, hq, -⟩ := he.wf.ports.holds hc p (mem_cons_of_mem _ (hp ▸ mem_cons_self))
  have deps : (do e.portDeps (← reg.firstPort)) = Except.ok (e.depsOnPort q) := by
    rw [Operation.firstPort, hp]
    show (do return e.depsOnPort (← e.port p)) = _
    rw [show e.port p = .ok q from require_ok.mpr hq]
    rfl
  apply Does.ask_bind deps
  split
  next v hv =>
    -- the bus that is bypassed
    obtain ⟨b, bs, hb⟩ := exists_cons_of_ne_nil buses
    have out : (do (← e.exit (← reg.firstExit)).firstBus) = Except.ok b := by
      rw [Operation.firstExit, hx]
      show (do (← e.exit x).firstBus) = _
      rw [show e.exit x = .ok y from require_ok.mpr hy, ok_bind, Exit.firstBus, hb]
      rfl
    have id : y.id = x := he.wf.exitIds _ _ hy
    obtain ⟨bus, hbus, hexit⟩ := he.wf.bus_of_exit (x := y) (id ▸ hy) (mem_cons_of_mem _ (hb ▸ mem_cons_self))
    have carried : Carried e b c := by
      obtain ⟨y', hy', own⟩ := he.wf.exits.holds hc x (hx ▸ mem_cons_self)
      cases hy.symm.trans hy'
      exact ⟨x, view_some.mpr ⟨bus, hbus, hexit.trans id⟩, view_some.mpr ⟨y, hy, Option.some.inj own⟩⟩
    apply Does.ask_bind out
    have readers : (do return (← e.bus b).dependents) = Except.ok bus.dependents := by
      rw [show e.bus b = .ok bus from require_ok.mpr hbus]
      rfl
    apply Does.ask_bind readers
    -- the bus that is read instead
    have hv : v ∈ e.depsOnPort q := hv ▸ mem_singleton_self v
    obtain ⟨i, hi⟩ : ∃ i, e.dep? i = some v := by
      unfold Design.depsOnPort at hv
      split at hv
      · cases hv
      · obtain ⟨n, -, hv⟩ := mem_flatMap.mp hv
        obtain ⟨i, -, hi⟩ := mem_filterMap.mp (mem_of_mem_filter hv)
        exact ⟨i, hi⟩
    obtain ⟨source, hsource, -⟩ := he.wf.readers.held hi rfl
    apply relocateAll_does he.wf rises (view_of Bus.exit hsource) (he.wf.readers.nodup (view_of _ hbus))
    intro j hj
    obtain ⟨w, hw, source⟩ := he.wf.readers.holds hbus j hj
    have source : w.source = b := Option.some.inj source
    exact ⟨w, hw, he.orderly.imp_right fun orderly => orderly.feeds_back hc hk hl loop hw (source ▸ carried)⟩
  next => exact .pure rises

end

/-! ## Removing the registers of a loop -/

section
variable {d : Design}

section
variable {lp : Operation} (hd : Sturdy E d) (hl : d.op? l = some lp) (loop : lp.kind = .loop)
  (need : lp.flopNeeded = true)
  (ne : lp.body ≠ absent)
include hd hl loop need ne

theorem bypassAll_does {cs : List OpId} (hcs : ∀ c ∈ cs, c ∈ lp.children) (he : Going E o d e)
    (gone : ∃ lp', e.op? l = some lp' ∧ lp'.flopNeeded = false) :
    Does (cs.forM fun c => do
      let o ← ask (·.op c)
      if o.kind == .reg then Loop.bypass o) e fun _ => Going E o d := by
  induction cs generalizing e with
  | nil => exact .pure he
  | cons c cs ih =>
    have next : Does (do
        let o ← ask (·.op c)
        if o.kind == .reg then Loop.bypass o) e fun _ e' => Going E o d e' ∧ e'.ops = e.ops := by
      obtain ⟨q, hq, own⟩ := hd.wf.child hl (hcs c mem_cons_self)
      obtain ⟨f, s, hq', -⟩ := he.framed.ops hq
      apply Does.ask_bind (run_op hq')
      split
      next hk =>
        have hk : q.kind = .reg := by simpa using hk
        obtain ⟨f', s', hl', -⟩ := he.framed.ops hl
        have se := he.sturdy hd
        rw [← own] at hl'
        obtain ⟨_, e', run, rises⟩ := bypass_does se hq' hk hl' loop ne
        obtain ⟨wf, framed, ops⟩ := bypass_framed he.wf he.framed hl loop need gone (hcs c mem_cons_self) hq' hk run
        exact ⟨_, e', run, ⟨wf, framed, rises⟩, ops⟩
      next => exact .pure ⟨he, rfl⟩
    refine Does.bind next ?_
    rintro _ e' ⟨he', ops⟩
    refine ih (fun c hc => hcs c (mem_cons_of_mem _ hc)) he' ?_
    rw [Design.op?, ops]
    exact gone

theorem removeRegisters_does (he : Going E o d e) : Does (Loop.removeRegisters l) e fun _ => Going E o d := by
  obtain ⟨f, s, hl', -⟩ := he.framed.ops hl
  apply Does.ask_bind (run_op hl')
  have change : Does (changeOp l fun o => { o with flopNeeded := false }) e fun _ e' =>
      Going E o d e' ∧ ∃ lp', e'.op? l = some lp' ∧ lp'.flopNeeded = false := by
    have run : changeOp l (fun o => { o with flopNeeded := false }) e =
        .ok ((), e.editOp l fun o => { o with flopNeeded := false }) := by
      rw [changeOp, run_op hl']
      rfl
    refine ⟨(), _, run, ⟨?_, ?_, he.rises.imp_right fun rises => ?_⟩, ?_⟩
    · exact (keeps_changeOp l fun _ => by rfl).kept he.wf run
    · exact he.framed.changeOp (fun p => ⟨false, p.stalls, rfl, nofun⟩) run
    · have g : Gains (fun _ => True) e _ [] := gains_changeOp trivial run
      refine (rises.mono ?_).gains g nofun
      intro i p hp
      rw [Design.place?, Design.editOp, view_edit_same _ _ fun _ => by rfl]
      exact hp
    · exact ⟨_, changeOp_makes run hl', rfl⟩
  refine Does.bind change ?_
  rintro _ e' ⟨he', gone⟩
  exact bypassAll_does hd hl loop need ne (fun c hc => hc) he' gone

end

/-! ## Resolving conflicts -/

theorem Kind.fits_block {k : Kind} {l : Option Kind} (h : k.fits l = true) (hk : k.isAccess = true ∨ k = .loop) :
    l = some .block := by
  cases l with
  | none =>
    rw [Kind.fits, beq_iff_eq] at h
    simp [h, Kind.isAccess, Kind.isRead, Kind.isWrite] at hk
  | some m => cases k <;> simp_all [Kind.fits, Kind.isAccess, Kind.isRead, Kind.isWrite]

theorem Kind.level_delayable {k : Kind} (hk : k.isAccess = true ∨ k = .loop) (m : Kind) :
    k.level m = 1 ∧ k.exitsOnce = true ∧ k ≠ .inBuf := by
  cases k <;> simp_all [Kind.isAccess, Kind.isRead, Kind.isWrite, Kind.level, Kind.exitsOnce]

structure InModule (d : Design) (a : OpId) : Prop where
  delayable : Loop.Delayable d a
  enclosed : Loop.Enclosed d a
  owned : IsOwned d a

theorem InModule.ops (ha : InModule d a) : ∃ q m, d.op? a = some q ∧ (q.kind.isAccess = true ∨ q.kind = .loop) ∧
    d.op? q.owner = some m ∧ m.kind.isModule = true := by
  obtain ⟨q, hq, kind⟩ := ha.delayable
  obtain ⟨m, hm, mod⟩ := ha.owned q hq
  exact ⟨q, m, hq, kind, hm, mod⟩

theorem InModule.completed (hd : Sturdy E d) (ha : InModule d a) (hq : d.op? a = some q)
    (hm : d.op? q.owner = some m) (main : d.mainExit? m = some y) : y.peer ≠ absent := by
  obtain ⟨m', hm', mod⟩ := ha.owned q hq
  cases hm.symm.trans hm'
  unfold Design.mainExit? at main
  split at main
  next x ordinary =>
    cases main
    have mem := mem_of_find?_eq_some ordinary
    have tag := find?_some ordinary
    refine ha.enclosed hq hm (mem_filter.mpr ⟨mem, ?_⟩)
    rw [eq_of_beq tag]
    rfl
  next =>
    split at main
    next x single =>
      cases main
      exact hd.ended hm mod single
    next => cases main

theorem delayFirst_settles (hd : Sturdy E d) (asked : o.policy ≠ .fixNone) (ha : InModule d a) :
    Settles E (Going E o d) (Loop.delayFirst a) := by
  intro e he
  have se := he.sturdy hd
  obtain ⟨q, m, hq, kind, hm, mod⟩ := ha.ops
  obtain ⟨f, s, hq', -⟩ := he.framed.ops hq
  obtain ⟨f', s', hm', -⟩ := he.framed.ops hm
  obtain ⟨b, ib, hb, carried, front⟩ := se.laid.front hm' mod
  obtain ⟨p, hp, rfl⟩ := view_some.mp hb
  have source : (do return (← e.port (← e.op q.owner).go).peer) = Except.ok p.peer := by
    rw [run_op hm', ok_bind, show e.port m.go = .ok p from require_ok.mpr hp]
    rfl
  have place : e.place? a = some (q.kind, q.owner) := by rw [he.framed.place, place_of_op hq]
  have up := climbs_front front place (place_of_op hm') (Kind.level_delayable kind m.kind).2.2
  obtain ⟨n, i, e', first, run, rises⟩ := se.delay hq' carried (.inr up)
  have runs : Concludes E (Loop.delayFirst a) e fun _ e' => E ∨ Rises e' := by
    refine .look_bind (run_op hq') ?_
    rw [if_neg (by simpa using ne_absent hm)]
    exact .look_bind source (.look_bind first (.inl (Gives.discard (Gives.ofBuild ⟨i, e', run, rises⟩))))
  refine runs.learn fun _ e' run rises => ?_
  obtain ⟨wf, framed⟩ := (stays_delayOne hd.wf hd.laid asked true ha.owned).run run ⟨he.wf, he.framed⟩
  exact ⟨wf, framed, rises⟩

theorem run_mainExit (hq : d.op? i = some q) : d.mainExit i = .ok (((d.mainExit? q).map Exit.id).getD absent) := by
  rw [Design.mainExit, run_op hq]
  rfl

theorem Sturdy.missing (hd : Sturdy E d) (hq : d.op? i = some q)
    (once : Orderly d → q.kind.exitsOnce = true) (none : d.mainExit? q = none) : E :=
  hd.orderly.resolve_right fun orderly => by
    obtain ⟨-, y, -, -, main⟩ := orderly.mainExit? hq (once orderly)
    rw [main] at none
    cases none

theorem delayLast_settles (hd : Sturdy E d) (asked : o.policy ≠ .fixNone) (ha : InModule d a) :
    Settles E (Going E o d) (Loop.delayLast a) := by
  intro e he
  have se := he.sturdy hd
  obtain ⟨q, m, hq, kind, hm, mod⟩ := ha.ops
  obtain ⟨level, once, -⟩ := Kind.level_delayable kind m.kind
  obtain ⟨f, s, hq', -⟩ := he.framed.ops hq
  obtain ⟨f', s', hm', -⟩ := he.framed.ops hm
  have runs : Concludes E (Loop.delayLast a) e fun _ e' => E ∨ Rises e' := by
    refine .look_bind (run_op hq') ?_
    rw [if_neg (by simpa using ne_absent hm)]
    refine .look_bind (run_mainExit hm') (.look_bind (run_mainExit hq') ?_)
    cases completes : e.mainExit? { m with flopNeeded := f', stalls := s' } with
    | none =>
      have block : Orderly e → m.kind.exitsOnce = true := fun orderly => by
        have fits := Kind.fits_block (orderly.tidy.lodged (place_of_op hq')).fits kind
        rw [kind_of_op hm'] at fits
        rw [show m.kind = .block from Option.some.inj fits]
        rfl
      have allowed : E := se.missing hm' block completes
      exact .query_bind (reject_replies (Q := fun _ => False) se.wf hm' allowed _) fun _ _ no => no.elim
    | some my =>
      obtain ⟨own, hmy⟩ := se.wf.exitsOf hm' (mainExit?_mem completes)
      have known : (my.id == absent) = false := by simpa using ne_absent hmy
      cases ends : e.mainExit? { q with flopNeeded := f, stalls := s } with
      | none =>
        have allowed : E := se.missing hq' (fun _ => once) ends
        rw [Option.map_some, if_neg (by simp [known])]
        exact .query_bind (reject_replies (Q := fun _ => False) se.wf hq' allowed _) fun _ _ no => no.elim
      | some ay =>
        obtain ⟨own', hay⟩ := se.wf.exitsOf hq' (mainExit?_mem ends)
        have known' : (ay.id == absent) = false := by simpa using ne_absent hay
        rw [Option.map_some, if_neg (by simp [known]), if_neg (by simp [known'])]
        have there : my.peer ≠ absent := ha.completed hd hq hm (by rw [← he.framed.mainExit?]; exact completes)
        obtain ⟨ob, target, hob, obkind, obown⟩ := se.wf.outBuf hm' completes there
        have source : (do return (← e.exit ay.id).done) = Except.ok ay.done := by
          rw [show e.exit ay.id = .ok ay from require_ok.mpr hay]
          rfl
        have carried : Carried e ay.done a := own' ▸ carried_exit se.wf hay mem_cons_self
        have place : e.place? a = some (q.kind, q.owner) := by rw [he.framed.place, place_of_op hq]
        have back : e.place? my.peer = some (.outBuf, q.owner) := by rw [place_of_op hob, obkind, obown]
        have up : Climbs e a my.peer := climbs_back place back (place_of_op hm') (by rw [level]; decide)
        obtain ⟨n, i, e', first, run, rises⟩ := se.delay hob carried (.inr up)
        refine .look_bind target (.look_bind first (.look_bind source ?_))
        exact .inl (Gives.discard (Gives.ofBuild ⟨i, e', run, rises⟩))
  refine runs.learn fun _ e' run rises => ?_
  obtain ⟨wf, framed⟩ := (stays_delayOne hd.wf hd.laid asked false ha.owned).run run ⟨he.wf, he.framed⟩
  exact ⟨wf, framed, rises⟩

theorem delayAll_does (hd : Sturdy E d) (asked : o.policy ≠ .fixNone) {count : Nat}
    (same : ∀ a ∈ accesses, corr a = some a) (ha : ∀ a ∈ accesses, InModule d a) (he : Going E o d e) :
    Does (Loop.delayAll heads corr count accesses) e fun r e' => if r.2.isNone then Going E o d e' else E := by
  induction accesses generalizing count e with
  | nil => exact .pure he
  | cons a rest ih =>
    rw [forall_mem_cons] at same ha
    have delayed : Settles E (Going E o d) (if heads then Loop.delayFirst a else Loop.delayLast a) := by
      split
      · exact delayFirst_settles hd asked ha.1
      · exact delayLast_settles hd asked ha.1
    rw [Loop.delayAll, same.1]
    rcases delayed he with ⟨_, e', run, he'⟩ | ⟨allowed, err, e', run⟩
    · obtain ⟨r, e'', rest, none⟩ := ih same.2 ha.2 he'
      exact ⟨r, e'', build_bind_ok.mpr ⟨_, e', run, rest⟩, none⟩
    · exact ⟨_, e', build_bind_ok.mpr ⟨_, e', run, rfl⟩, allowed⟩

theorem make_total (valid : ∀ code, policy ≠ .unnamed code) (conflicts : List Loop.Conflict) :
    ∃ cs, Loop.ConflictSet.make policy conflicts = .ok cs := by
  cases policy with
  | unnamed code => exact absurd rfl (valid code)
  | _ => exact ⟨_, rfl⟩

section
variable (hd : Sturdy E d)
include hd

theorem removeFrom_settles {lp : Operation} (valid : ∀ code, o.policy ≠ .unnamed code) (hl : d.op? l = some lp)
    (loop : lp.kind = .loop) (need : lp.flopNeeded = true) (ne : lp.body ≠ absent) :
    Settles E (Going E o d) (Loop.removeFrom o l) := by
  intro e he
  have se := he.sturdy hd
  obtain ⟨f, s, hl', -⟩ := he.framed.ops hl
  obtain ⟨b, hb⟩ := se.looped hl' loop ne
  have kind : E ∨ b.kind = .whileBody := se.orderly.imp_right fun orderly =>
    (Operation.place_of hb ((orderly.tidy.whole hl').loop loop)).1
  refine .look_bind (run_op hl') (.query_bind (Loop.analyze_replies se hb kind o.failFast)
    fun report analyzed named => ?_)
  have removed : ∀ count e', Going E o d e' → Concludes E (do
      Pass.ofBuild (Loop.removeRegisters l)
      return some count : Pass (Option Nat)) e' fun _ => Going E o d := by
    intro count e' he'
    exact .inl (Gives.bind (.ofBuild (removeRegisters_does hd hl loop need ne he')) fun _ _ he'' => .pure he'')
  unfold Loop.decideOn
  split
  · exact .pure he
  next known =>
    split
    · exact removed 0 e he
    split
    · exact .pure he
    obtain ⟨cs, hcs⟩ := make_total valid report.all
    obtain ⟨all, policy, -⟩ := Loop.ConflictSet.make_conflicts hcs
    have made : Replies E (ExceptT.mk (.ok (Loop.ConflictSet.make o.policy report.all)) : Query Loop.ConflictSet)
      (· = cs) :=
      .inl ⟨cs, congrArg Except.ok hcs, rfl⟩
    refine .query_bind made ?_
    rintro cs - rfl
    split
    · exact .pure he
    next resolves =>
      have asked : o.policy ≠ .fixNone := by
        intro fix
        simp [Loop.ConflictSet.resolves, policy, fix] at resolves
      have analyzable : report.analyzable = true := by
        rw [Bool.or_eq_true_iff, not_or] at known
        simpa using known.2
      have inside : ∀ a ∈ cs.delayed, (Loop.Delayable e a ∧ Loop.Enclosed e a) ∧ IsOwned d a := by
        intro a ha
        unfold Loop.ConflictSet.delayed at ha
        split at ha
        · obtain ⟨c, hc, rfl⟩ := mem_map.mp (mem_eraseDups.mp ha)
          rw [all] at hc
          refine ⟨named c hc _ ?_, analyze_owned hd.wf hd.laid he.framed analyzed analyzable c hc⟩
          unfold Loop.ConflictSet.side
          split <;> simp
        · cases ha
      have before : ∀ a ∈ cs.delayed, InModule d a := by
        intro a ha
        obtain ⟨⟨⟨q, hq, kind⟩, enclosed⟩, owned⟩ := inside a ha
        obtain ⟨p, f, s, hp, rfl, -⟩ := he.framed.opBack hq
        exact ⟨⟨p, hp, kind⟩, he.framed.enclosed enclosed, owned⟩
      have same : ∀ a ∈ cs.delayed, Loop.identity e a = some a := by
        intro a ha
        obtain ⟨⟨⟨q, hq, -⟩, -⟩, -⟩ := inside a ha
        rw [Loop.identity, hq]
        rfl
      refine .get_bind (.bind (.inl (.ofBuild (delayAll_does hd asked same before he))) ?_)
      rintro ⟨count, failed⟩ e' - outcome
      cases failed with
      | none => exact removed count e' outcome
      | some err => exact .inr ⟨outcome, err, e', rfl⟩

theorem carriesFlop_total (hq : d.op? i = some q) :
    ∃ b, Loop.carriesFlop d i = .ok b ∧ (b = true → q.kind = .loop ∧ q.flopNeeded = true ∧ q.body ≠ absent) := by
  rw [Loop.carriesFlop, run_op hq, ok_bind]
  split
  · exact ⟨false, rfl, by simp⟩
  next h =>
    obtain ⟨b, iterative, body⟩ := hd.isIterative hq
    obtain ⟨loop, need⟩ : q.kind = .loop ∧ q.flopNeeded = true := by simpa using h
    exact ⟨b, iterative, fun yes => ⟨loop, need, body yes⟩⟩

theorem removeNext_settles (valid : ∀ code, o.policy ≠ .unnamed code)
    (hq : d.op? i = some q) (r : Loop.Removal) : Settles E (Going E o d) (Loop.removeNext o r i) := by
  intro e he
  obtain ⟨f, s, hq', mono⟩ := he.framed.ops hq
  obtain ⟨b, carries, loop⟩ := carriesFlop_total (he.sturdy hd) hq'
  refine .look_bind carries ?_
  split
  next yes =>
    obtain ⟨kind, need, body⟩ := loop yes
    refine .bind (removeFrom_settles hd valid hq kind (mono need) body he) fun count e' _ he' => ?_
    split
    · exact .pure he'
    · exact .pure he'
  next => exact .pure he

theorem removeFlops_settles (valid : ∀ code, o.policy ≠ .unnamed code) :
    Settles E (Going E o d) (Loop.removeFlops o) := by
  unfold Loop.removeFlops
  split
  · exact (settles_closed E _).pure _
  intro e he
  refine (settles_closed E (Going E o d)).foldlM_of_mem ?_ ({} : Loop.Removal) he
  intro r i hi
  obtain ⟨q, hq, rfl⟩ := mem_map.mp hi
  obtain ⟨p, _, _, hp, -⟩ := he.framed.opBack (he.wf.nesting.ids.at?_of_mem hq)
  exact removeNext_settles hd valid hp r

end

end

end Datapath
