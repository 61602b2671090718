import Datapath.Proofs.Identification
import Datapath.Proofs.SturdyPasses
import Datapath.Proofs.TrackingOrder

/-!
# Regions that can be tracked

A tracker only carries regions that the design has, so an operation of a well-formed design can always
be registered with it. All tasks of a sturdy design are tracked to the end.
-/

namespace Datapath

open List

namespace Region

/-! ## Registering -/

def Tracker.Known (t : Tracker) (e : Design) : Prop := ∀ port, ∀ i ∈ t.reachedAt port, ∃ p, at? e.regions i = some p

section
variable {e e' : Design} {t : Tracker}

theorem Tracker.Known.grown (h : t.Known e) (grown : Grown e e') : t.Known e' := fun port i hi => by
  obtain ⟨p, hp⟩ := h port i hi
  exact (grown.region hp).imp fun _ => And.left

theorem known_nil (e : Design) (mod : OpId) (regions : List Int) : Tracker.Known { mod, regions } e := nofun

theorem region_of_tracked (he : WellFormed e) {ps : List Region} (hps : ∀ p ∈ ps, p ∈ t.tracked e)
    (hi : i ∈ ps.map Region.id) : ∃ p, at? e.regions i = some p := by
  obtain ⟨p, hp, rfl⟩ := mem_map.mp hi
  obtain ⟨j, -, hj⟩ := mem_tracked.mp (hps p hp)
  rw [he.regionIds j p hj]
  exact ⟨p, hj⟩

section
variable (h : t.Known e) (he : WellFormed e) (hc : e.op? c = some o)
include h he hc

theorem Tracker.Known.driving (hp : port ∈ Design.allPorts o) (data : Bool) :
    ∃ ids, t.driving e port data = .ok ids ∧ ∀ i ∈ ids, ∃ p, at? e.regions i = some p := by
  obtain ⟨deps, hdeps, -⟩ := portDeps_total he hc hp
  unfold Tracker.driving
  rw [hdeps, ok_bind]
  split
  · exact ⟨[], rfl, nofun⟩
  cases data with
  | false => exact ⟨_, rfl, h port⟩
  | true =>
    refine ⟨_, rfl, fun i hi => ?_⟩
    rcases mem_addIds.mp hi with hi | hi
    · exact h port i hi
    · obtain ⟨src, -, hi⟩ := mem_flatMap.mp hi
      exact region_of_tracked he (fun p hp => (mem_filter.mp hp).1) hi

theorem Tracker.Known.roleOf : ∃ role, t.roleOf e o = .ok role ∧ (∀ p ∈ role.dataless, p ∈ o.ports) ∧
      ∀ i, i ∈ role.initial ∨ i ∈ role.data ∨ i ∈ role.opened ∨ i ∈ role.closed → ∃ p,
        at? e.regions i = some p := by
  obtain ⟨initial, hi, started⟩ := h.driving he hc mem_cons_self false
  have drive : ∃ driven, (o.ports.mapM fun p => return (p, ← t.driving e p true)) = Except.ok driven := by
    apply mapM_total
    intro p hp
    obtain ⟨ids, hids, -⟩ := h.driving he hc (mem_cons_of_mem _ hp) true
    exact ⟨(p, ids), by rw [hids]; rfl⟩
  obtain ⟨driven, hd⟩ := drive
  have fed : ∀ r ∈ driven, r.1 ∈ o.ports ∧ ∀ i ∈ r.2, ∃ p, at? e.regions i = some p := by
    intro r hr
    obtain ⟨p, hp, hr⟩ := forall₂_right (mapM_pairs hd) r hr
    obtain ⟨ids, hids, known⟩ := h.driving he hc (mem_cons_of_mem _ hp) true
    rw [hids] at hr
    cases hr
    exact ⟨hp, known⟩
  unfold Tracker.roleOf
  rw [hi, hd]
  refine ⟨_, rfl, fun p hp => ?_, fun i hi => ?_⟩
  · obtain ⟨r, hr, rfl⟩ := mem_map.mp hp
    exact (fed r (mem_filter.mp hr).1).1
  · rcases hi with hi | hi | hi | hi
    · exact started i hi
    · obtain ⟨r, hr, hi⟩ := (mem_foldl_addIds.mp hi).resolve_left (by simp)
      exact (fed r hr).2 i hi
    · exact region_of_tracked he (fun p hp => (mem_filter.mp hp).1) ((mem_addIds.mp hi).resolve_left (by simp))
    · exact region_of_tracked he (fun p hp => (mem_filter.mp hp).1) ((mem_addIds.mp hi).resolve_left (by simp))

end

theorem mem_running {role : Tracker.Role} (hi : i ∈ role.running) :
    i ∈ role.initial ∨ i ∈ role.data ∨ i ∈ role.opened := by
  unfold Tracker.Role.running at hi
  dsimp only at hi
  split at hi
  · exact .inr (.inl hi)
  · exact (mem_addIds.mp (mem_filter.mp hi).1).imp_right .inr

theorem mem_reached {ports drops : List PortId} : i ∈
      (((ports.foldl (fun r p => Tracker.reach r p ids) reached).filter fun r => !drops.contains r.1).lookup
      port).getD [] ↔ port ∉ drops ∧ (i ∈ (reached.lookup port).getD [] ∨ port ∈ ports ∧ i ∈ ids) := by
  by_cases drop : port ∈ drops
  · have gone : ((ports.foldl (fun r p => Tracker.reach r p ids) reached).filter
        fun r => !drops.contains r.1).lookup port = none := by
      refine lookup_eq_none_iff.mpr fun r hr => bne_iff_ne.mpr ?_
      rintro rfl
      simpa [drop] using (mem_filter.mp hr).2
    rw [gone]
    simp [drop]
  · rw [lookup_filter drop, mem_reachAll, and_iff_right drop]

theorem Tracker.Known.register (h : t.Known e) (he : WellFormed e) (hc : e.op? c = some o) :
    Does (t.register c) e fun t' e' => t'.Known e' := by
  obtain ⟨role, hrole, ports, known⟩ := h.roleOf he hc
  have closes : ∀ i ∈ role.closed, ∃ p, at? e.regions i = some p := fun i hi => known i (.inr (.inr (.inr hi)))
  obtain ⟨e1, h1, s1⟩ := stallAll_signals closes
  have takes : ∀ i ∈ role.data, ∃ p, at? e1.regions i = some p := fun i hi => by
    obtain ⟨p, hp⟩ := known i (.inr (.inl hi))
    exact (s1.region hp).imp fun _ => And.left
  obtain ⟨e2, h2, s2⟩ := stallAll_signals takes
  have signals := s1.trans s2
  have timed : ∃ exposed, (role.dataless.mapM fun p => Tracker.takesTimedData e p) = .ok exposed :=
    mapM_total fun p hp => takesTimedData_total he hc (mem_cons_of_mem _ (ports p hp))
  obtain ⟨exposed, hexposed⟩ := timed
  refine .ask_bind (run_op hc) (.ask_bind hrole (.ask_bind rfl ?_))
  refine Does.bind (Q := fun _ d => d = e1) ⟨(), e1, h1, rfl⟩ ?_
  rintro _ _ rfl
  refine Does.bind (Q := fun _ d => d = e2) ⟨(), e2, h2, rfl⟩ ?_
  rintro _ _ rfl
  refine .ask_bind (a := exposed) (by rw [signals.same]; exact hexposed) (.pure fun port i hi => ?_)
  have there : ∃ p, at? e.regions i = some p := by
    rcases (mem_reached.mp hi).2 with hi | ⟨-, hi⟩
    · exact h port i hi
    · exact known i ((mem_running hi).imp_right fun hi => hi.imp_right .inl)
  obtain ⟨p, hp⟩ := there
  exact (signals.region hp).imp fun _ => And.left

end

/-! ## Modules -/

section
variable {E : Prop} {d e : Design}

theorem trackAll_concludes {cs : List OpId} {t : Tracker} (ops : ∀ c ∈ cs, ∃ o, d.op? c = some o)
    (inner : ∀ c ∈ cs, ∀ o, d.op? c = some o → o.kind.isInlineModule = true → ∀ e, Running d e →
      Concludes E (track regions n c) e fun _ _ => True) (he : Running d e) (known : t.Known e) :
    Concludes E (cs.foldlM (fun t c => do
      let o ← Pass.look (·.op c)
      if o.kind.isInlineModule then track regions n c
      Pass.ofBuild (t.register c)) t) e fun _ e' => Running d e' := by
  induction cs generalizing t e with
  | nil => exact .pure he
  | cons c cs ih =>
    obtain ⟨o, ho⟩ := ops c mem_cons_self
    have registers : ∀ e, Running d e → t.Known e →
        Concludes E (Pass.ofBuild (t.register c)) e fun t' e' => Running d e' ∧ t'.Known e' := by
      intro e he known
      obtain ⟨s, ho'⟩ := op_of_reset he.same.symm ho
      refine .learn (.inl (.ofBuild (known.register he.wf ho'))) fun t' e' ran known' => ⟨?_, known'⟩
      exact ((Running.signals d).register ..).run (ofBuild_ok.mp ran) he
    have one : Concludes E (do
        let o ← Pass.look (·.op c)
        if o.kind.isInlineModule then track regions n c
        Pass.ofBuild (t.register c)) e fun t' e' => Running d e' ∧ t'.Known e' := by
      obtain ⟨s, ho'⟩ := op_of_reset he.same.symm ho
      refine .look_bind (run_op ho') ?_
      split
      next hk =>
        refine (inner c mem_cons_self o ho hk e he).bind fun _ e' ran _ => ?_
        exact registers e' (((Running.signals d).track ..).run ran he)
          (known.grown ((Grown.signals.track ..).run ran))
      next => exact registers e he known
    refine one.bind fun t' e' _ ⟨he', known'⟩ => ?_
    exact ih (fun c hc => ops c (mem_cons_of_mem _ hc)) (fun c hc => inner c (mem_cons_of_mem _ hc)) he' known'

theorem track_concludes (hd : Sturdy E d) (n : Nat) :
    ∀ {mod m e}, d.op? mod = some m → m.kind.isModule = true → d.room mod < n → Running d e →
      Concludes E (track regions n mod) e fun _ _ => True := by
  induction n with
  | zero => exact fun _ _ h => absurd h (Nat.not_lt_zero _)
  | succ n ih =>
    intro mod m e hm hk room he
    obtain ⟨s, hm'⟩ := op_of_reset he.same.symm hm
    obtain ⟨ib, hib⟩ := hd.front hm hk
    obtain ⟨s', hib'⟩ := op_of_reset he.same.symm hib
    have order : Replies E (e.order mod) fun _ => True := by
      rw [order_of_reset hd.wf he.wf he.same]
      exact hd.order hm
    refine .look_bind (run_op hm') (.query_bind order fun ids hids _ => ?_)
    rw [order_of_reset hd.wf he.wf he.same] at hids
    obtain ⟨_, same, perm⟩ := order_ok hids
    cases hm.symm.trans same
    refine Concludes.bind (.inl (.ofBuild ((known_nil e mod regions).register he.wf hib'))) fun t e1 ran known => ?_
    have he1 := ((Running.signals d).register ..).run (ofBuild_ok.mp ran) he
    have children : ∀ c ∈ ids.filter (· != m.inBuf), c ∈ m.children := fun c hc =>
      perm.mem_iff.mp (mem_filter.mp hc).1
    have ops : ∀ c ∈ ids.filter (· != m.inBuf), ∃ o, d.op? c = some o := fun c hc =>
      (hd.wf.child hm (children c hc)).imp fun _ => And.left
    refine (trackAll_concludes ops (fun c hc o ho inline e he => ?_) he1 known).bind fun t' e2 _ he2 => ?_
    · have := hd.child_lt hm (children c hc)
      exact ih ho (by simp_all [Kind.isInlineModule]) (by omega) he
    · obtain ⟨s'', hm''⟩ := op_of_reset he2.same.symm hm
      have records : Does (changeOp mod fun o => { o with stalls := t'.moduleStalls e2 }) e2 fun _ _ => True :=
        ⟨(), _, bind_ok.mpr ⟨_, run_op hm'', rfl⟩, trivial⟩
      exact .look_bind rfl (.inl (.ofBuild records))

/-! ## All tasks -/

theorem Running.going (he : Running d e) (hd : Sturdy E d) (o : Options) : Going E o d e := by
  have part : ∀ {α : Type} (g : Design → α), (∀ d, g (reset d) = g d) → g e = g d := by
    intro α g keeps
    rw [← keeps e, ← keeps d, he.same]
  have entries := part Design.entries fun _ => rfl
  have deps := part Design.deps fun _ => rfl
  have framed : Framed o d e := by
    refine (Framed.refl o d).keep (part _ fun _ => rfl) (part _ fun _ => rfl) (part _ fun _ => rfl)
      (part _ fun _ => rfl)
      entries (part _ fun _ => rfl) deps (part (fun d => d.ops.size) fun d => by simp [reset]) ?_
      (part (fun d => d.tasks.size) fun _ => rfl) fun {i t} ht =>
        ⟨t.goSpacing, (part (fun d => at? d.tasks i) fun _ => rfl).trans ht⟩
    intro i p hp
    obtain ⟨s, hp'⟩ := op_of_reset he.same.symm hp
    exact ⟨p.flopNeeded, s, hp', fun need => need⟩
  refine ⟨he.wf, framed, hd.tidy.imp_right fun tidy => ?_⟩
  intro j i hj v hv
  have face : view d.entries Entry.face j = some (i, false) := entries ▸ hj
  have mem : v ∈ d.depsIn j := by
    unfold Design.depsIn Design.depsOf Design.entryAt? Design.dep? at hv ⊢
    rw [entries, deps] at hv
    exact hv
  obtain ⟨s, carried, up⟩ := tidy.rises face v mem
  exact ⟨s, framed.carried.mpr carried, up.mono fun place => framed.place ▸ place⟩

theorem trackStalls_concludes (hd : Sturdy E d) : Concludes E trackStalls d fun _ _ => True := by
  have all : Settles E (Running d) ((reset d).tasks.toList.forM fun task => Pass.within s!"task {task.name}" do
      let ps ← identify task
      track (ps.map Region.id) ((reset d).ops.size + 1) task.call) := by
    refine (settles_closed E _).forM_of_mem fun task ht e he => .within ?_
    have ht : task ∈ d.tasks := Array.mem_toList_iff.mp ht
    have tasks : (reset e).tasks = (reset d).tasks := by rw [he.same]
    have te : task ∈ e.tasks := tasks.symm ▸ ht
    obtain ⟨call, hcall, kind, -⟩ := task_call hd.shaped ht
    refine (identify_concludes ((he.going hd default).sturdy hd) te).bind fun ps e1 ran _ => ?_
    have he1 := ((Running.signals d).identify Running.create task).run ran he
    have size : (reset d).ops.size = d.ops.size := by simp [reset]
    refine .learn (track_concludes hd _ hcall (by rw [kind]; rfl) ?_ he1) fun _ e2 ran _ => ?_
    · rw [size]
      exact room_le d _
    · exact ((Running.signals d).track ..).run ran he1
  have start : Concludes E (modify reset : Pass PUnit) d fun _ e => e = reset d := .inl ⟨⟨⟩, _, rfl, rfl⟩
  refine start.bind fun _ e _ he => ?_
  subst he
  refine .get_bind ((all (running_reset hd.wf hd.shaped)).bind fun _ e2 _ _ => ?_)
  exact .get_bind (.pure trivial)

end

end Region

end Datapath
