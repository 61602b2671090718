import Datapath.Proofs.LoopLocality
import Datapath.Proofs.Totality

/-!
# Walks over a loop body end

On a well-formed design the walk over a loop body meets no fault: it runs to its end or stops for a
reason that the report gives. What it notes on the way are accesses and loops, in modules whose output
buffers are timed.
-/

namespace Datapath

open List

namespace Loop

/-! ## Steps that find nothing -/

structure Still {α : Type} (p : FlopWalk α) : Prop where
  run : ∀ {f r g}, p.run f = .ok (r, g) → g = f

section
variable {α : Type}

theorem still_closed : Closed FlopWalk fun {_} p => Still p where
  pure a := ⟨fun h => (step_pure_run.mp h).2⟩
  bind hp hf := by
    constructor
    intro f r g h
    rcases step_bind_run.mp h with ⟨e, h, -⟩ | ⟨b, u, h, h'⟩
    · exact hp.run h
    · rw [(hf b).run h', hp.run h]

theorem Still.lift (x : Except Fault α) : Still (liftM x : FlopWalk α) := by
  constructor
  intro f r g h
  obtain ⟨a, -, -, rfl⟩ := step_lift_run.mp h
  rfl

theorem Still.throw (e : Stop) : Still (throw e : FlopWalk α) := ⟨fun h => (step_throw_run.mp h).2⟩

theorem still_reading : Reading fun {_} p => Still p := ⟨still_closed, .lift, fun _ => .throw _⟩

end

/-! ## Walks end -/

def Delayable (d : Design) (a : OpId) : Prop := ∃ o, d.op? a = some o ∧ (o.kind.isAccess = true ∨ o.kind = .loop)

def Bounded (d : Design) (t : Timing) (a : OpId) : Prop :=
  ∀ ⦃o p x⦄, d.op? a = some o → d.op? o.owner = some p → x ∈ flowExits d p → ∃ l, t.input? x.peer = some l

structure Named (d : Design) (t : Timing) (f : Found) : Prop where
  sightings : ∀ s ∈ f.sightings, Delayable d s.access ∧ Bounded d t s.access
  conflicts : ∀ p ∈ f.conflicts, ∀ c ∈ p.2, (Delayable d c.headAccess ∧ Bounded d t c.headAccess) ∧
    Delayable d c.tailAccess ∧ Bounded d t c.tailAccess

def Housed (d : Design) (c : OpId) : Prop := ∃ o p, d.op? c = some o ∧ d.op? o.owner = some p

section
variable {d : Design} {start : Latency}

/-! ### One operation -/

theorem unknownLatency_responds {α : Type} (hc : c = absent ∨ ∃ o, d.op? c = some o) :
    Responds (Named d t) (unknownLatency d c : FlopWalk α) := by
  obtain ⟨l, hl⟩ := label_total hc
  exact Responds.lift_bind hl (.throw _)

theorem collide_responds {head tail : Sighting} (hh : Delayable d head.access ∧ Bounded d t head.access)
    (ht : Delayable d tail.access ∧ Bounded d t tail.access) :
    Responds (Named d t) (collide d failFast head tail) := by
  apply Responds.bind
  · apply Responds.modify
    intro f hf
    exact ⟨hf.sightings, mem_addConflict hf.conflicts ⟨hh, ht⟩⟩
  · intro _
    split
    · obtain ⟨⟨o, ho, -⟩, -⟩ := hh
      obtain ⟨⟨q, hq, -⟩, -⟩ := ht
      obtain ⟨l, hl⟩ := label_total (.inr ⟨o, ho⟩)
      obtain ⟨l', hl'⟩ := label_total (.inr ⟨q, hq⟩)
      exact Responds.lift_bind hl (Responds.lift_bind hl' (.throw _))
    · exact .pure _

theorem inputAt_responds (ho : d.op? c = some o) : Responds (Named d t) (inputAt d t c) := by
  unfold inputAt
  split
  · exact .pure _
  · exact unknownLatency_responds (.inr ⟨o, ho⟩)

theorem doneAt_responds (ho : d.op? c = some o) : Responds (Named d t) (doneAt d t c) := by
  have done : t.done? d c = .ok ((d.mainExit? o).bind fun x => t.bus? x.done) := by
    rw [Timing.done?, run_op ho]
    rfl
  apply Responds.lift_bind done
  split
  · exact .pure _
  · exact unknownLatency_responds (.inr ⟨o, ho⟩)

theorem completion_responds (ho : d.op? c = some o) : Responds (Named d t) (completion d t c) := by
  apply Responds.lift_bind (run_op ho)
  apply Responds.bind
  · apply responds_closed.mapM_of_mem
    intro x _
    split
    · exact .pure _
    · exact unknownLatency_responds (.inr ⟨o, ho⟩)
  · intro dones
    split <;> exact .pure _

theorem meet_responds (hs : Delayable d s.access ∧ Bounded d t s.access) :
    Responds (Named d t) (meet d failFast s) := by
  intro f hf
  have rest : Responds (Named d t) (do
      (f.sightings.filter (·.key == s.key)).forM fun v => do
        if v.first && s.last then collide d failFast v s
        else if s.first && v.last then collide d failFast s v
      modify fun f => { f with sightings := f.sightings ++ [s] } : FlopWalk Unit) := by
    apply Responds.bind
    · apply responds_closed.forM_of_mem
      intro v hv
      have seen := hf.sightings v (mem_filter.mp hv).1
      split
      · exact collide_responds seen hs
      · split
        · exact collide_responds hs seen
        · exact .pure _
    · intro _
      apply Responds.modify
      intro f hf
      refine ⟨?_, hf.conflicts⟩
      intro v hv
      rcases mem_append.mp hv with hv | hv
      · exact hf.sightings v hv
      · cases mem_singleton.mp hv
        exact hs
  exact rest hf

variable (hd : WellFormed d)
include hd

theorem ownerCompletesAfter_responds (hc : Housed d c) (late : Latency) :
    Responds (Named d t) (ownerCompletesAfter d t c late) := by
  obtain ⟨o, p, ho, hp⟩ := hc
  apply Responds.lift_bind (run_op ho)
  apply Responds.lift_bind (run_op hp)
  apply Responds.bind
  · apply responds_closed.mapM_of_mem
    intro x hx
    split
    · exact .pure _
    · apply unknownLatency_responds
      by_cases e : x.peer = absent
      · exact .inl e
      · obtain ⟨q, hq, -⟩ := hd.peer hp (mem_filter.mp hx).1 e
        exact .inr ⟨q, hq⟩
  · exact fun _ => .pure _

theorem isLast_responds {inner : List OpId} (hc : Housed d c) (all : ∀ m ∈ inner, Housed d m) (late : Latency) :
    Responds (Named d t) (isLast d t (inner ++ [block]) c late) := by
  induction inner generalizing c late with
  | nil =>
    apply Responds.bind (ownerCompletesAfter_responds hd hc late)
    intro after
    split <;> exact .pure _
  | cons m rest ih =>
    apply Responds.bind (ownerCompletesAfter_responds hd hc late)
    intro after
    split
    · exact .pure _
    · split
      · exact .pure _
      · have hm := all m mem_cons_self
        obtain ⟨o, p, ho, -⟩ := all m mem_cons_self
        apply Responds.bind (completion_responds ho)
        exact fun late => ih hm (fun k hk => all k (mem_cons_of_mem _ hk)) late

omit hd in
theorem ownerCompletesAfter_bounded {after : Bool}
    (h : (ownerCompletesAfter d t c late).run f = .ok (.ok after, g)) : Bounded d t c := by
  intro o p x ho hp hx
  unfold ownerCompletesAfter at h
  obtain ⟨_, _, h1, h⟩ := step_bind_ok.mp h
  obtain ⟨ho', rfl⟩ := step_lift_ok.mp h1
  cases ho.symm.trans (op_ok ho')
  obtain ⟨_, _, h2, h⟩ := step_bind_ok.mp h
  obtain ⟨hp', rfl⟩ := step_lift_ok.mp h2
  cases hp.symm.trans (op_ok hp')
  obtain ⟨later, u, all, -⟩ := step_bind_ok.mp h
  obtain ⟨b, u, u', timed⟩ := step_mapM_mem all x hx
  cases hl : t.input? x.peer with
  | some l => exact ⟨l, rfl⟩
  | none =>
    rw [hl] at timed
    exact absurd timed throw_not_ok

omit hd in
theorem isLast_bounded {path : List OpId} {last : Bool} (ne : path ≠ [])
    (h : (isLast d t path c late).run f = .ok (.ok last, g)) : Bounded d t c := by
  obtain ⟨m, rest, rfl⟩ := exists_cons_of_ne_nil ne
  obtain ⟨after, u, h, -⟩ := step_bind_ok.mp h
  exact ownerCompletesAfter_bounded h

theorem mark_responds {inner : List OpId} (hc : Housed d c) (named : Delayable d c)
  (all : ∀ m ∈ inner, Housed d m) :
    Responds (Named d t) (mark d t failFast c key early late start (block :: inner)) := by
  rw [mark, reverse_cons]
  apply (isLast_responds hd hc (fun m hm => all m (mem_reverse.mp hm)) late).learn_bind
  intro last f g ran
  have noted : Delayable d c ∧ Bounded d t c := ⟨named, isLast_bounded (by simp) ran⟩
  dsimp only
  split
  · exact .pure _
  split
  · apply Responds.bind
    · exact collide_responds noted noted
    · exact fun _ => meet_responds noted
  · exact meet_responds noted

/-! ## The walk -/

theorem dive_responds {inner : List OpId} (ho : d.op? c = some o)
    (hv : ∀ k ∈ o.children, ∀ start, Responds (Named d t) (visit k start (block :: (inner ++ [c])))) :
    Responds (Named d t) (dive d t visit c start (block :: inner)) := by
  apply Responds.lift_bind (run_op ho)
  obtain ⟨p, hp, -⟩ := hd.ports.holds ho o.go mem_cons_self
  have deps : d.portDeps o.go = .ok (d.depsOnPort p) := by
    rw [Design.portDeps, show d.port o.go = .ok p from require_ok.mpr hp]
    rfl
  apply Responds.lift_bind deps
  split
  · exact .pure _
  · apply Responds.bind (inputAt_responds ho)
    intro input
    apply responds_closed.forM_of_mem
    exact fun k hk => hv k hk _

theorem flopVisit_responds (n : Nat) : ∀ {c o start inner}, d.op? c = some o → Housed d c →
    (∀ m ∈ inner, Housed d m) → (d.ops.size : Int) ≤ c + n →
    Responds (Named d t) (flopVisit d t failFast n c start (block :: inner)) := by
  induction n with
  | zero =>
    intro c o start inner ho _ _ room
    have := (at?_lt ho).2
    omega
  | succ n ih =>
    intro c o start inner ho housed all room
    have inside : Responds (Named d t) (dive d t (flopVisit d t failFast n) c start (block :: inner)) := by
      apply dive_responds hd ho
      intro k hk start
      obtain ⟨q, hq, own⟩ := hd.child ho hk
      have later : (d.ops.size : Int) ≤ k + n := by
        have older := Int.add_one_le_iff.mpr (hd.nesting.older hq)
        rw [own] at older
        omega
      apply ih hq ⟨q, o, hq, own ▸ ho⟩ _ later
      intro m hm
      rcases mem_append.mp hm with hm | hm
      · exact all m hm
      · cases mem_singleton.mp hm
        exact housed
    apply Responds.lift_bind (run_op ho)
    split
    iterate 2
      next hk =>
        apply Responds.bind (inputAt_responds ho)
        intro l
        exact mark_responds hd housed ⟨o, ho, .inl (by rw [hk]; rfl)⟩ all
    iterate 4
      next hk =>
        apply Responds.bind (inputAt_responds ho)
        intro early
        apply Responds.bind (doneAt_responds ho)
        intro late
        exact mark_responds hd housed ⟨o, ho, .inl (by rw [hk]; rfl)⟩ all
    · exact .pure _
    · exact .pure _
    next hk =>
      apply Responds.bind (inputAt_responds ho)
      intro early
      apply Responds.bind (doneAt_responds ho)
      intro late
      apply Responds.bind (mark_responds hd housed ⟨o, ho, .inr hk⟩ all)
      exact fun _ => inside
    next =>
      obtain ⟨l, hl⟩ := label_total (.inr ⟨o, ho⟩)
      exact Responds.lift_bind hl (.throw _)
    next =>
      split
      · exact inside
      · split
        · obtain ⟨l, hl⟩ := label_total (.inr ⟨o, ho⟩)
          exact Responds.lift_bind hl (.throw _)
        · exact .pure _

theorem walk_responds (ho : d.op? c = some o) (t : Timing) (failFast : Bool) :
    Responds (Named d t) (o.children.forM fun k => flopVisit d t failFast (d.ops.size + 1) k .zero [c]) := by
  apply responds_closed.forM_of_mem
  intro k hk
  obtain ⟨q, hq, own⟩ := hd.child ho hk
  refine flopVisit_responds hd _ hq ⟨q, o, hq, own ▸ ho⟩ nofun ?_
  have := (at?_lt hq).1
  omega

end

end Loop

end Datapath
