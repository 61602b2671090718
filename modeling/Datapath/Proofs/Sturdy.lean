import Datapath.Proofs.Acyclic
import Datapath.Proofs.TimingAnswers

/-!
# Designs that passes get through

What the passes rely on when they follow references from operation to operation. On a sturdy design
they do not run into a reference that leads nowhere, and their walks end. Whether they may still reject
the design is left open; a tidy one is not rejected.
-/

namespace Datapath

variable {d : Design} {E : Prop}

/-- The operation belongs to a task or to what a task calls. -/
def Reached (d : Design) (x : OpId) : Prop := ∃ task ∈ d.tasks, Relation.ReflTransGen (Enters d) task.call x

theorem Reached.enters (h : Reached d x) (path : Relation.TransGen (Enters d) x y) : Reached d y :=
  h.imp fun _ h => h.imp_right fun h => h.trans path.to_reflTransGen

/-- Operations have the parts that the passes ask for without looking whether they are there, and no task
calls itself. -/
structure Complete (d : Design) : Prop where
  /-- A branch of a task has a decision. -/
  decided : ∀ {i o}, Reached d i → d.op? i = some o → o.kind = .branch → o.decision ≠ absent
  /-- An access in a balanced task has a resource. -/
  accessed : ∀ {task i o}, task ∈ d.tasks → task.balanced = true → Nested d task.call i → d.op? i = some o →
    o.kind.isAccess = true → o.resource ≠ absent
  /-- A register of a loop takes a value and gives one. -/
  holding : ∀ {i o l}, d.op? i = some o → o.kind = .reg → d.op? o.owner = some l → l.kind = .loop →
    l.body ≠ absent → o.ports ≠ [] ∧ ∃ x xs y, o.exits = x :: xs ∧ d.exit? x = some y ∧ y.buses ≠ []
  descends : Descends d

structure Sturdy (E : Prop) (d : Design) : Prop extends Complete d where
  wf : WellFormed d
  shaped : Shaped d
  laid : Laid d
  entered : ∀ {i o}, d.op? i = some o → o.entries ≠ []
  fronted : ∀ {i o}, d.op? i = some o → o.kind.isModule = true → o.inBuf ≠ absent
  /-- An output buffer completes a module that has one exit. -/
  ended : ∀ {i o x}, d.op? i = some o → o.kind.isModule = true → d.exitsOf o = [x] → x.peer ≠ absent
  looped : ∀ {i o}, d.op? i = some o → o.kind = .loop → o.body ≠ absent → ∃ b, d.op? o.body = some b
  tidy : E ∨ Tidy d

theorem Orderly.sturdy (hd : Orderly d) : Sturdy False d where
  wf := hd.wf
  shaped := hd.shaped
  laid := hd.laid
  entered ho := by
    obtain ⟨e, es, entries, -⟩ := (hd.tidy.sits ho).entered
    rw [entries]
    exact List.cons_ne_nil e es
  fronted ho := (hd.tidy.sits ho).front
  ended ho hk single := by
    obtain ⟨x, hx, hy⟩ := List.mem_filterMap.mp (single ▸ List.mem_singleton_self _)
    obtain ⟨y, hy', -, peer⟩ := (hd.tidy.sits ho).leaves x hx
    cases hy.symm.trans hy'
    exact peer hk
  decided _ ho := (hd.tidy.whole ho).branch
  looped ho hk _ := by
    obtain ⟨b, hb, -⟩ := view_some.mp ((hd.tidy.whole ho).loop hk)
    exact ⟨b, hb⟩
  accessed _ _ _ ho := (hd.tidy.whole ho).access
  holding ho hk hl loop _ := by
    obtain ⟨ports, buses⟩ := (hd.tidy.whole ho).register hk (by rw [kind_of_op hl, loop])
    obtain ⟨x, y, hx, -⟩ := (hd.tidy.sits ho).exit (by rw [hk]; rfl)
    obtain ⟨y, hy, ne⟩ := buses x (hx ▸ List.mem_singleton_self x)
    exact ⟨ports, x, [], y, hx, hy, ne⟩
  descends := hd.descends
  tidy := .inr hd.tidy

theorem Sturdy.orderly (hd : Sturdy E d) : E ∨ Orderly d :=
  hd.tidy.imp_right fun tidy => ⟨hd.wf, hd.shaped, hd.laid, tidy⟩

theorem WellFormed.placed_child (hd : WellFormed d) (ho : d.op? i = some o)
    (place : d.place? c = some (kind, i)) : ∃ k, d.op? c = some k ∧ c ∈ o.children := by
  obtain ⟨k, hk, same⟩ := view_some.mp place
  have own : k.owner = i := congrArg Prod.snd same
  obtain ⟨p, hp, mem⟩ := hd.mem_children hk (own ▸ ne_absent ho)
  rw [own] at hp
  cases ho.symm.trans hp
  exact ⟨k, hk, mem⟩

namespace Sturdy

variable (hd : Sturdy E d)
include hd

theorem forks (reached : Reached d i) (ho : d.op? i = some o) (hk : o.kind = .branch) : o.stem.Forks d i := by
  rcases (hd.shaped.ops (view_of Operation.stem ho)).forks hk with ⟨gone, -⟩ | forks
  · exact absurd gone (hd.decided reached ho hk)
  · exact forks

theorem front (ho : d.op? i = some o) (hk : o.kind.isModule = true) : ∃ ib, d.op? o.inBuf = some ib := by
  obtain ⟨ib, hib, -⟩ := view_some.mp (hd.wf.nesting.inBufs (view_of _ ho) (hd.fronted ho hk))
  exact ⟨ib, hib⟩

theorem order (ho : d.op? i = some o) : Replies E (d.order i) fun _ => True := by
  rcases hd.orderly with allowed | orderly
  · rcases order_answers hd.wf ho with ⟨ids, h⟩ | ⟨s, groups, h, -⟩
    · exact .inl ⟨ids, h, trivial⟩
    · exact .inr ⟨allowed, _, h⟩
  · obtain ⟨ids, h⟩ := orderly.order ho
    exact .inl ⟨ids, h, trivial⟩

theorem child_lt (ho : d.op? i = some o) (hc : c ∈ o.children) : d.room c < d.room i :=
  enters_room_lt hd.descends (.single ⟨o, ho, .inl hc⟩)

end Sturdy

/-! ## Timings -/

namespace Timing

theorem offers_of_carried (hd : Orderly d) (ho : d.op? c = some o) (hb : Carried d b c) : Offers d c b := by
  obtain ⟨x, hx, hown⟩ := hb
  obtain ⟨y, hy, own⟩ := view_some.mp hown
  obtain ⟨bus, hbus, exit⟩ := view_some.mp hx
  obtain ⟨_, ho', hx⟩ := hd.wf.exits.held hy (congrArg some own)
  cases ho.symm.trans ho'
  obtain ⟨_, hy', hb⟩ := hd.wf.buses.held hbus (congrArg some exit)
  cases hy.symm.trans hy'
  obtain ⟨z, hz, kind, -⟩ := (hd.tidy.sits ho).leaves x hx
  cases hy.symm.trans hz
  exact ⟨o, y, ho, List.mem_filterMap.mpr ⟨x, hx, hy⟩, by rw [kind]; decide, hb⟩

theorem supplied_of_orderly (hd : Orderly d) (m : OpId) : Supplied d m := by
  intro c o v hc own hv
  obtain ⟨s, carried, up⟩ := hd.forward hc hv
  obtain ⟨q, hq, -⟩ := up.owner hc
  exact ⟨s, own ▸ up.mem_drivers hc hv carried, offers_of_carried hd hq carried⟩

theorem compute_concludes (hd : Sturdy E d) (hm : d.op? m = some o) (base : Latency) (t : Timing) :
    Concludes E (compute d m base) t fun _ _ => True := by
  have passable : Passable E d fun _ => True :=
    ⟨fun _ ho => hd.order ho, fun _ => hd.orderly.imp_right fun orderly => supplied_of_orderly orderly _,
      fun _ _ _ _ _ => trivial⟩
  exact passable.compute hd.wf trivial hm base t

end Timing

end Datapath
