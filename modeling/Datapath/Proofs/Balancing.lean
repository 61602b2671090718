import Datapath.Proofs.BalanceWalk
import Datapath.Proofs.Intervals
import Datapath.Proofs.Shapes

/-!
# Balanced branches stay balanced

The delays that a run adds to a branch only show in the judgement of that branch and of the branches
around it: inside a loop, the sides of a branch are opened by the branch alone. What is judged after a
delay was added already counts it, so a second run makes the same judgements and changes nothing.
-/

namespace Datapath.Branch

open List

variable {d d' e : Design}

/-! ## Delays -/

theorem mem_depsOnPort : v ∈ d.depsOnPort p ↔ ∃ o i e k, at? d.ops p.owner = some o ∧ i ∈ o.entries ∧
    at? d.entries i = some e ∧ k ∈ e.deps ∧ at? d.deps k = some v ∧ v.target = p.id := by
  unfold Design.depsOnPort Design.op?
  cases at? d.ops p.owner with
  | none => simp
  | some o =>
    simp only [Design.entriesOf, Design.depsOf, mem_flatMap, mem_filter,
      mem_filterMap, beq_iff_eq, Option.some.injEq]
    constructor
    · rintro ⟨e, ⟨i, hi, he⟩, ⟨k, hk, hv⟩, ht⟩
      exact ⟨o, i, e, k, rfl, hi, he, hk, hv, ht⟩
    · rintro ⟨_, i, e, k, rfl, hi, he, hk, hv, ht⟩
      exact ⟨e, ⟨i, hi, he⟩, ⟨k, hk, hv⟩, ht⟩

theorem delayed_child : hasDelayedChild d o = true ↔ ∃ c ∈ o.children, ∃ k p v, at? d.ops c = some k ∧
    at? d.ports k.go = some p ∧ v ∈ d.depsOnPort p ∧ delays v = true := by
  simp only [hasDelayedChild, any_eq_true, Option.any_eq_true, Design.port?]
  constructor
  · rintro ⟨c, hc, k, hk, p, hp, v, hv, h⟩
    exact ⟨c, hc, k, p, v, hk, hp, hv, h⟩
  · rintro ⟨c, hc, k, p, v, hk, hp, hv, h⟩
    exact ⟨c, hc, k, hk, p, hp, v, hv, h⟩

def Carries (d : Design) (mod : OpId) (v : Dependency) : Prop :=
  ∃ o x y go ob p, at? d.ops mod = some o ∧ o.exits = [x] ∧ at? d.exits x = some y ∧ at? d.ops y.peer = some ob ∧
    at? d.ports o.go = some go ∧ at? d.ports ob.go = some p ∧ v ∈ d.depsOnPort p ∧ delays v = true ∧
    v.source = go.peer

theorem delay_ok (h : (delay m).run d = .ok (.ok (), e)) : (∃ v, Carries d m v) ∧ e = d ∨
    ∃ o x y go ob entry id, at? d.ops m = some o ∧ o.exits = [x] ∧ at? d.exits x = some y ∧
      at? d.ops y.peer = some ob ∧ at? d.ports o.go = some go ∧ ob.entries.head? = some entry ∧
      addDependency entry .resource go.peer ob.go 1 d = .ok (id, e) := by
  obtain ⟨o, ho, h⟩ := look_bind_ok.mp h
  split at h
  next x hx =>
    obtain ⟨go, hgo, h⟩ := look_bind_ok.mp h
    obtain ⟨ob, hob, h⟩ := look_bind_ok.mp h
    obtain ⟨y, hy, hob⟩ := bind_ok.mp hob
    obtain ⟨vs, hvs, h⟩ := look_bind_ok.mp h
    obtain ⟨p, hp, hvs⟩ := bind_ok.mp hvs
    cases hvs
    split at h
    next =>
      obtain ⟨entry, hentry, h⟩ := look_bind_ok.mp h
      obtain ⟨id, h⟩ := discard_ok h
      exact .inr ⟨o, x, y, go, ob, entry, id, op_ok ho, hx, exit_ok hy, op_ok hob, port_ok hgo,
        require_ok.mp hentry, ofBuild_ok.mp h⟩
    next any =>
      cases h
      simp only [Bool.not_eq_true', Bool.not_eq_false, any_eq_true, Bool.and_eq_true, beq_iff_eq] at any
      obtain ⟨v, hv, hd, hs⟩ := any
      exact .inl ⟨⟨v, o, x, y, go, ob, p, op_ok ho, hx, exit_ok hy, op_ok hob, port_ok hgo, port_ok hp, hv, hd, hs⟩,
        rfl⟩
  next => exact (reject_ok.mp (passQuery_ok.mp h).1).elim

theorem delay_rests (h : Carries d m v) : (delay m).run d = .ok (.ok (), d) := by
  obtain ⟨o, x, y, go, ob, p, ho, hx, hy, hob, hgo, hp, hv, hd, hs⟩ := h
  refine look_bind_ok.mpr ⟨o, require_ok.mpr ho, ?_⟩
  rw [hx]
  refine look_bind_ok.mpr ⟨go, require_ok.mpr hgo, ?_⟩
  refine look_bind_ok.mpr ⟨ob, bind_ok.mpr ⟨y, require_ok.mpr hy, require_ok.mpr hob⟩, ?_⟩
  refine look_bind_ok.mpr ⟨_, bind_ok.mpr ⟨p, require_ok.mpr hp, rfl⟩, ?_⟩
  have any : ((d.depsOnPort p).any fun v => delays v && v.source == go.peer) = true :=
    any_eq_true.mpr ⟨v, hv, by simp [hd, hs]⟩
  simp only [any]
  exact step_pure_ok.mpr ⟨rfl, rfl⟩

structure Longer (d e : Design) : Prop where
  ops : e.ops = d.ops
  ports : e.ports = d.ports
  exits : e.exits = d.exits
  drives : ∀ {p v}, v ∈ d.depsOnPort p → v ∈ e.depsOnPort p
  deps : ∀ {i v}, at? e.deps i = some v → at? d.deps i = some v ∨ v.minClocks = 1

structure Touch (m : OpId) (d e : Design) : Prop extends Longer d e where
  late : ∀ {i o}, at? d.ops i = some o → i ≠ m → hasDelayedChild e o = hasDelayedChild d o
  held : ∃ v, Carries e m v

theorem Longer.refl (d : Design) : Longer d d := ⟨rfl, rfl, rfl, id, .inl⟩

theorem Longer.trans (h : Longer d e) (h' : Longer e d') : Longer d d' where
  ops := h'.ops.trans h.ops
  ports := h'.ports.trans h.ports
  exits := h'.exits.trans h.exits
  drives hv := h'.drives (h.drives hv)
  deps hv := by
    rcases h'.deps hv with hv | hv
    · exact h.deps hv
    · exact .inr hv

theorem Longer.carries (h : Longer d e) (hc : Carries d m v) : Carries e m v := by
  obtain ⟨o, x, y, go, ob, p, ho, hx, hy, hob, hgo, hp, hv, hd, hs⟩ := hc
  exact ⟨o, x, y, go, ob, p, h.ops ▸ ho, hx, h.exits ▸ hy, h.ops ▸ hob, h.ports ▸ hgo, h.ports ▸ hp, h.drives hv,
    hd, hs⟩

theorem outBuf_child (hd : WellFormed d) (ho : at? d.ops m = some o) (hx : x ∈ o.exits)
    (hy : at? d.exits x = some y) (hob : at? d.ops y.peer = some ob) : ob.owner = m ∧ y.peer ∈ o.children := by
  obtain ⟨y', hy', hown⟩ := hd.exits.holds ho x hx
  rw [hy] at hy'
  cases hy'
  obtain ⟨ob', hob', hplace⟩ := view_some.mp (hd.outBufs hy (ne_absent hob))
  rw [hob] at hob'
  cases hob'
  have owner : ob.owner = m := (congrArg Prod.snd hplace).trans (Option.some.inj hown)
  obtain ⟨o', ho', hc⟩ := hd.mem_children hob (owner ▸ ne_absent ho)
  rw [owner] at ho'
  cases ho.symm.trans ho'
  exact ⟨owner, hc⟩

theorem Carries.late (hd : WellFormed d) (h : Carries d m v) (ho : at? d.ops m = some o) :
    hasDelayedChild d o = true := by
  obtain ⟨o', x, y, go, ob, p, ho', hx, hy, hob, -, hp, hv, hdel, -⟩ := h
  cases ho.symm.trans ho'
  obtain ⟨-, hc⟩ := outBuf_child hd ho (by rw [hx]; exact mem_cons_self) hy hob
  exact delayed_child.mpr ⟨_, hc, ob, p, v, hob, hp, hv, hdel⟩

section
variable {id : DepId}

section
variable (h : addDependency entry kind source target clocks d = .ok (id, e))
include h

theorem addDependency_drives (hv : v ∈ d.depsOnPort p) : v ∈ e.depsOnPort p := by
  obtain ⟨rfl, -, en, q, b, -, -, -, -, rfl⟩ := addDependency_ok h
  obtain ⟨r, i, e, k, hr, hi, he, hk, hv, ht⟩ := mem_depsOnPort.mp hv
  have lt := at?_lt hv
  have hv' : at? (d.deps.push { id := d.deps.size, kind, entry, source, target, minClocks := clocks })
    k = some v := by
    rw [at?_push, if_neg (by omega)]
    exact hv
  by_cases hie : i = entry
  · refine mem_depsOnPort.mpr ⟨r, i, { e with deps := e.deps ++ [(d.deps.size : Int)] }, k, hr, hi, ?_,
      mem_append_left _ hk, hv', ht⟩
    rw [at?_editAt, if_pos hie, he]
    rfl
  · refine mem_depsOnPort.mpr ⟨r, i, e, k, hr, hi, ?_, hk, hv', ht⟩
    rw [at?_editAt, if_neg hie]
    exact he

theorem addDependency_new (hv : v ∈ e.depsOnPort p) : v ∈ d.depsOnPort p ∨ p.id = target := by
  obtain ⟨rfl, -, en, q, b, -, -, -, -, rfl⟩ := addDependency_ok h
  obtain ⟨r, i, e, k, hr, hi, he, hk, hv, ht⟩ := mem_depsOnPort.mp hv
  rw [at?_push] at hv
  split at hv
  · cases hv
    exact .inr ht.symm
  · next hne =>
    rw [at?_editAt] at he
    split at he
    · obtain ⟨e0, he0, rfl⟩ := Option.map_eq_some_iff.mp he
      rcases mem_append.mp hk with hk | hk
      · exact .inl (mem_depsOnPort.mpr ⟨r, i, e0, k, hr, hi, he0, hk, hv, ht⟩)
      · exact absurd (mem_singleton.mp hk) hne
    · exact .inl (mem_depsOnPort.mpr ⟨r, i, e, k, hr, hi, he, hk, hv, ht⟩)

theorem addDependency_at (ho : at? d.ops p.owner = some o) (he : entry ∈ o.entries) (hid : p.id = target) :
    { id, kind, entry, source, target, minClocks := clocks } ∈ e.depsOnPort p := by
  obtain ⟨rfl, -, en, q, b, hen, -, -, -, rfl⟩ := addDependency_ok h
  refine mem_depsOnPort.mpr ⟨o, entry, { en with deps := en.deps ++ [(d.deps.size : Int)] }, d.deps.size, ho, he,
    ?_, mem_append_right _ (mem_singleton_self _), ?_, hid.symm⟩
  · rw [at?_editAt, if_pos rfl, hen]
    rfl
  · rw [at?_push, if_pos rfl]

end

theorem addDependency_longer (h : addDependency entry kind source target 1 d = .ok (id, e)) : Longer d e := by
  have drives := fun {p v} => addDependency_drives (p := p) (v := v) h
  obtain ⟨rfl, -, en, q, b, -, -, -, -, rfl⟩ := addDependency_ok h
  refine ⟨rfl, rfl, rfl, drives, ?_⟩
  intro i v hv
  rw [at?_push] at hv
  split at hv
  · cases hv
    exact .inr rfl
  · exact .inl hv

end

theorem go_injective (hd : WellFormed d) (hc : at? d.ops c = some o)
    (hk : at? d.ops k = some q) (h : o.go = q.go) : c = k := by
  have h1 := hd.ports.listed (view_of Design.allPorts hc) mem_cons_self
  have h2 := hd.ports.listed (view_of Design.allPorts hk) mem_cons_self
  rw [h, h2] at h1
  cases h1
  rfl

theorem touch_delay (hd : WellFormed d) (h : (delay m).run d = .ok (.ok (), e)) : Touch m d e := by
  rcases delay_ok h with ⟨held, rfl⟩ | ⟨o, x, y, go, ob, entry, id, ho, hx, hy, hob, hgo, hentry, h⟩
  · exact { Longer.refl e with late := fun _ _ => rfl, held }
  have longer := addDependency_longer h
  obtain ⟨howner, -⟩ := outBuf_child hd ho (by rw [hx]; exact mem_cons_self) hy hob
  refine { longer with late := ?_, held := ?_ }
  · intro i r hr hne
    rw [Bool.eq_iff_iff, delayed_child, delayed_child, longer.ops, longer.ports]
    constructor
    · rintro ⟨c, hc, k, q, v, hk, hq, hv, hdel⟩
      rcases addDependency_new h hv with hv | hq'
      · exact ⟨c, hc, k, q, v, hk, hq, hv, hdel⟩
      -- another module does not own the output buffer
      · obtain ⟨k', hk', hkown⟩ := hd.child hr hc
        cases hk.symm.trans hk'
        cases go_injective hd hk hob ((hd.portIds _ _ hq).symm.trans hq')
        cases hob.symm.trans hk
        exact absurd (hkown.symm.trans howner) hne
    · rintro ⟨c, hc, k, q, v, hk, hq, hv, hdel⟩
      exact ⟨c, hc, k, q, v, hk, hq, longer.drives hv, hdel⟩
  · obtain ⟨p, hp, hpo⟩ := hd.ports.holds hob ob.go mem_cons_self
    have hop : at? d.ops p.owner = some ob := by
      rw [Option.some.inj hpo]
      exact hob
    have hv := addDependency_at h hop (mem_of_mem_head? hentry) (hd.portIds _ _ hp)
    exact ⟨_, o, x, y, go, ob, p, longer.ops ▸ ho, hx, longer.exits ▸ hy, longer.ops ▸ hob, longer.ports ▸ hgo,
      longer.ports ▸ hp, hv, rfl, rfl⟩

/-! ## Latencies -/

theorem sequential_latest (h : isSequential ls = true) : isSequential (Latency.latest ls) = true := by
  obtain ⟨l, hl, pos⟩ := any_eq_true.mp h
  obtain ⟨k, hk, covers⟩ := (Latency.latest_covers ls).2 l hl
  have lt := Int64.lt_iff_toInt_lt.mp (of_decide_eq_true pos)
  exact any_eq_true.mpr ⟨k, hk, decide_eq_true (Int64.lt_iff_toInt_lt.mpr (Int.lt_of_lt_of_le lt covers.1))⟩

theorem sequential_append : isSequential (ls ++ ks) = (isSequential ls || isSequential ks) := any_append

theorem not_combinational (h : isSequential ls = true) : isCombinational ls = false := by
  obtain ⟨l, hl, pos⟩ := any_eq_true.mp h
  refine all_eq_false.mpr ⟨l, hl, fun e => ?_⟩
  rw [beq_iff_eq.mp e] at pos
  exact absurd (of_decide_eq_true pos) (by decide)

def Alike (ls ls' : List Latency) : Prop := ls = ls' ∨ isSequential ls = true ∧ isSequential ls' = true

theorem Alike.append (h : Alike ls ls') (h' : Alike ks ks') : Alike (ls ++ ks) (ls' ++ ks') := by
  unfold Alike
  rw [sequential_append, sequential_append]
  rcases h with rfl | ⟨h1, h2⟩
  · rcases h' with rfl | ⟨h1, h2⟩
    · exact .inl rfl
    · exact .inr ⟨by simp [h1], by simp [h2]⟩
  · exact .inr ⟨by simp [h1], by simp [h2]⟩

theorem sequential_leave (h : isSequential ls = true) : isSequential (leave d o ls) = true := by
  refine sequential_latest ?_
  split
  · rw [sequential_append, h]; rfl
  · exact h

theorem Alike.leave (h : Alike ls ls') : Alike (leave d o ls) (leave d o ls') := by
  rcases h with rfl | ⟨h1, h2⟩
  · exact .inl rfl
  · exact .inr ⟨sequential_leave h1, sequential_leave h2⟩

theorem Alike.judge (ht : Alike ts ts') (hf : Alike fs fs') : judge ts fs = judge ts' fs' := by
  have same : ∀ {ls ls'}, Alike ls ls' → isCombinational ls = isCombinational ls' ∧
    isSequential ls = isSequential ls' := by
    intro ls ls' h
    rcases h with rfl | ⟨h1, h2⟩
    · exact ⟨rfl, rfl⟩
    · exact ⟨(not_combinational h1).trans (not_combinational h2).symm, h1.trans h2.symm⟩
  unfold Branch.judge
  rw [(same ht).1, (same ht).2, (same hf).1, (same hf).2]

theorem judge_sequential (ht : isSequential ts = true) (hf : isSequential fs = true) : judge ts fs = .balanced := by
  unfold Branch.judge
  rw [ht, hf, not_combinational ht, not_combinational hf]

theorem judge_delayTrue (h : judge ts fs = .delayTrue) : isSequential fs = true := by
  unfold Branch.judge at h
  split at h
  case h_3 hf => exact hf
  all_goals cases h

theorem judge_delayFalse (h : judge ts fs = .delayFalse) : isSequential ts = true := by
  unfold Branch.judge at h
  split at h
  case h_4 ht _ _ => exact ht
  all_goals cases h

/-! ## Branches and their sides -/

def Sits (ops : Array Operation) (c : OpId) (kind : Kind) (owner : OpId) : Prop :=
  ∃ o, at? ops c = some o ∧ o.kind = kind ∧ o.owner = owner

theorem sits_of_place (h : d.place? c = some (kind, owner)) :
    Sits d.ops c kind owner := op_of_place h

structure Static (ops : Array Operation) : Prop where
  child : ∀ {i o c}, at? ops i = some o → c ∈ o.children → ∃ k, at? ops c = some k ∧ k.owner = i
  forks : ∀ {i o c}, at? ops i = some o → o.kind = .branch → c = o.trueSide ∨ c = o.falseSide → c ≠ absent →
    Sits ops c .block i
  sides : ∀ {i o}, at? ops i = some o → o.kind = .branch → o.trueSide ≠ absent → o.trueSide ≠ o.falseSide
  calls : ∀ {i o}, at? ops i = some o → o.kind = .taskCall → o.body ≠ absent →
    ∃ call, Sits ops o.body .block call ∧ Sits ops call .call absent

theorem static_of (hd : WellFormed d) (hs : Shaped d) : Static d.ops where
  child ho hc := hd.child ho hc
  forks := by
    rintro i o c ho hk (rfl | rfl) hc
    · rcases (hs.ops (view_of _ ho)).forks hk with h | f
      · exact absurd h.2.1 hc
      · exact sits_of_place f.trueSide
    · rcases (hs.ops (view_of _ ho)).forks hk with h | f
      · exact absurd h.2.2 hc
      · exact sits_of_place f.falseSide
  sides := by
    intro i o ho hk hc
    rcases (hs.ops (view_of _ ho)).forks hk with h | f
    · exact absurd h.2.1 hc
    · exact f.sides
  calls := by
    intro i o ho hk hb
    obtain ⟨call, h1, h2⟩ := hs.calls (view_of _ ho) hk hb
    exact ⟨call, sits_of_place h1, sits_of_place h2⟩

/-- A module whose lateness the judgement of a branch reads: the branch itself and its sides. -/
def Part (ops : Array Operation) (b m : OpId) : Prop :=
  ∃ o, at? ops b = some o ∧ o.kind = .branch ∧ (m = b ∨ m = o.trueSide ∨ m = o.falseSide)

def Job.Misses (b m : OpId) : Job → Prop
  | visit op _ => op = m → op = b
  | all cs _ => ∀ c ∈ cs, c = m → c = b
  | contents op _ => op ≠ m ∧ op ≠ b

section
variable (hs : Static ops)
include hs

section
variable (part : Part ops b m) (hi : at? ops i = some o)
include part hi

theorem Part.place (e : i = m) : i = b ∨ o.kind = .block ∧ o.owner = b := by
  obtain ⟨q, hq, hk, rfl | side⟩ := part
  · exact .inl e
  · obtain ⟨p, hp, hkind, hown⟩ := hs.forks hq hk side (e ▸ ne_absent hi)
    rw [← e, hi] at hp
    cases hp
    exact .inr ⟨hkind, hown⟩

omit hs in
theorem Part.branch (hk : o.kind ≠ .branch) : i ≠ b := by
  intro e
  obtain ⟨q, hq, hqk, -⟩ := part
  rw [← e, hi] at hq
  cases hq
  exact hk hqk

theorem Part.misses (hk : o.kind ≠ .branch) (h : o.kind = .block → o.owner ≠ b) : i ≠ m ∧ i ≠ b := by
  refine ⟨fun e => ?_, part.branch hi hk⟩
  rcases part.place hs hi e with e | ⟨hb, hown⟩
  · exact part.branch hi hk e
  · exact h hb hown

theorem Part.child (ne : i ≠ b) (hc : c ∈ o.children) (e : c = m) : c = b := by
  obtain ⟨k, hk, hown⟩ := hs.child hi hc
  rcases part.place hs hk e with e | ⟨-, e⟩
  · exact e
  · exact absurd (hown.symm.trans e) ne

theorem Part.body (hk : o.kind = .taskCall) (hb : o.body ≠ absent) : o.body ≠ m ∧ o.body ≠ b := by
  obtain ⟨call, ⟨k, hk, hkind, hown⟩, ⟨q, hq, hqkind, -⟩⟩ := hs.calls hi hk hb
  refine part.misses hs hk (by rw [hkind]; decide) fun _ e => ?_
  rw [← hown, e] at hq
  exact part.branch hq (by rw [hqkind]; decide) rfl

theorem Part.side (hk : o.kind = .branch) (ne : i ≠ b)
    (hc : at? ops c = some k) (side : c = o.trueSide ∨ c = o.falseSide) : c ≠ m ∧ c ≠ b := by
  obtain ⟨q, hq, hkind, hown⟩ := hs.forks hi hk side (ne_absent hc)
  exact part.misses hs hq (by rw [hkind]; decide) fun _ e => ne (hown.symm.trans e)

theorem Part.fork (hk : o.kind = .branch) (ne : i ≠ b) : i ≠ m := by
  intro e
  rcases part.place hs hi e with e | ⟨hb, -⟩
  · exact ne e
  · exact absurd (hk.symm.trans hb) (by decide)

end

end

/-! ## A delay elsewhere -/

theorem Touch.leave (t : Touch m d e) (ho : at? d.ops i = some o) (ne : i ≠ m) :
    Branch.leave e o ls = Branch.leave d o ls := by
  unfold Branch.leave
  rw [t.late ho ne]

theorem Acts.stays (hd : WellFormed d) (h : Acts mod d d) (l : Longer d e) : Acts mod e e := by
  cases mod with
  | none => rfl
  | some m =>
    obtain ⟨v, hv⟩ := (touch_delay hd h).held
    exact delay_rests (l.carries hv)

theorem Longer.exitsOf (l : Longer d e) : e.exitsOf = d.exitsOf := exitsOf_congr l.exits

theorem Rests.frame (hd : WellFormed d) (hs : Static d.ops) (t : Touch m d e) (part : Part d.ops b m)
    (h : Rests d n j ls rs) (hl : j.inLoop = true) (miss : j.Misses b m) (unseen : ∀ r ∈ rs, r.branch ≠ b) :
    Rests e n j ls rs := by
  induction h with
  | nil => exact .nil
  | cons _ _ ih1 ih2 =>
    refine .cons (ih1 hl (miss _ mem_cons_self) ?_) (ih2 hl ?_ ?_)
    · exact fun r hr => unseen r (mem_append_left _ hr)
    · exact fun c hc => miss c (mem_cons_of_mem _ hc)
    · exact fun r hr => unseen r (mem_append_right _ hr)
  | contents ho _ ih =>
    rw [← t.leave ho miss.1]
    exact .contents (t.ops ▸ ho) (ih hl (fun c hc => part.child hs ho miss.2 hc) unseen)
  | leaf ho hr hh =>
    rw [← t.exitsOf]
    exact .leaf (t.ops ▸ ho) hr hh
  | @plain n op o il _ _ ho hr _ ih =>
    cases show il = true from hl
    have hk : o.kind ≠ .branch := fun e => absurd ((role_module hr).2.2 e) (by decide)
    have ne := part.branch ho hk
    exact .plain (t.ops ▸ ho) hr (ih rfl ⟨fun e => ne (miss e), ne⟩ unseen)
  | idle ho hr _ ih =>
    obtain ⟨hk, -⟩ := role_idle hr
    obtain ⟨nm, nb⟩ := part.misses hs ho (by rw [hk]; decide) (fun e => absurd (hk.symm.trans e) (by decide))
    rw [← t.leave ho nm]
    exact .idle (t.ops ▸ ho) hr (ih hl (fun c hc => part.child hs ho nb hc) unseen)
  | call ho hr _ _ ih1 ih2 =>
    obtain ⟨hk, hb⟩ := role_call hr
    obtain ⟨nm, nb⟩ := part.misses hs ho (by rw [hk]; decide) (fun e => absurd (hk.symm.trans e) (by decide))
    rw [← t.leave ho nm]
    refine .call (t.ops ▸ ho) hr (ih1 hl (fun c hc => part.child hs ho nb hc) ?_)
      (ih2 hl (part.body hs ho hk hb) ?_)
    · exact fun r hr => unseen r (mem_append_left _ hr)
    · exact fun r hr => unseen r (mem_append_right _ hr)
  | @fork n op o ts fs ls rs1 rs2 rs3 ho hr trueSide falseSide rest acts ih1 ih2 ih3 =>
    have hk := role_fork hr
    simp only [mem_append, mem_singleton] at unseen
    have ne : op ≠ b := unseen _ (.inr rfl)
    rw [← t.leave ho (part.fork hs ho hk ne)]
    refine .fork (t.ops ▸ ho) hr (ih1 rfl ?_ ?_) (ih2 rfl ?_ ?_) (ih3 rfl ?_ ?_) (acts.stays hd t.toLonger)
    · cases trueSide with
      | contents ho' => exact part.side hs ho hk ne ho' (.inl rfl)
    · exact fun r hr => unseen r (.inl (.inl (.inl hr)))
    · cases falseSide with
      | contents ho' => exact part.side hs ho hk ne ho' (.inr rfl)
    · exact fun r hr => unseen r (.inl (.inl (.inr hr)))
    · exact fun c hc => part.child hs ho ne (mem_filter.mp hc).1
    · exact fun r hr => unseen r (.inl (.inr hr))

theorem Rests.unreported (ho : at? d.ops op = some o) (hk : o.kind = .branch) (h : Rests d n j ls rs)
    (hj : j = .contents o.trueSide true ∨ j = .contents o.falseSide true ∨ j = .all (middle o) true) :
    ∀ r ∈ rs, r.branch ≠ op := by
  intro r hr e
  obtain ⟨k, ls', rs', h', le⟩ := h.reported hr
  rw [e] at h'
  have fork : role o true = .fork := by simp [role, hk]
  cases h' with
  | fork ho' _ trueSide falseSide rest _ =>
    cases ho.symm.trans ho'
    simp only [length_append, length_singleton] at le
    rcases hj with rfl | rfl | rfl
    · obtain ⟨-, rfl⟩ := h.unique trueSide
      omega
    · obtain ⟨-, rfl⟩ := h.unique falseSide
      omega
    · obtain ⟨-, rfl⟩ := h.unique rest
      omega
  | leaf ho' hr' | plain ho' hr' | idle ho' hr' | call ho' hr' =>
    cases ho.symm.trans ho'
    cases fork.symm.trans hr'

/-! ## What a walk keeps -/

def Job.Avoids (ops : Array Operation) (rs : List Record) (j : Job) : Prop :=
  ∀ r ∈ rs, ∀ {m}, Part ops r.branch m → j.Misses r.branch m

/-- Inside loops, jobs that rest in one design rest in the other, those aside that open a reported
branch from its middle. -/
structure Kept (d e : Design) (rs : List Record) : Prop where
  keep : ∀ {n j ls qs}, j.inLoop = true → j.Avoids d.ops rs → Rests d n j ls qs → Rests e n j ls qs

def Free (ops : Array Operation) (c : OpId) : Prop := ∀ b m, Part ops b m → c = m → c = b

theorem Kept.refl (d : Design) (rs : List Record) : Kept d d rs := ⟨fun _ _ h => h⟩

theorem Kept.trans (h : Kept d e rs) (h' : Kept e d' qs) (hops : e.ops = d.ops) : Kept d d' (rs ++ qs) := by
  constructor
  intro n j ls ps hl avoids hr
  refine h'.keep hl ?_ (h.keep hl ?_ hr)
  · rw [hops]
    exact fun r hr => avoids r (mem_append_right _ hr)
  · exact fun r hr => avoids r (mem_append_left _ hr)

section
variable (k : Kept d e rs) (hs : Static d.ops) (l : Longer d e) (h : Rests d n j ls qs)
include k hs l h

theorem Kept.loose (hl : j.inLoop = false) : ∃ ls', Rests e n j ls' qs := by
  induction h with
  | nil => exact ⟨_, .nil⟩
  | cons _ _ ih1 ih2 =>
    obtain ⟨_, h1⟩ := ih1 hl
    obtain ⟨_, h2⟩ := ih2 hl
    exact ⟨_, .cons h1 h2⟩
  | contents ho _ ih =>
    obtain ⟨_, h⟩ := ih hl
    exact ⟨_, .contents (l.ops ▸ ho) h⟩
  | leaf ho hr hh => exact ⟨_, .leaf (l.ops ▸ ho) hr hh⟩
  | @plain n op o il ls qs ho hr inner ih =>
    cases show il = false from hl
    by_cases hk : o.kind = .loop
    -- a loop is opened by itself
    · have inside : (false || o.kind == .loop) = true := by rw [hk]; rfl
      rw [inside] at inner
      have avoids : (Job.contents op true).Avoids d.ops rs := fun r _ m part =>
        part.misses hs ho (by rw [hk]; decide) (fun e => absurd (hk.symm.trans e) (by decide))
      have kept := k.keep rfl avoids inner
      rw [← inside] at kept
      exact ⟨_, .plain (l.ops ▸ ho) hr kept⟩
    · have outside : (false || o.kind == .loop) = false := beq_eq_false_iff_ne.mpr hk
      obtain ⟨_, h⟩ := ih outside
      exact ⟨_, .plain (l.ops ▸ ho) hr h⟩
  | idle ho hr _ ih =>
    obtain ⟨_, h⟩ := ih hl
    exact ⟨_, .idle (l.ops ▸ ho) hr h⟩
  | call ho hr _ _ ih1 ih2 =>
    obtain ⟨_, h1⟩ := ih1 hl
    obtain ⟨_, h2⟩ := ih2 hl
    exact ⟨_, .call (l.ops ▸ ho) hr h1 h2⟩
  | fork => cases hl

theorem Kept.move
    (avoids : j.inLoop = true → j.Avoids d.ops rs) : ∃ ls', Rests e n j ls' qs ∧ (j.inLoop = true → ls' = ls) := by
  cases hl : j.inLoop with
  | true => exact ⟨ls, k.keep hl (avoids hl) h, fun _ => rfl⟩
  | false =>
    obtain ⟨ls', h'⟩ := k.loose hs l h hl
    exact ⟨ls', h', nofun⟩

end

theorem Static.free (hs : Static d.ops) (hi : at? d.ops i = some o) (hc : c ∈ o.children)
    (h : o.kind = .branch → c ≠ o.trueSide ∧ c ≠ o.falseSide) : Free d.ops c := by
  intro b m part e
  by_cases hib : i = b
  · subst hib
    obtain ⟨q, hq, hk, side⟩ := part
    cases hi.symm.trans hq
    obtain ⟨ht, hf⟩ := h hk
    subst e
    rcases side with side | side | side
    · exact side
    · exact absurd side ht
    · exact absurd side hf
  · exact part.child hs hi hib hc e

/-! ## The second run -/

def Action.settled : Action → Action
  | delayBranch => delayBranch
  | _ => balanced

def Settled (rs qs : List Record) : Prop :=
  (qs.map fun q => (q.branch, q.action)) = rs.map fun r => (r.branch, r.action.settled)

structure Settles (d : Design) (n : Nat) (j : Job) (ls : List Latency) (rs : List Record) (ls' : List Latency)
    (qs : List Record) : Prop where
  rests : Rests d n j ls' qs
  alike : j.inLoop = true → Alike ls ls'
  settled : Settled rs qs

def Job.Proper (ops : Array Operation) : Job → Prop
  | visit op il => il = true → Free ops op
  | all cs il => il = true → ∀ c ∈ cs, Free ops c
  | contents op il => il = true → ∀ o, at? ops op = some o → o.kind ≠ .branch

theorem Settled.append (h : Settled rs qs) (h' : Settled rs' qs') : Settled (rs ++ rs') (qs ++ qs') := by
  unfold Settled at h h' ⊢
  rw [map_append, map_append, h, h']

theorem Settled.again (h : Settled rs qs) (hr : r ∈ rs) :
    ∃ q ∈ qs, q.branch = r.branch ∧ q.action = r.action.settled := by
  have : (r.branch, r.action.settled) ∈ qs.map fun q => (q.branch, q.action) := by
    rw [show _ = _ from h]
    exact mem_map.mpr ⟨r, hr, rfl⟩
  obtain ⟨q, hq, e⟩ := mem_map.mp this
  exact ⟨q, hq, congrArg Prod.fst e, congrArg Prod.snd e⟩

theorem Settled.unseen (h : Settled rs qs) (hq : ∀ r ∈ qs, r.branch ≠ b) : ∀ r ∈ rs, r.branch ≠ b := by
  intro r hr e
  obtain ⟨q, hq', e', -⟩ := h.again hr
  exact hq q hq' (e'.trans e)

theorem Acts.sound (h : Acts mod d e) (hd : WellFormed d) : WellFormed e ∧ Longer d e := by
  cases mod with
  | none => rw [show e = d from h]; exact ⟨hd, .refl d⟩
  | some m => exact ⟨(keeps_delay m).kept hd h, (touch_delay hd h).toLonger⟩

theorem Does.sound (h : Does n j d ls rs d') (hd : WellFormed d) : WellFormed d' ∧ Longer d d' := by
  induction h with
  | nil | leaf => exact ⟨hd, .refl _⟩
  | cons _ _ ih1 ih2 | call _ _ _ _ ih1 ih2 =>
    obtain ⟨w1, l1⟩ := ih1 hd
    obtain ⟨w2, l2⟩ := ih2 w1
    exact ⟨w2, l1.trans l2⟩
  | contents _ _ ih | plain _ _ _ ih | idle _ _ _ ih => exact ih hd
  | fork _ _ _ _ _ acts ih1 ih2 ih3 =>
    obtain ⟨w1, l1⟩ := ih1 hd
    obtain ⟨w2, l2⟩ := ih2 w1
    obtain ⟨w3, l3⟩ := ih3 w2
    obtain ⟨w4, l4⟩ := acts.sound w3
    exact ⟨w4, ((l1.trans l2).trans l3).trans l4⟩

/-! ### Branches -/

theorem Rests.reopen (hd : WellFormed d) (he : WellFormed e) (hs : Static d.ops) (t : Touch c d e)
    (ho : at? d.ops op = some o) (hk : o.kind = .branch) (side : c = o.trueSide ∨ c = o.falseSide)
    (h : Rests d n (.contents c true) ts rs1) (unseen : ∀ r ∈ rs1, r.branch ≠ op) :
    ∃ ts', Rests e n (.contents c true) ts' rs1 ∧ isSequential ts' = true := by
  cases h with
  | @contents _ _ k _ parts _ hc inner =>
    have part : Part d.ops op c := ⟨o, ho, hk, .inr side⟩
    obtain ⟨q, hq, hkind, -⟩ := hs.forks ho hk side (ne_absent hc)
    cases hc.symm.trans hq
    have ne : c ≠ op := part.branch hc (by rw [hkind]; decide)
    have inner' := inner.frame hd hs t part rfl (fun a ha => part.child hs hc ne ha) unseen
    obtain ⟨v, hv⟩ := t.held
    have hc' : at? e.ops c = some k := t.ops ▸ hc
    refine ⟨_, .contents hc' inner', sequential_latest ?_⟩
    rw [if_pos (hv.late he hc'), sequential_append, show isSequential [Latency.one] = true from rfl, Bool.or_true]

theorem report_balanced (h : judge ts fs = .balanced) :
    report op ts fs ls = ⟨op, ts, fs, .balanced, ls ++ ts ++ fs⟩ := by
  simp [report, h]

theorem report_delayed (h : judge ts fs ≠ .balanced) : isSequential (report op ts fs ls).latencies = true := by
  have : (judge ts fs == .balanced) = false := beq_eq_false_iff_ne.mpr h
  simp only [report, this, Bool.false_eq_true, ite_false, sequential_append]
  rw [show isSequential [Latency.one] = true from rfl, Bool.or_true]

structure Judged (d : Design) (n : Nat) (op : OpId) (o : Operation) (ts fs ls ts' fs' ls' : List Latency)
    (qs₁ qs₂ qs₃ : List Record) : Prop where
  op : at? d.ops op = some o
  kind : o.kind = .branch
  trueSide : Rests d n (.contents o.trueSide true) ts' qs₁
  falseSide : Rests d n (.contents o.falseSide true) fs' qs₂
  rest : Rests d n (.all (middle o) true) ls' qs₃
  alikeTrue : Alike ts ts'
  alikeFalse : Alike fs fs'
  alikeRest : Alike ls ls'

namespace Judged

variable {op : OpId} (J : Judged d n op o ts fs ls ts' fs' ls' qs1 qs2 qs3)
include J

theorem judge_eq : judge ts' fs' = judge ts fs := (J.alikeTrue.judge J.alikeFalse).symm

theorem role : role o true = .fork := by simp [Branch.role, J.kind]

theorem unseen₁ : ∀ r ∈ qs1, r.branch ≠ op := J.trueSide.unreported J.op J.kind (.inl rfl)
theorem unseen₂ : ∀ r ∈ qs2, r.branch ≠ op := J.falseSide.unreported J.op J.kind (.inr (.inl rfl))
theorem unseen₃ : ∀ r ∈ qs3, r.branch ≠ op := J.rest.unreported J.op J.kind (.inr (.inr rfl))

section
variable (hd : WellFormed d) (hs : Static d.ops)
include hd hs

theorem frame_side (t : Touch m d e) (part : Part d.ops op m) (h : Rests d n (.contents c true) ks qs)
    (side : c = o.trueSide ∨ c = o.falseSide) (ne : c ≠ m) (unseen : ∀ r ∈ qs, r.branch ≠ op) :
    Rests e n (.contents c true) ks qs := by
  refine h.frame hd hs t part rfl ⟨ne, ?_⟩ unseen
  cases h with
  | contents hc =>
    obtain ⟨q, hq, hkind, -⟩ := hs.forks J.op J.kind side (ne_absent hc)
    exact part.branch hq (by rw [hkind]; decide)

theorem frame_rest (t : Touch m d e) (part : Part d.ops op m) : Rests e n (.all (middle o) true) ls' qs3 := by
  refine J.rest.frame hd hs t part rfl (fun c hc e => ?_) J.unseen₃
  obtain ⟨hc, skip⟩ := mem_filter.mp hc
  have ne : c ≠ o.trueSide ∧ c ≠ o.falseSide := by simpa using skip
  exact hs.free J.op hc (fun _ => ne) _ _ part e

theorem settles (acts : Acts ((judge ts fs).target? op o) d e) :
    ∃ ks r, Rests e (n + 1) (.visit op true) ks (qs1 ++ qs2 ++ qs3 ++ [r]) ∧
      Alike (leave e o (report op ts fs ls).latencies) ks ∧ Settled [report op ts fs ls] [r] := by
  have he := (acts.sound hd).1
  have ho' : at? e.ops op = some o := acts.sameOps.ops ▸ J.op
  have same := J.judge_eq
  have sides : o.trueSide ≠ o.falseSide := by
    cases J.trueSide with
    | contents hc => exact hs.sides J.op J.kind (ne_absent hc)
  cases ha : judge ts fs with
  | balanced =>
    rw [ha] at acts same
    cases show e = d from acts
    refine ⟨_, _, .fork ho' J.role J.trueSide J.falseSide J.rest (by rw [same]; rfl), ?_, ?_⟩
    · rw [report_balanced ha, report_balanced same]
      exact ((J.alikeRest.append J.alikeTrue).append J.alikeFalse).leave
    · rw [report_balanced ha, report_balanced same]
      rfl
  | delayTrue =>
    rw [ha] at acts same
    have t := touch_delay hd acts
    have part : Part d.ops op o.trueSide := ⟨o, J.op, J.kind, .inr (.inl rfl)⟩
    obtain ⟨ts'', hts, seq⟩ := J.trueSide.reopen hd he hs t J.op J.kind (.inl rfl) J.unseen₁
    have hfs := J.frame_side hd hs t part J.falseSide (.inr rfl) sides.symm J.unseen₂
    have now := judge_sequential seq (judge_delayTrue same)
    refine ⟨_, _, .fork ho' J.role hts hfs (J.frame_rest hd hs t part) (by rw [now]; rfl), .inr ⟨?_, ?_⟩, ?_⟩
    · exact sequential_leave (report_delayed (by rw [ha]; decide))
    · rw [report_balanced now]
      exact sequential_leave (by simp only [sequential_append, seq, Bool.or_true, Bool.true_or])
    · rw [report_balanced now]
      simp [Settled, report, ha, Action.settled]
  | delayFalse =>
    rw [ha] at acts same
    have t := touch_delay hd acts
    have part : Part d.ops op o.falseSide := ⟨o, J.op, J.kind, .inr (.inr rfl)⟩
    obtain ⟨fs'', hfs, seq⟩ := J.falseSide.reopen hd he hs t J.op J.kind (.inr rfl) J.unseen₂
    have hts := J.frame_side hd hs t part J.trueSide (.inl rfl) sides J.unseen₁
    have now := judge_sequential (judge_delayFalse same) seq
    refine ⟨_, _, .fork ho' J.role hts hfs (J.frame_rest hd hs t part) (by rw [now]; rfl), .inr ⟨?_, ?_⟩, ?_⟩
    · exact sequential_leave (report_delayed (by rw [ha]; decide))
    · rw [report_balanced now]
      exact sequential_leave (by simp only [sequential_append, seq, Bool.or_true])
    · rw [report_balanced now]
      simp [Settled, report, ha, Action.settled]
  | delayBranch =>
    rw [ha] at acts same
    have t := touch_delay hd acts
    have part : Part d.ops op op := ⟨o, J.op, J.kind, .inl rfl⟩
    have ne : ∀ {c ks qs}, Rests d n (.contents c true) ks qs → c = o.trueSide ∨ c = o.falseSide → c ≠ op := by
      intro c ks qs h side
      cases h with
      | contents hc =>
        obtain ⟨q, hq, hkind, -⟩ := hs.forks J.op J.kind side (ne_absent hc)
        exact part.branch hq (by rw [hkind]; decide)
    have hts := J.frame_side hd hs t part J.trueSide (.inl rfl) (ne J.trueSide (.inl rfl)) J.unseen₁
    have hfs := J.frame_side hd hs t part J.falseSide (.inr rfl) (ne J.falseSide (.inr rfl)) J.unseen₂
    obtain ⟨v, hv⟩ := t.held
    refine ⟨_, _, .fork ho' J.role hts hfs (J.frame_rest hd hs t part) (by rw [same]; exact delay_rests hv),
      .inr ⟨?_, ?_⟩, ?_⟩
    · exact sequential_leave (report_delayed (by rw [ha]; decide))
    · exact sequential_leave (report_delayed (by rw [same]; decide))
    · simp [Settled, report, ha, same, Action.settled]

theorem kept (acts : Acts ((judge ts fs).target? op o) d e) : Kept d e [report op ts fs ls] := by
  constructor
  intro k j ks qs hl avoids h
  by_cases seen : ∃ r ∈ qs, r.branch = op
  · obtain ⟨r, hr, hop⟩ := seen
    obtain ⟨_, _, _, h', -⟩ := h.reported hr
    rw [hop] at h'
    have role := J.role
    cases h' with
    | fork ho' _ trueSide falseSide _ acts' =>
      cases J.op.symm.trans ho'
      obtain ⟨rfl, -⟩ := J.trueSide.unique trueSide
      obtain ⟨rfl, -⟩ := J.falseSide.unique falseSide
      rw [J.judge_eq] at acts'
      have : e = d := by
        cases hm : (judge ts fs).target? op o with
        | none => rw [hm] at acts; exact acts
        | some m =>
          rw [hm] at acts acts'
          have := Eq.trans (Eq.symm (show (delay m).run d = _ from acts)) acts'
          cases this
          rfl
      rw [this]
      exact h
    | leaf ho' hr' | plain ho' hr' | idle ho' hr' | call ho' hr' =>
      cases J.op.symm.trans ho'
      cases role.symm.trans hr'
  · cases hm : (judge ts fs).target? op o with
    | none =>
      rw [hm] at acts
      rw [show e = d from acts]
      exact h
    | some m =>
      rw [hm] at acts
      have part : Part d.ops op m := by
        refine ⟨o, J.op, J.kind, ?_⟩
        cases ha : judge ts fs <;> rw [ha] at hm <;> cases hm <;> simp
      exact h.frame hd hs (touch_delay hd acts) part hl (avoids _ mem_cons_self part)
        fun r hr e => seen ⟨r, hr, e⟩

end

end Judged

/-! ### Walks -/

theorem Free.avoids (h : Free ops c) (rs : List Record) :
    (Job.visit c il).Avoids ops rs := fun _ _ _ part e => h _ _ part e

theorem avoids_all (h : ∀ c ∈ cs, Free ops c) (rs : List Record) :
    (Job.all cs il).Avoids ops rs := fun _ _ _ part c hc e => h c hc _ _ part e

theorem avoids_side (hs : Static d.ops) (ho : at? d.ops op = some o)
    (hk : o.kind = .branch) (side : c = o.trueSide ∨ c = o.falseSide)
    (h : Rests e n (.contents c true) ks qs) (hops : e.ops = d.ops) (unseen : ∀ r ∈ rs, r.branch ≠ op) :
    (Job.contents c true).Avoids d.ops rs := by
  intro r hr m part
  cases h with
  | contents hc => exact part.side hs ho hk (fun e => unseen r hr e.symm) (hops ▸ hc) side

theorem middle_free (hs : Static d.ops) (ho : at? d.ops op = some o) : ∀ c ∈ middle o, Free d.ops c := by
  intro c hc
  obtain ⟨hc, skip⟩ := mem_filter.mp hc
  exact hs.free ho hc fun _ => by simpa using skip

theorem Does.settles (h : Does n j d ls rs d') (hd : WellFormed d) (hs : Static d.ops) (hj : j.Proper d.ops) :
    Kept d d' rs ∧ ∃ ls' qs, Settles d' n j ls rs ls' qs := by
  induction h with
  | nil => exact ⟨.refl .., _, _, .nil, fun _ => .inl rfl, rfl⟩
  | @cons n c cs il d e d' ls ls' rs rs' head tail ih1 ih2 =>
    obtain ⟨w1, l1⟩ := head.sound hd
    have l2 := (tail.sound w1).2
    obtain ⟨k1, ls1, qs1, s1⟩ := ih1 hd hs fun hl => hj hl c mem_cons_self
    have hs' : Static e.ops := l1.ops ▸ hs
    obtain ⟨k2, ls2, qs2, s2⟩ := ih2 w1 hs' (by
      rw [l1.ops]
      exact fun hl a ha => hj hl a (mem_cons_of_mem _ ha))
    obtain ⟨ls1', h1, e1⟩ := k2.move hs' l2 s1.rests fun hl => by
      rw [l1.ops]
      exact (hj hl c mem_cons_self).avoids _
    refine ⟨k1.trans k2 l1.ops, _, _, .cons h1 s2.rests, fun hl => ?_, s1.settled.append s2.settled⟩
    rw [e1 hl]
    exact (s1.alike hl).append (s2.alike hl)
  | @contents n op o il d ls rs d' ho inner ih =>
    have l := (inner.sound hd).2
    obtain ⟨k, ls', qs, s⟩ := ih hd hs fun hl c hc => hs.free ho hc fun e => absurd e (hj hl o ho)
    exact ⟨k, _, _, .contents (l.ops ▸ ho) s.rests, fun hl => (s.alike hl).leave, s.settled⟩
  | leaf ho hr hh => exact ⟨.refl .., _, _, .leaf ho hr hh, fun _ => .inl rfl, rfl⟩
  | @plain n op o il d ls rs d' ho hr inner ih =>
    have l := (inner.sound hd).2
    obtain ⟨-, -, hb⟩ := role_module hr
    obtain ⟨k, ls', qs, s⟩ := ih hd hs (by
      intro hl q hq hk
      cases ho.symm.trans hq
      rw [hb hk, hk] at hl
      cases hl)
    refine ⟨k, _, _, .plain (l.ops ▸ ho) hr s.rests, fun hl => s.alike ?_, s.settled⟩
    rw [show il = true from hl]
    rfl
  | @idle n op o il d ls rs d' ho hr own ih =>
    have l := (own.sound hd).2
    obtain ⟨hk, -⟩ := role_idle hr
    obtain ⟨k, ls', qs, s⟩ := ih hd hs fun _ c hc => hs.free ho hc fun e => absurd (hk.symm.trans e) (by decide)
    exact ⟨k, _, _, .idle (l.ops ▸ ho) hr s.rests, fun hl => (s.alike hl).leave, s.settled⟩
  | @call n op o il d e d' ls ls' rs rs' ho hr own called ih1 ih2 =>
    obtain ⟨w1, l1⟩ := own.sound hd
    have l2 := (called.sound w1).2
    obtain ⟨hk, hb⟩ := role_call hr
    have free : ∀ c ∈ o.children, Free d.ops c := fun c hc =>
      hs.free ho hc fun e => absurd (hk.symm.trans e) (by decide)
    obtain ⟨k1, ls1, qs1, s1⟩ := ih1 hd hs fun _ => free
    have hs' : Static e.ops := l1.ops ▸ hs
    obtain ⟨k2, ls2, qs2, s2⟩ := ih2 w1 hs' (by
      intro _ q hq
      obtain ⟨_, ⟨p, hp, hpk, -⟩, -⟩ := hs.calls ho hk hb
      rw [l1.ops, hp] at hq
      cases hq
      rw [hpk]
      decide)
    obtain ⟨ls1', h1, e1⟩ := k2.move hs' l2 s1.rests fun _ => by
      rw [l1.ops]
      exact avoids_all free _
    refine ⟨k1.trans k2 l1.ops, _, _, .call (l2.ops ▸ l1.ops ▸ ho) hr h1 s2.rests, fun hl => ?_,
      s1.settled.append s2.settled⟩
    rw [e1 hl]
    exact ((s1.alike hl).append (s2.alike hl)).leave
  | @fork n op o d d1 d2 d3 d' ts fs ls rs1 rs2 rs3 ho hr trueSide falseSide rest acts ih1 ih2 ih3 =>
    have hk := role_fork hr
    obtain ⟨w1, l1⟩ := trueSide.sound hd
    obtain ⟨w2, l2⟩ := falseSide.sound w1
    obtain ⟨w3, l3⟩ := rest.sound w2
    have hs1 : Static d1.ops := l1.ops ▸ hs
    have hs2 : Static d2.ops := l2.ops ▸ hs1
    have hs3 : Static d3.ops := l3.ops ▸ hs2
    have ho1 : at? d1.ops op = some o := l1.ops ▸ ho
    have ho2 : at? d2.ops op = some o := l2.ops ▸ ho1
    have ho3 : at? d3.ops op = some o := l3.ops ▸ ho2
    -- the sides are blocks
    have block : ∀ {c ops}, Static ops → at? ops op = some o → c = o.trueSide ∨ c = o.falseSide →
        (Job.contents c true).Proper ops := by
      intro c ops hs ho side _ q hq e
      obtain ⟨p, hp, hkind, -⟩ := hs.forks ho hk side (ne_absent hq)
      cases hq.symm.trans hp
      exact absurd (hkind.symm.trans e) (by decide)
    obtain ⟨k1, ts', qs1, s1⟩ := ih1 hd hs (block hs ho (.inl rfl))
    obtain ⟨k2, fs', qs2, s2⟩ := ih2 w1 hs1 (block hs1 ho1 (.inr rfl))
    obtain ⟨k3, ls', qs3, s3⟩ := ih3 w2 hs2 fun _ => middle_free hs2 ho2
    -- what the sides gave still holds at the end
    have u2 := s2.settled.unseen (s2.rests.unreported ho2 hk (.inr (.inl rfl)))
    have u3 := s3.settled.unseen (s3.rests.unreported ho3 hk (.inr (.inr rfl)))
    have t2 := k2.keep rfl (avoids_side hs1 ho1 hk (.inl rfl) s1.rests rfl u2) s1.rests
    have t3 := k3.keep rfl (avoids_side hs2 ho2 hk (.inl rfl) t2 rfl u3) t2
    have f3 := k3.keep rfl (avoids_side hs2 ho2 hk (.inr rfl) s2.rests rfl u3) s2.rests
    have J : Judged d3 n op o ts fs ls ts' fs' ls' qs1 qs2 qs3 :=
      ⟨ho3, hk, t3, f3, s3.rests, s1.alike rfl, s2.alike rfl, s3.alike rfl⟩
    obtain ⟨ks, r, resting, alike, settled⟩ := J.settles w3 hs3 acts
    have kept : Kept d d3 (rs1 ++ rs2 ++ rs3) := (k1.trans k2 l1.ops).trans k3 (l2.ops.trans l1.ops)
    refine ⟨kept.trans (J.kept w3 hs3 acts) (l3.ops.trans (l2.ops.trans l1.ops)), ks, _, resting, fun _ => alike,
      ?_⟩
    exact ((s1.settled.append s2.settled).append s3.settled).append settled

/-! ## Whole designs -/

theorem Rests.held (h : Rests d n j ls rs) (hd : WellFormed d) :
    ∀ r ∈ rs, r.action = .delayBranch → ∃ v, Carries d r.branch v := by
  induction h with
  | nil | leaf => exact nofun
  | cons _ _ ih1 ih2 | call _ _ _ _ ih1 ih2 =>
    intro r hr ha
    rcases mem_append.mp hr with hr | hr
    · exact ih1 r hr ha
    · exact ih2 r hr ha
  | contents _ _ ih | plain _ _ _ ih | idle _ _ _ ih => exact ih
  | fork _ _ _ _ _ acts ih1 ih2 ih3 =>
    intro r hr ha
    simp only [mem_append, mem_singleton] at hr
    rcases hr with ((hr | hr) | hr) | rfl
    · exact ih1 r hr ha
    · exact ih2 r hr ha
    · exact ih3 r hr ha
    · rw [show judge _ _ = _ from ha] at acts
      exact (touch_delay hd acts).held

theorem balance_does (ho : o.balance = true) (h : (balance o).run d = .ok (.ok rs, d')) :
    ∃ ls, Does (d.ops.size + 1) (.all (d.tasks.toList.map Task.call) false) d ls rs d' := by
  have tour : ∀ {ts : List Task} {r r' e e'}, (ts.foldlM (fun records t => do
      return (← Pass.within s!"task {t.name}" ((visit (d.ops.size + 1) t.call false).run records)).2)
        r : Pass _).run e =
        .ok (.ok r', e') → ∃ ls qs, r' = r ++ qs ∧ Does (d.ops.size + 1) (.all (ts.map Task.call) false)
          e ls qs e' := by
    intro ts
    induction ts with
    | nil =>
      intro r r' e e' h
      cases h
      exact ⟨[], [], (append_nil _).symm, .nil⟩
    | cons t ts ih =>
      intro r r' e e' h
      obtain ⟨_, _, h1, h⟩ := step_bind_ok.mp h
      obtain ⟨⟨ls, q⟩, _, h2, h1⟩ := step_bind_ok.mp h1
      cases h1
      obtain ⟨qs, rfl, head⟩ := visit_ok _ (within_ok.mp h2)
      obtain ⟨_, qs', rfl, tail⟩ := ih h
      exact ⟨_, qs ++ qs', append_assoc .., .cons head tail⟩
  unfold balance at h
  simp only [ho] at h
  obtain ⟨_, _, hget, h⟩ := step_bind_ok.mp h
  obtain ⟨rfl, rfl⟩ := step_get_ok.mp hget
  obtain ⟨ls, qs, rfl, does⟩ := tour h
  exact ⟨ls, does⟩

theorem balance_rests (ho : o.balance = true)
    (h : Rests d (d.ops.size + 1) (.all (d.tasks.toList.map Task.call) false) ls rs) :
    (balance o).run d = .ok (.ok rs, d) := by
  have tour : ∀ {ts : List Task} {r ls qs}, Rests d (d.ops.size + 1) (.all (ts.map Task.call) false) ls qs →
      (ts.foldlM (fun records t => do
        return (← Pass.within s!"task {t.name}" ((visit (d.ops.size + 1) t.call false).run records)).2) r :
          Pass _).run d = .ok (.ok (r ++ qs), d) := by
    intro ts
    induction ts with
    | nil =>
      intro r ls qs h
      cases h
      exact step_pure_ok.mpr ⟨append_nil _, rfl⟩
    | cons t ts ih =>
      intro r ls qs h
      cases h with
      | cons head tail =>
        rw [← append_assoc]
        refine step_bind_ok.mpr ⟨_, d, step_bind_ok.mpr ⟨_, d, within_ok.mpr (head.runs r), ?_⟩, ih tail⟩
        exact step_pure_ok.mpr ⟨rfl, rfl⟩
  unfold balance
  simp only [ho]
  exact step_bind_ok.mpr ⟨d, d, step_get_ok.mpr ⟨rfl, rfl⟩, tour h⟩

theorem balance_settled (hd : WellFormed d) (hs : Shaped d) (ho : o.balance = true)
    (h : (balance o).run d = .ok (.ok rs, d')) : WellFormed d' ∧ Longer d d' ∧ ∃ ls qs,
      Rests d' (d.ops.size + 1) (.all (d.tasks.toList.map Task.call) false) ls qs ∧ Settled rs qs := by
  obtain ⟨ls, does⟩ := balance_does ho h
  obtain ⟨-, ls', qs, s⟩ := does.settles hd (static_of hd hs) nofun
  exact ⟨(does.sound hd).1, (does.sound hd).2, ls', qs, s.rests, s.settled⟩

/-- A second run of the balancer succeeds and leaves the design as it is. It sees the branches that the
first run saw, in the same order: those that were balanced or of which a side was delayed are
balanced, and those that were delayed as a whole are to be delayed still and already complete a clock
after their start. What delays them so is one clock, or was there before the first run and may be longer. -/
theorem balance_twice {d' : Design} {o : Options} {rs : List Record} (hd : Built d)
    (h : (balance o).run d = .ok (.ok rs, d')) : ∃ qs, (balance o).run d' = .ok (.ok qs, d') ∧
      ((qs.map fun q => (q.branch, q.action)) = rs.map fun r => (r.branch, r.action.settled)) ∧
      ∀ r ∈ rs, r.action = .delayBranch → ∃ v, Carries d' r.branch v ∧
        (v.minClocks = 1 ∨ d.dep? v.id = some v) := by
  cases ho : o.balance with
  | false =>
    have off : ∀ e, (balance o).run e = .ok (.ok [], e) := by
      intro e
      simp only [balance, ho, Bool.not_false, ite_true]
      rfl
    rw [off] at h
    cases h
    exact ⟨[], off d, rfl, nofun⟩
  | true =>
    obtain ⟨hd', longer, ls, qs, rests, settled⟩ := balance_settled hd.wellFormed hd.shaped ho h
    have tasks : d'.tasks = d.tasks := by
      obtain ⟨_, does⟩ := balance_does ho h
      exact does.sameOps.tasks
    refine ⟨qs, balance_rests ho (by rw [longer.ops, tasks]; exact rests), settled, fun r hr ha => ?_⟩
    obtain ⟨q, hq, hb, hqa⟩ := settled.again hr
    rw [ha] at hqa
    obtain ⟨v, hv⟩ := rests.held hd' q hq hqa
    rw [hb] at hv
    refine ⟨v, hv, ?_⟩
    obtain ⟨-, -, -, -, -, p, -, -, -, -, -, -, hp, -, -⟩ := hv
    obtain ⟨-, -, -, k, -, -, -, -, hk, -⟩ := mem_depsOnPort.mp hp
    rcases longer.deps hk with hk' | one
    · rw [hd'.depIds k v hk]
      exact .inr hk'
    · exact .inl one

/-- A task with a branch that may take a clock, called twice in a loop, once from a side of another
branch. -/
def sharedCommands : List Command :=
  [.newTask "u" 0 0 .zero true, .newBranch 3 "c" 0 0 .zero, .newPrimitive .op 13 "p" 0 0 ⟨0, 1, 0⟩,
   .newTask "t" 0 0 .zero true, .newLoop 23 "l" 0 0 .zero, .newBranch 37 "b" 0 0 .zero, .newTaskCall 48 "v" 0,
   .newTaskCall 37 "w" 0]

theorem shared_balance_twice : ∃ d d' rs qs, runAll sharedCommands { name := "x" } = some d ∧
    (balance {}).run d = .ok (.ok rs, d') ∧ d'.deps.size = d.deps.size + 2 ∧
    ((rs.map fun r => (r.branch, r.action)) = [(6, .delayBranch), (41, .delayFalse), (6, .delayBranch)]) ∧
    (balance {}).run d' = .ok (.ok qs, d') ∧
    ((qs.map fun q => (q.branch, q.action)) = [(6, .delayBranch), (41, .balanced), (6, .delayBranch)]) ∧
    ∃ v, Carries d' 6 v := by
  obtain ⟨d, hd, rs, d', h, hsize, hrs⟩ : ∃ d, runAll sharedCommands { name := "x" } = some d ∧
      ∃ rs d', (balance {}).run d = .ok (.ok rs, d') ∧ d'.deps.size = d.deps.size + 2 ∧
      (rs.map fun r => (r.branch, r.action)) = [(6, .delayBranch), (41, .delayFalse), (6, .delayBranch)] := by
    decide +kernel
  obtain ⟨qs, again, settled, held⟩ := balance_twice ((Built.empty "x").runAll hd) h
  refine ⟨d, d', rs, qs, hd, h, hsize, hrs, again, ?_, ?_⟩
  · have : (rs.map fun r => (r.branch, r.action.settled)) =
        (rs.map fun r => (r.branch, r.action)).map fun p => (p.1, p.2.settled) := by rw [map_map]; rfl
    rw [settled, this, hrs]
    rfl
  · obtain ⟨r, hr, e⟩ := mem_map.mp (show ((6 : OpId), Action.delayBranch) ∈ rs.map fun r => (r.branch, r.action) by
      rw [hrs]; exact mem_cons_self)
    obtain ⟨v, hv, -⟩ := held r hr (congrArg Prod.snd e)
    rw [show r.branch = 6 from congrArg Prod.fst e] at hv
    exact ⟨v, hv⟩

/-- A branch in a loop that may take a clock and is delayed already, by five. -/
def slowCommands : List Command :=
  [.newTask "t" 0 0 .zero true, .newLoop 3 "l" 0 0 .zero, .newBranch 17 "b" 0 0 .zero,
   .newPrimitive .op 28 "p" 0 0 ⟨0, 1, 0⟩, .connectResource 24 17 25 5]

/-- Neither run gives the branch a delay of one clock: it completes late as it is. -/
theorem slow_branch_never_delayed_by_one : ∃ d d' d'' rs qs, runAll slowCommands { name := "x" } = some d ∧
    (balance {}).run d = .ok (.ok rs, d') ∧ ((rs.map fun r => (r.branch, r.action)) = [(21, .delayBranch)]) ∧
    (balance {}).run d' = .ok (.ok qs, d'') ∧ ((qs.map fun q => (q.branch, q.action)) = [(21, .delayBranch)]) ∧
    ∀ v, Carries d' 21 v → v.minClocks = 5 := by
  obtain ⟨d, hd, rs, d', h, hrs, five, qs, d'', h', hqs⟩ : ∃ d, runAll slowCommands { name := "x" } = some d ∧
      ∃ rs d', (balance {}).run d = .ok (.ok rs, d') ∧
      (rs.map fun r => (r.branch, r.action)) = [(21, .delayBranch)] ∧
      (∀ v ∈ d'.deps.toList, delays v = true → v.minClocks = 5) ∧ ∃ qs d'',
      (balance {}).run d' = .ok (.ok qs, d'') ∧ (qs.map fun q => (q.branch, q.action)) = [(21, .delayBranch)] := by
    set_option synthInstance.maxSize 100000 in decide +kernel
  refine ⟨d, d', d'', rs, qs, hd, h, hrs, h', hqs, fun v carried => ?_⟩
  obtain ⟨-, -, -, -, -, p, -, -, -, -, -, -, mem, late, -⟩ := carried
  obtain ⟨-, -, -, k, -, -, -, -, hk, -⟩ := mem_depsOnPort.mp mem
  exact five v (Array.mem_toList_iff.mpr (mem_of_at? hk)) late

end Datapath.Branch
