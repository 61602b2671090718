import Datapath.Proofs.Layout
import Datapath.Proofs.Rebalancing
import Datapath.Proofs.RelativeTiming
import Mathlib.Data.List.Nodup

/-!
# The delays that balancing adds

A run of the balancer judges the branches inside loops that a task gets to. Each module that a report
selects is delayed once, unless it was delayed before, and its output buffer then starts at least a clock
after the module.
-/

namespace Datapath.Branch

set_option synthInstance.maxSize 300

open List

open Relation (ReflTransGen TransGen)

variable {d e : Design}

/-! ## The branches that are met -/

/-- A walk goes from the one operation to the other: from a module to what it owns or calls. -/
def Opens (d : Design) (m c : OpId) : Prop := ∃ o, at? d.ops m = some o ∧ o.kind.isModule = true ∧ Runs d m c

/-- The operation is a branch inside a loop that some task gets to. -/
def Looped (d : Design) (b : OpId) : Prop :=
  (∃ o, at? d.ops b = some o ∧ o.kind = .branch) ∧ ∃ t ∈ d.tasks, ∃ l lp, at? d.ops l = some lp ∧ lp.kind = .loop ∧
    ReflTransGen (Opens d) t.call l ∧ TransGen (Opens d) l b

def Leads (d : Design) (p q : OpId × Bool) : Prop :=
  ∃ o, at? d.ops p.1 = some o ∧ o.kind.isModule = true ∧ Runs d p.1 q.1 ∧ q.2 = (p.2 || o.kind == .loop)

def Job.Meets (d : Design) (b : OpId) : Job → Prop
  | visit op il => ReflTransGen (Leads d) (op, il) (b, true)
  | all cs il => ∃ c ∈ cs, ReflTransGen (Leads d) (c, il) (b, true)
  | contents op il => ∃ o, at? d.ops op = some o ∧ ∃ c ∈ o.children, ReflTransGen (Leads d) (c, il) (b, true)

theorem reaches_cases (h : ReflTransGen (Leads d) p (b, true)) :
    p.2 = true ∧ ReflTransGen (Opens d) p.1 b ∨ p.2 = false ∧ ∃ l lp, at? d.ops l = some lp ∧ lp.kind = .loop ∧
      ReflTransGen (Opens d) p.1 l ∧ TransGen (Opens d) l b := by
  induction h using ReflTransGen.head_induction_on with
  | refl => exact .inl ⟨rfl, .refl⟩
  | @head p r step _ ih =>
    obtain ⟨o, ho, hm, runs, flag⟩ := step
    have opens : Opens d p.1 r.1 := ⟨o, ho, hm, runs⟩
    cases hp : p.2 with
    | true =>
      rw [hp, Bool.true_or] at flag
      rcases ih with ⟨-, rest⟩ | ⟨no, -⟩
      · exact .inl ⟨rfl, rest.head opens⟩
      · exact absurd (no.symm.trans flag) (by decide)
    | false =>
      refine .inr ⟨rfl, ?_⟩
      rw [hp] at flag
      rcases ih with ⟨yes, rest⟩ | ⟨-, l, lp, hl, hk, path, rest⟩
      -- the module is the loop
      · exact ⟨p.1, o, ho, beq_iff_eq.mp (flag.symm.trans yes), .refl, .head' opens rest⟩
      · exact ⟨l, lp, hl, hk, path.head opens, rest⟩

theorem reaches_of_opens (h : ReflTransGen (Opens d) a b) : ReflTransGen (Leads d) (a, true) (b, true) := by
  induction h with
  | refl => exact .refl
  | tail _ step ih =>
    obtain ⟨o, ho, hm, runs⟩ := step
    exact ih.tail ⟨o, ho, hm, runs, rfl⟩

theorem reaches_some (h : ReflTransGen (Opens d) a b) : ∃ il, ReflTransGen (Leads d) (a, false) (b, il) := by
  induction h with
  | refl => exact ⟨false, .refl⟩
  | tail _ step ih =>
    obtain ⟨il, path⟩ := ih
    obtain ⟨o, ho, hm, runs⟩ := step
    exact ⟨_, path.tail ⟨o, ho, hm, runs, rfl⟩⟩

theorem reaches_iff : ReflTransGen (Leads d) (a, false) (b, true) ↔ ∃ l lp, at? d.ops l = some lp ∧
    lp.kind = .loop ∧ ReflTransGen (Opens d) a l ∧ TransGen (Opens d) l b := by
  constructor
  · intro h
    rcases reaches_cases h with ⟨no, -⟩ | ⟨-, h⟩
    · cases no
    · exact h
  · rintro ⟨l, lp, hl, hk, path, rest⟩
    obtain ⟨il, path⟩ := reaches_some path
    obtain ⟨c, ⟨o, ho, hm, runs⟩, rest⟩ := TransGen.head'_iff.mp rest
    cases hl.symm.trans ho
    have inside : Leads d (l, il) (c, true) := ⟨lp, hl, hm, runs, by simp [hk]⟩
    exact (path.tail inside).trans (reaches_of_opens rest)

section
variable (hd : WellFormed d) (ho : at? d.ops op = some o)
include hd ho

theorem runs_iff : Runs d op c ↔ c ∈ o.children ∨ o.kind = .taskCall ∧ o.body = c := by
  constructor
  · rintro (⟨k, hk, own⟩ | ⟨o', ho', call⟩)
    · obtain ⟨o', ho', hc⟩ := hd.mem_children hk (own ▸ ne_absent ho)
      rw [own] at ho'
      cases ho.symm.trans ho'
      exact .inl hc
    · cases ho.symm.trans ho'
      exact .inr call
  · rintro (hc | call)
    · exact runs_child hd ho hc
    · exact .inr ⟨o, ho, call⟩

theorem reaches_opened (hm : o.kind.isModule = true)
    (ne : ¬ (op = b ∧ il = true)) : ReflTransGen (Leads d) (op, il) (b, true) ↔
      ∃ c, (c ∈ o.children ∨ o.kind = .taskCall ∧ o.body = c) ∧
        ReflTransGen (Leads d) (c, il || o.kind == .loop) (b, true) := by
  rw [ReflTransGen.cases_head_iff]
  constructor
  · rintro (e | ⟨⟨c, il'⟩, ⟨o', ho', -, runs, flag⟩, rest⟩)
    · exact absurd (Prod.mk.inj e) ne
    · cases ho.symm.trans ho'
      cases flag
      exact ⟨c, (runs_iff hd ho).mp runs, rest⟩
  · rintro ⟨c, runs, rest⟩
    exact .inr ⟨_, ⟨o, ho, hm, (runs_iff hd ho).mpr runs, rfl⟩, rest⟩

theorem reaches_module (hm : o.kind.isModule = true) (hk : o.kind ≠ .taskCall) (ne : ¬ (op = b ∧ il = true)) :
    ReflTransGen (Leads d) (op, il) (b, true) ↔ (Job.contents op (il || o.kind == .loop)).Meets d b := by
  rw [reaches_opened hd ho hm ne]
  constructor
  · rintro ⟨c, hc | ⟨call, -⟩, rest⟩
    · exact ⟨o, ho, c, hc, rest⟩
    · exact absurd call hk
  · rintro ⟨o', ho', c, hc, rest⟩
    cases ho.symm.trans ho'
    exact ⟨c, .inl hc, rest⟩

end

theorem reaches_leaf (hl : ∀ o, at? d.ops op = some o → o.kind.isModule = false) (ne : op ≠ b) :
    ¬ ReflTransGen (Leads d) (op, il) (b, true) := by
  rw [ReflTransGen.cases_head_iff]
  rintro (e | ⟨_, ⟨o, ho, hm, -⟩, -⟩)
  · exact ne (Prod.mk.inj e).1
  · exact absurd (hm.symm.trans (hl o ho)) (by decide)

theorem ne_of_kind (hb : at? d.ops b = some q) (hq : q.kind = .branch) (ho : at? d.ops op = some o)
    (hk : o.kind ≠ .branch) : op ≠ b := by
  rintro rfl
  cases hb.symm.trans ho
  exact hk hq

section
variable (hd : WellFormed d) (hb : at? d.ops b = some q) (hq : q.kind = .branch) (ho : at? d.ops op = some o)
include hd hb hq ho

theorem reaches_block (hk : o.kind = .block) :
    ReflTransGen (Leads d) (op, il) (b, true) ↔ (Job.contents op il).Meets d b := by
  have ne := ne_of_kind hb hq ho (by rw [hk]; decide)
  have outside : (il || o.kind == .loop) = il := by rw [hk]; exact Bool.or_false il
  rw [reaches_module hd ho (by rw [hk]; rfl) (by rw [hk]; decide) fun e => ne e.1, outside]

theorem reaches_call (hk : o.kind = .taskCall) : ReflTransGen (Leads d) (op, il) (b, true) ↔
      (Job.all o.children il).Meets d b ∨ ReflTransGen (Leads d) (o.body, il) (b, true) := by
  have ne := ne_of_kind hb hq ho (by rw [hk]; decide)
  have outside : (il || o.kind == .loop) = il := by rw [hk]; exact Bool.or_false il
  rw [reaches_opened hd ho (by rw [hk]; rfl) fun e => ne e.1, outside]
  constructor
  · rintro ⟨c, hc | ⟨-, rfl⟩, rest⟩
    · exact .inl ⟨c, hc, rest⟩
    · exact .inr rest
  · rintro (⟨c, hc, rest⟩ | rest)
    · exact ⟨c, .inl hc, rest⟩
    · exact ⟨o.body, .inr ⟨hk, rfl⟩, rest⟩

end

theorem reaches_fork (hd : WellFormed d) (hs : Static d.ops) (hb : at? d.ops b = some q) (hq : q.kind = .branch)
    (ho : at? d.ops op = some o) (hk : o.kind = .branch) (ht : at? d.ops o.trueSide = some t)
    (hf : at? d.ops o.falseSide = some f) : ReflTransGen (Leads d) (op, true) (b, true) ↔
      (((Job.contents o.trueSide true).Meets d b ∨ (Job.contents o.falseSide true).Meets d b) ∨
        (Job.all (middle o) true).Meets d b) ∨ op = b := by
  obtain ⟨_, ht', tkind, town⟩ := hs.forks ho hk (.inl rfl) (ne_absent ht)
  obtain ⟨_, hf', fkind, fown⟩ := hs.forks ho hk (.inr rfl) (ne_absent hf)
  rw [← reaches_block hd hb hq ht' tkind, ← reaches_block hd hb hq hf' fkind]
  have child : ∀ {c k}, at? d.ops c = some k → k.owner = op → c ∈ o.children := by
    intro c k hc own
    exact ((runs_iff hd ho).mp (.inl ⟨k, hc, own⟩)).resolve_right fun h => absurd (hk.symm.trans h.1) (by decide)
  by_cases e : op = b
  · subst e
    exact ⟨fun _ => .inr rfl, fun _ => .refl⟩
  rw [reaches_opened hd ho (by rw [hk]; rfl) fun h => e h.1, or_iff_left e]
  constructor
  · rintro ⟨c, hc | ⟨call, -⟩, rest⟩
    · by_cases side : c = o.trueSide ∨ c = o.falseSide
      · rcases side with rfl | rfl
        · exact .inl (.inl rest)
        · exact .inl (.inr rest)
      · refine .inr ⟨c, mem_filter.mpr ⟨hc, ?_⟩, rest⟩
        simpa using not_or.mp side
    · exact absurd (hk.symm.trans call) (by decide)
  · rintro ((rest | rest) | ⟨c, hc, rest⟩)
    · exact ⟨_, .inl (child ht' town), rest⟩
    · exact ⟨_, .inl (child hf' fown), rest⟩
    · exact ⟨c, .inl (mem_filter.mp hc).1, rest⟩

section
variable {e' : Design}

theorem Does.branches (h : Does n j e ls rs e') (same : e.ops = d.ops) :
    ∀ r ∈ rs, ∃ o, at? d.ops r.branch = some o ∧ o.kind = .branch := by
  induction h with
  | nil | leaf => exact fun _ hr => nomatch hr
  | contents _ _ ih | plain _ _ _ ih | idle _ _ _ ih => exact ih same
  | cons head _ ih1 ih2 | call _ _ head _ ih1 ih2 =>
    intro r hr
    rcases mem_append.mp hr with hr | hr
    · exact ih1 same r hr
    · exact ih2 (head.sameOps.ops.trans same) r hr
  | fork ho hr trueSide falseSide rest acts ih1 ih2 ih3 =>
    have same1 := trueSide.sameOps.ops.trans same
    have same2 := falseSide.sameOps.ops.trans same1
    intro r hr'
    simp only [mem_append, mem_singleton] at hr'
    rcases hr' with ((hr' | hr') | hr') | rfl
    · exact ih1 same r hr'
    · exact ih2 same1 r hr'
    · exact ih3 same2 r hr'
    · exact ⟨_, same ▸ ho, role_fork hr⟩

theorem Does.meets (h : Does n j e ls rs e') (hd : WellFormed d) (hs : Static d.ops) (hb : at? d.ops b = some q)
    (hq : q.kind = .branch) (same : e.ops = d.ops) : (∃ r ∈ rs, r.branch = b) ↔ j.Meets d b := by
  induction h with
  | nil => simp [Job.Meets]
  | cons head _ ih1 ih2 =>
    simp only [mem_append, or_and_right, exists_or, ih1 same, ih2 (head.sameOps.ops.trans same), Job.Meets,
      mem_cons, exists_eq_left]
  | contents ho _ ih =>
    rw [ih same]
    constructor
    · exact fun h => ⟨_, same ▸ ho, h⟩
    · rintro ⟨o, ho', h⟩
      cases (same ▸ ho).symm.trans ho'
      exact h
  | leaf ho hr =>
    rw [same] at ho
    have leaf := role_leaf hr
    have ne := ne_of_kind hb hq ho fun e => by rw [e] at leaf; cases leaf
    constructor
    · rintro ⟨_, no, -⟩
      cases no
    · refine fun h => absurd h (reaches_leaf (fun o ho' => ?_) ne)
      cases ho.symm.trans ho'
      exact leaf
  | plain ho hr _ ih =>
    rw [same] at ho
    obtain ⟨hm, ht, hf⟩ := role_module hr
    rw [ih same]
    refine (reaches_module hd ho hm ht ?_).symm
    rintro ⟨rfl, rfl⟩
    cases hb.symm.trans ho
    cases hf hq
  | idle ho hr _ ih =>
    rw [same] at ho
    obtain ⟨hk, none⟩ := role_idle hr
    rw [ih same]
    refine ((reaches_call hd hb hq ho hk).trans (or_iff_left ?_)).symm
    rw [none]
    exact reaches_leaf (fun o ho => absurd rfl (ne_absent ho)) (Ne.symm (ne_absent hb))
  | call ho hr own called ih1 ih2 =>
    have same1 := own.sameOps.ops.trans same
    rw [same] at ho
    obtain ⟨hk, there⟩ := role_call hr
    obtain ⟨_, ⟨k, hbody, hkind, -⟩, -⟩ := hs.calls ho hk there
    simp only [mem_append, or_and_right, exists_or, ih1 same, ih2 same1]
    rw [← reaches_block hd hb hq hbody hkind]
    exact (reaches_call hd hb hq ho hk).symm
  | fork ho hr trueSide falseSide rest acts ih1 ih2 ih3 =>
    have same1 := trueSide.sameOps.ops.trans same
    have same2 := falseSide.sameOps.ops.trans same1
    rw [same] at ho
    obtain ⟨t, ht⟩ : ∃ t, at? d.ops _ = some t := by
      cases trueSide with
      | contents ht => exact ⟨_, same ▸ ht⟩
    obtain ⟨f, hf⟩ : ∃ f, at? d.ops _ = some f := by
      cases falseSide with
      | contents hf => exact ⟨_, same1 ▸ hf⟩
    simp only [mem_append, mem_singleton, or_and_right, exists_or, exists_eq_left, ih1 same, ih2 same1,
      ih3 same2]
    exact (reaches_fork hd hs hb hq ho (role_fork hr) ht hf).symm

theorem records_iff (hd : WellFormed d) (hs : Static d.ops) (ho : o.balance = true)
    (h : (balance o).run d = .ok (.ok rs, e)) : (∃ r ∈ rs, r.branch = b) ↔ Looped d b := by
  obtain ⟨ls, does⟩ := balance_does ho h
  constructor
  · rintro ⟨r, hr, rfl⟩
    obtain ⟨q, hb, hq⟩ := does.branches rfl r hr
    obtain ⟨c, hc, path⟩ := (does.meets hd hs hb hq rfl).mp ⟨r, hr, rfl⟩
    obtain ⟨t, ht, rfl⟩ := mem_map.mp hc
    exact ⟨⟨q, hb, hq⟩, t, Array.mem_toList_iff.mp ht, reaches_iff.mp path⟩
  · rintro ⟨⟨q, hb, hq⟩, t, ht, inside⟩
    refine (does.meets hd hs hb hq rfl).mpr ⟨t.call, mem_map_of_mem (Array.mem_toList_iff.mpr ht), ?_⟩
    exact reaches_iff.mpr inside

end

/-! ## The dependencies that are new -/

def Delayed (d : Design) (m : OpId) : Prop := ∃ v, Carries d m v

def Selects (d : Design) (rs : List Record) (m : OpId) : Prop :=
  ∃ r ∈ rs, ∃ o, at? d.ops r.branch = some o ∧ r.action.target? r.branch o = some m

/-- The dependency delays a module by one clock: it leads from the done bus of the input buffer to the go port of
the output buffer of the only exit, along the first way into that buffer. -/
structure Postpones (d : Design) (m : OpId) (v : Dependency) : Prop where
  kind : v.kind = .resource
  clocks : v.minClocks = 1
  source : ∃ x, d.inBufExit m = .ok x ∧ v.source = x.done
  target : ∃ o x y buffer, d.op? m = some o ∧ o.exits = [x] ∧ d.exit? x = some y ∧ d.op? y.peer = some buffer ∧
    buffer.kind = .outBuf ∧ buffer.entries.head? = some v.entry ∧ v.target = buffer.go

/-- From one design to the next, the modules that are selected have been delayed, each by a dependency of its
own. -/
structure Inserts (d₀ d : Design) (rs : List Record) (ms : List OpId) (vs : List Dependency) (e : Design) :
    Prop where
  deps : e.deps.toList = d.deps.toList ++ vs
  each : List.Forall₂ (Postpones d₀) ms vs
  nodup : ms.Nodup
  selected : ∀ m, m ∈ ms ↔ Selects d₀ rs m ∧ ¬ Delayed d m
  delayed : ∀ m, Delayed e m ↔ Delayed d m ∨ m ∈ ms

section
variable {d0 f : Design}

theorem selects_append : Selects d (rs ++ rs') m ↔ Selects d rs m ∨ Selects d rs' m := by
  simp only [Selects, mem_append, or_and_right, exists_or]

theorem Inserts.refl (d0 d : Design) : Inserts d0 d [] [] [] d where
  deps := (append_nil _).symm
  each := .nil
  nodup := .nil
  selected m := by simp [Selects]
  delayed m := by simp

theorem Inserts.trans (h : Inserts d0 d rs ms vs e) (h' : Inserts d0 e rs' ms' vs' f) :
    Inserts d0 d (rs ++ rs') (ms ++ ms') (vs ++ vs') f where
  deps := by rw [h'.deps, h.deps, append_assoc]
  each := rel_append h.each h'.each
  nodup := by
    refine nodup_append.mpr ⟨h.nodup, h'.nodup, ?_⟩
    rintro m hm _ hm' rfl
    exact ((h'.selected m).mp hm').2 ((h.delayed m).mpr (.inr hm))
  selected m := by
    rw [mem_append, selects_append, h'.selected, h.delayed, h.selected]
    tauto
  delayed m := by rw [h'.delayed, h.delayed, mem_append, or_assoc]

theorem delay_inserts (hd : WellFormed d) (l : Longer d0 d)
    (front : ∀ {o go}, at? d0.ops m = some o → at? d0.ports o.go = some go →
      ∃ x, d0.inBufExit m = .ok x ∧ go.peer = x.done)
    (hr : ∀ k, Selects d0 rs k ↔ m = k) (h : (delay m).run d = .ok (.ok (), e)) :
    ∃ ms vs, Inserts d0 d rs ms vs e := by
  by_cases held : Delayed d m
  · obtain ⟨v, hv⟩ := held
    cases (delay_rests hv).symm.trans h
    refine ⟨[], [], by simp, .nil, .nil, fun k => ?_, by simp⟩
    rw [hr]
    refine ⟨nofun, ?_⟩
    rintro ⟨rfl, no⟩
    exact absurd ⟨v, hv⟩ no
  obtain ⟨held', -⟩ | ⟨o, x, y, go, ob, entry, id, ho, hx, hy, hob, hgo, hentry, added⟩ := delay_ok h
  · exact absurd held' held
  have t := touch_delay hd h
  obtain ⟨own, -⟩ := outBuf_child hd ho (by rw [hx]; exact mem_cons_self) hy hob
  obtain ⟨rfl, -, -, -, -, -, -, -, -, grown⟩ := addDependency_ok added
  refine ⟨[m], [⟨d.deps.size, .resource, entry, go.peer, ob.go, 1⟩], ?_, ?_, nodup_singleton m, ?_, ?_⟩
  · rw [grown]
    simp
  · refine .cons ⟨rfl, rfl, front (l.ops ▸ ho) (l.ports ▸ hgo), ?_⟩ .nil
    obtain ⟨k, hk, place⟩ := view_some.mp (hd.outBufs hy (ne_absent hob))
    cases hob.symm.trans hk
    rw [l.ops] at ho hob
    rw [l.exits] at hy
    exact ⟨o, x, y, ob, ho, hx, hy, hob, congrArg Prod.fst place, hentry, rfl⟩
  · intro k
    rw [mem_singleton, hr]
    constructor
    · rintro rfl
      exact ⟨rfl, held⟩
    · exact fun h => h.1.symm
  · intro k
    rw [mem_singleton]
    constructor
    · rintro ⟨v, o', x', y', go', ob', p, ho', hx', hy', hob', hgo', hp, hv, delays, source⟩
      rw [t.ops] at ho' hob'
      rw [t.exits] at hy'
      rw [t.ports] at hgo' hp
      rcases addDependency_new added hv with hv | same
      · exact .inl ⟨v, o', x', y', go', ob', p, ho', hx', hy', hob', hgo', hp, hv, delays, source⟩
      -- the output buffer lies in one module
      · right
        obtain ⟨own', -⟩ := outBuf_child hd ho' (by rw [hx']; exact mem_cons_self) hy' hob'
        have peer := go_injective hd hob' hob ((hd.portIds _ _ hp).symm.trans same)
        rw [peer] at hob'
        cases hob.symm.trans hob'
        exact own'.symm.trans own
    · rintro (⟨v, hv⟩ | rfl)
      · exact ⟨v, t.carries hv⟩
      · exact t.held

theorem acts_inserts (hd : WellFormed d) (l : Longer d0 d)
    (front : ∀ {m o go}, mod = some m → at? d0.ops m = some o → at? d0.ports o.go = some go →
      ∃ x, d0.inBufExit m = .ok x ∧ go.peer = x.done)
    (hr : ∀ k, Selects d0 rs k ↔ mod = some k) (h : Acts mod d e) : ∃ ms vs, Inserts d0 d rs ms vs e := by
  cases mod with
  | none =>
    cases h
    exact ⟨[], [], by simp, .nil, .nil, fun k => by simp [hr], by simp⟩
  | some m => exact delay_inserts hd l (front rfl) (fun k => (hr k).trans (Option.some.injEq m k ▸ Iff.rfl)) h

theorem target_part {a : Action} (ho : at? ops op = some o) (hk : o.kind = .branch)
    (h : a.target? op o = some m) : Part ops op m := by
  refine ⟨o, ho, hk, ?_⟩
  cases a with
  | balanced => cases h
  | delayTrue => exact .inr (.inl (Option.some.inj h).symm)
  | delayFalse => exact .inr (.inr (Option.some.inj h).symm)
  | delayBranch => exact .inl (Option.some.inj h).symm

theorem Part.isModule (hs : Static ops) (part : Part ops b m) (hm : at? ops m = some o) :
    o.kind.isModule = true := by
  rcases part.place hs hm rfl with rfl | ⟨hk, -⟩
  · obtain ⟨q, hq, hk, -⟩ := part
    cases hm.symm.trans hq
    rw [hk]
    rfl
  · rw [hk]
    rfl

theorem Part.unique (hs : Static ops) (hm : at? ops m = some o) (h : Part ops b m) (h' : Part ops c m) : b = c := by
  rcases h.place hs hm rfl with e | ⟨hk, own⟩
  · rcases h'.place hs hm rfl with e' | ⟨hk, -⟩
    · exact e.symm.trans e'
    · exact absurd e (h.branch hm (by rw [hk]; decide))
  · rcases h'.place hs hm rfl with e' | ⟨-, own'⟩
    · exact absurd e' (h'.branch hm (by rw [hk]; decide))
    · exact own.symm.trans own'

theorem Does.inserts (hs : Static d0.ops)
    (front : ∀ {m o go}, at? d0.ops m = some o → o.kind.isModule = true → at? d0.ports o.go = some go →
      ∃ x, d0.inBufExit m = .ok x ∧ go.peer = x.done)
    (h : Does n j d ls rs e) (hd : WellFormed d) (l : Longer d0 d) : ∃ ms vs, Inserts d0 d rs ms vs e := by
  induction h with
  | nil | leaf => exact ⟨[], [], .refl d0 _⟩
  | contents _ _ ih | plain _ _ _ ih | idle _ _ _ ih => exact ih hd l
  | cons head _ ih1 ih2 | call _ _ head _ ih1 ih2 =>
    obtain ⟨hd1, l1⟩ := head.sound hd
    obtain ⟨ms1, vs1, h1⟩ := ih1 hd l
    obtain ⟨ms2, vs2, h2⟩ := ih2 hd1 (l.trans l1)
    exact ⟨_, _, h1.trans h2⟩
  | @fork n op o _ _ _ _ _ ts fs ls _ _ _ ho hr trueSide falseSide rest acts ih1 ih2 ih3 =>
    obtain ⟨hd1, l1⟩ := trueSide.sound hd
    obtain ⟨hd2, l2⟩ := falseSide.sound hd1
    obtain ⟨hd3, l3⟩ := rest.sound hd2
    have l2' := (l.trans l1).trans l2
    obtain ⟨ms1, vs1, h1⟩ := ih1 hd l
    obtain ⟨ms2, vs2, h2⟩ := ih2 hd1 (l.trans l1)
    obtain ⟨ms3, vs3, h3⟩ := ih3 hd2 l2'
    rw [l.ops] at ho
    have selects : ∀ k, Selects d0 [report op ts fs ls] k ↔ (judge ts fs).target? op o = some k := by
      intro k
      constructor
      · rintro ⟨r, hr, o', ho', target⟩
        cases mem_singleton.mp hr
        cases ho.symm.trans ho'
        exact target
      · exact fun target => ⟨_, mem_singleton_self _, o, ho, target⟩
    have fronted : ∀ {m k go}, (judge ts fs).target? op o = some m → at? d0.ops m = some k →
        at? d0.ports k.go = some go → ∃ x, d0.inBufExit m = .ok x ∧ go.peer = x.done := fun target hm hgo =>
      front hm ((target_part ho (role_fork hr) target).isModule hs hm) hgo
    obtain ⟨ms4, vs4, h4⟩ := acts_inserts hd3 (l2'.trans l3) fronted selects acts
    exact ⟨_, _, ((h1.trans h2).trans h3).trans h4⟩

end

/-! ## Timings of delayed modules -/

open Timing (compute forwardDeps arrival NoOverflow)

theorem outBuf_forward (hd : WellFormed d) (laid : Laid d)
    (hc : at? d.ops c = some buffer) (hk : buffer.kind = .outBuf) (hp : at? d.ports buffer.go = some p)
    (hv : v ∈ d.depsOnPort p) : v ∈ forwardDeps d buffer := by
  obtain ⟨o, i, e, k, ho, hi, he, hk', hv, -⟩ := mem_depsOnPort.mp hv
  obtain ⟨p', hp', own⟩ := hd.ports.holds hc buffer.go mem_cons_self
  cases hp.symm.trans hp'
  rw [Option.some.inj own] at ho
  cases hc.symm.trans ho
  refine mem_flatMap.mpr ⟨e, mem_filter.mpr ⟨mem_filterMap.mpr ⟨i, hi, he⟩, ?_⟩, ?_⟩
  · by_contra back
    obtain ⟨e', he', holder⟩ := hd.entries.holds hc i hi
    cases he.symm.trans he'
    have face : view d.entries Entry.face i = some (c, true) := by
      rw [view_of _ he, Entry.face, Option.some.inj holder, show e.feedback = true by simpa using back]
    obtain ⟨l, -, placed, -⟩ := laid.again face
    have kind : Kind.whileBody = buffer.kind :=
      congrArg Prod.fst (Option.some.inj (placed.symm.trans (view_of _ hc)))
    rw [hk] at kind
    cases kind
  · exact mem_filterMap.mpr ⟨k, hk', hv⟩

theorem Delayed.late (hd : WellFormed d) (laid : Laid d) (hx : ∀ x ∈ d.exits, x.latency.Valid)
    (held : Delayed d m) (ht : (compute d m base).run .relative = .ok (.ok (), t))
    (ot : NoOverflow d m t) : ∃ o x y l, d.op? m = some o ∧ o.exits = [x] ∧ d.exit? x = some y ∧
      t.input? y.peer = some l ∧ 1 ≤ l.min.toInt := by
  obtain ⟨v, o, x, y, go, buffer, p, ho, hex, hy, hob, -, hp, hv, delays, -⟩ := held
  obtain ⟨-, child⟩ := outBuf_child hd ho (by rw [hex]; exact mem_cons_self) hy hob
  have nested : Nested d m y.peer := .child ho child
  have exits : ∀ {x}, FlowExit d m x → x.latency.Valid := fun flow => hx _ (mem_of_at? (flow.exit hd).2)
  have settled : Timing.Settled d m base true t := Timing.compute_settled hd ht
  obtain ⟨_, times, ⟨⟩, driven, hl⟩ := settled.start nested hob
  refine ⟨o, x, y, _, ho, hex, hy, hl, ?_⟩
  obtain ⟨k, hk, place⟩ := view_some.mp (hd.outBufs hy (ne_absent hob))
  cases hob.symm.trans hk
  have kind : buffer.kind = .outBuf := congrArg Prod.fst place
  have forward := outBuf_forward hd laid hob kind hp hv
  have mem : arrival v (times v) ∈ (forwardDeps d buffer).map fun v => arrival v (times v) := mem_map_of_mem forward
  have least := (Timing.startOf_min buffer.kind .zero (by rw [kind]; decide) (ne_nil_of_mem mem)).2 _ mem
  have valid := (settled.valid hd nofun exits ot).2 (driven v forward)
  have adds := ot.deps nested hob forward (driven v forward)
  obtain ⟨-, -, exact, -⟩ := Timing.arrival_exact (Timing.clocks_nonneg hd forward) valid adds
  have clock : 0 < v.minClocks.toInt := by
    simp only [Branch.delays, Bool.and_eq_true, decide_eq_true_eq] at delays
    exact Int64.lt_iff_toInt_lt.mp delays.2
  have := valid.1
  omega

/-- A run of the balancer adds the delays that its reports ask for and nothing else. It reports the branches inside
the loops that tasks get to. Each module that a report selects, and that was not delayed before, gets one dependency
of one clock from the done bus of its input buffer to its output buffer; branches that no task gets to in a loop,
and their sides, get none. Where a timing of a selected module adds up within words, the output buffer starts at
least a clock after the module. -/
theorem balance_inserts_recorded_delays {d d' : Design} {o : Options} {rs : List Record} (hd : Built d)
    (ho : o.balance = true) (h : (balance o).run d = .ok (.ok rs, d')) :
    (∀ b, (∃ r ∈ rs, r.branch = b) ↔ Looped d b) ∧
    (∃ ms vs, d'.deps.toList = d.deps.toList ++ vs ∧ List.Forall₂ (Postpones d) ms vs ∧ ms.Nodup ∧
      (∀ m, m ∈ ms ↔ Selects d rs m ∧ ¬ Delayed d m) ∧ ∀ b m, Part d.ops b m → m ∈ ms → Looped d b) ∧
    ((∀ x ∈ d.exits, x.latency.Valid) → ∀ m base t, Selects d rs m →
      (compute d' m base).run .relative = .ok (.ok (), t) → NoOverflow d' m t →
      ∃ o x y l, d'.op? m = some o ∧ o.exits = [x] ∧ d'.exit? x = some y ∧ t.input? y.peer = some l ∧
        1 ≤ l.min.toInt) := by
  have wf := hd.wellFormed
  have hs := static_of wf hd.shaped
  obtain ⟨ls, does⟩ := balance_does ho h
  obtain ⟨wf', longer⟩ := does.sound wf
  obtain ⟨ms, vs, inserts⟩ := does.inserts hs hd.inBufExit wf (.refl d)
  have reported : ∀ b, (∃ r ∈ rs, r.branch = b) ↔ Looped d b := fun b => records_iff wf hs ho h
  refine ⟨reported, ⟨ms, vs, inserts.deps, inserts.each, inserts.nodup, inserts.selected, ?_⟩, ?_⟩
  · intro b m part hm
    obtain ⟨⟨r, hr, q, hq, target⟩, -⟩ := (inserts.selected m).mp hm
    obtain ⟨q', hq', hk⟩ := does.branches rfl r hr
    cases hq.symm.trans hq'
    obtain ⟨v, p, -, -, -, -, -, hp, -⟩ := (inserts.delayed m).mpr (.inr hm)
    rw [longer.ops] at hp
    cases part.unique hs hp (target_part hq hk target)
    exact (reported r.branch).mp ⟨r, hr, rfl⟩
  · intro hx m base t selects computed ot
    have held : Delayed d' m := by
      rw [inserts.delayed, inserts.selected]
      by_cases held : Delayed d m
      · exact .inl held
      · exact .inr ⟨selects, held⟩
    rw [← longer.exits] at hx
    exact held.late wf' (hd.step (.balanceBranches o) rfl (discard_run h)).laid hx computed ot

/-- A task with a branch that may take a clock, called twice in a loop of another task, once from a side of a branch
there. Outside the loop that task has one more branch, with an operation of one clock in one of its sides. -/
def outerCommands : List Command :=
  [.newTask "u" 0 0 .zero true, .newBranch 3 "c" 0 0 .zero, .newPrimitive .op 13 "p" 0 0 ⟨0, 1, 0⟩,
   .newTask "t" 0 0 .zero true, .newLoop 23 "l" 0 0 .zero, .newBranch 37 "b" 0 0 .zero, .newTaskCall 48 "v" 0,
   .newTaskCall 37 "w" 0, .newBranch 23 "e" 0 0 .zero, .newPrimitive .op 67 "q" 0 0 .one]

/-- Three reports ask for delays of two modules, and the branch outside the loop gets none. -/
theorem outer_delays_inserted : ∃ d d' rs t ms vs, runAll outerCommands { name := "x" } = some d ∧
    (balance {}).run d = .ok (.ok rs, d') ∧ Looped d 6 ∧ Looped d 41 ∧ ¬ Looped d 60 ∧
    d'.deps.toList = d.deps.toList ++ vs ∧ vs.length = 2 ∧ List.Forall₂ (Postpones d) ms vs ∧ 6 ∈ ms ∧ 60 ∉ ms ∧
    67 ∉ ms ∧ (compute d' 6 .zero).run .relative = .ok (.ok (), t) ∧
    ∃ o x y l, d'.op? 6 = some o ∧ o.exits = [x] ∧ d'.exit? x = some y ∧ t.input? y.peer = some l ∧
      1 ≤ l.min.toInt := by
  obtain ⟨d, hd, rs, d', h, ⟨⟩, t, ht, valid, calm, small, ⟨o, ho, kind, side⟩, size, seen⟩ :
      ∃ d, runAll outerCommands { name := "x" } = some d ∧ ∃ rs d', (balance {}).run d = .ok (.ok rs, d') ∧
      ∃ u t, (compute d' 6 .zero).run .relative = .ok (.ok u, t) ∧ (∀ x ∈ d.exits, x.latency.Valid) ∧
      (∀ v ∈ d.deps, delays v = false) ∧ Timing.isSmall d' t = true ∧
      (∃ o, d.op? 60 = some o ∧ o.kind = .branch ∧ o.trueSide = 67) ∧ d'.deps.size = d.deps.size + 2 ∧
      (rs.map fun r => (r.branch, r.action)) = [(6, .delayBranch), (41, .delayFalse), (6, .delayBranch)] := by
    decide +kernel
  have built := (Built.empty "x").runAll hd
  obtain ⟨reported, ⟨ms, vs, deps, each, -, selected, spared⟩, late⟩ := balance_inserts_recorded_delays built rfl h
  have branches : rs.map Record.branch = [6, 41, 6] := by
    have : rs.map Record.branch = (rs.map fun r => (r.branch, r.action)).map Prod.fst := by rw [map_map]; rfl
    rw [this, seen]
    rfl
  have looped : ∀ b, Looped d b ↔ b ∈ [6, 41, 6] := by
    intro b
    rw [← reported, ← branches, mem_map]
  have outside : ¬ Looped d 60 := fun h => absurd ((looped 60).mp h) (by decide)
  have selects : Selects d rs 6 := by
    obtain ⟨r, hr, e⟩ := mem_map.mp (show ((6 : OpId), Action.delayBranch) ∈ rs.map fun r => (r.branch, r.action) by
      rw [seen]; exact mem_cons_self)
    obtain ⟨⟨q, hq, -⟩, -⟩ := (looped 6).mpr (by decide)
    have branch : r.branch = 6 := congrArg Prod.fst e
    have action : r.action = .delayBranch := congrArg Prod.snd e
    exact ⟨r, hr, q, branch ▸ hq, by rw [action, branch]; rfl⟩
  have fresh : ¬ Delayed d 6 := by
    rintro ⟨v, -, -, -, -, -, p, -, -, -, -, -, -, hv, held, -⟩
    obtain ⟨-, -, -, k, -, -, -, -, hk, -⟩ := mem_depsOnPort.mp hv
    exact absurd (held.symm.trans (calm v (mem_of_at? hk))) (by decide)
  have wf' := (balance_settled built.wellFormed built.shaped rfl h).1
  refine ⟨d, d', rs, t, ms, vs, hd, h, (looped 6).mpr (by decide), (looped 41).mpr (by decide), outside, deps, ?_,
    each, (selected 6).mpr ⟨selects, fresh⟩, ?_, ?_, ht, late valid 6 .zero t selects ht
    (Timing.noOverflow_of_isSmall wf' small)⟩
  · have length := congrArg length deps
    rw [length_append, Array.length_toList, Array.length_toList] at length
    omega
  · exact fun hm => outside (spared 60 60 ⟨o, ho, kind, .inl rfl⟩ hm)
  · exact fun hm => outside (spared 60 67 ⟨o, ho, kind, .inr (.inl side.symm)⟩ hm)

def unreachedCommands : List Command := [.newLoop absent "l" 0 0 .zero, .newBranch 11 "b" 0 0 .zero]

def enclosedCommands : List Command :=
  [.newTask "t" 0 0 .zero true, .newLoop 3 "l" 0 0 .zero, .newPrimitive .op 17 "p" 0 0 .zero,
   .newBranch 21 "b" 0 0 .zero]

/-- A branch in a loop, to be delayed as a whole, whose input buffer takes as long as a word can tell. -/
def slowestCommands : List Command :=
  [.newTask "t" 0 0 .zero true, .newLoop 3 "l" 0 0 .zero, .newBranch 17 "b" 0 0 .zero,
   .newPrimitive .op 28 "p" 0 0 ⟨0, 1, 0⟩, .setLatency 22 ⟨Int64.maxValue, Int64.maxValue, 0⟩, .setLatency 28 .one,
   .setLatency 31 .one]

theorem InLoop.owned (h : InLoop d m) (hc : d.op? c = some o) (own : o.owner = m) : InLoop d c :=
  h.step (.inl ⟨o, hc, own⟩)

/-- Branches inside loops are not met where no task gets to the loop, or where the way in is no module. And a delay
that adds up to more than a word puts an output buffer before the start of its module. -/
theorem branches_missed_and_delays_wrapped :
    (∃ d d' o, runAll unreachedCommands { name := "x" } = some d ∧ (balance {}).run d = .ok (.ok [], d') ∧
      d.op? 15 = some o ∧ o.kind = .branch ∧ InLoop d 15) ∧
    (∃ d d' o, runAll enclosedCommands { name := "x" } = some d ∧ (balance {}).run d = .ok (.ok [], d') ∧
      d.op? 22 = some o ∧ o.kind = .branch ∧ InLoop d 22) ∧
    ∃ d d' rs t o x y l, runAll slowestCommands { name := "x" } = some d ∧ (∀ x ∈ d.exits, x.latency.Valid) ∧
      (balance {}).run d = .ok (.ok rs, d') ∧ Selects d rs 21 ∧
      (compute d' 21 .zero).run .relative = .ok (.ok (), t) ∧ d'.op? 21 = some o ∧ o.exits = [x] ∧
      d'.exit? x = some y ∧ t.input? y.peer = some l ∧ l.min.toInt < 1 := by
  refine ⟨?_, ?_, ?_⟩
  · obtain ⟨d, hd, _, d', h, rfl, ⟨lp, hl, loop⟩, ⟨body, hbody, own⟩, ⟨block, hblock, own'⟩, o, ho, kind, own''⟩ :
        ∃ d, runAll unreachedCommands { name := "x" } = some d ∧ ∃ rs d', (balance {}).run d = .ok (.ok rs, d') ∧
        rs = [] ∧ (∃ o, d.op? 0 = some o ∧ o.kind = .loop) ∧ (∃ o, d.op? 3 = some o ∧ o.owner = 0) ∧
        (∃ o, d.op? 11 = some o ∧ o.owner = 3) ∧ ∃ o, d.op? 15 = some o ∧ o.kind = .branch ∧ o.owner = 11 := by
      decide +kernel
    have inside : InLoop d 0 := ⟨0, lp, hl, loop, .refl⟩
    exact ⟨d, d', o, hd, h, ho, kind, ((inside.owned hbody own).owned hblock own').owned ho own''⟩
  · obtain ⟨d, hd, _, d', h, rfl, ⟨lp, hl, loop⟩, ⟨body, hbody, own⟩, ⟨block, hblock, own'⟩, ⟨p, hp, own''⟩, o, ho,
        kind, own₃⟩ : ∃ d, runAll enclosedCommands { name := "x" } = some d ∧ ∃ rs d',
        (balance {}).run d = .ok (.ok rs, d') ∧ rs = [] ∧ (∃ o, d.op? 6 = some o ∧ o.kind = .loop) ∧
        (∃ o, d.op? 9 = some o ∧ o.owner = 6) ∧ (∃ o, d.op? 17 = some o ∧ o.owner = 9) ∧
        (∃ o, d.op? 21 = some o ∧ o.owner = 17) ∧ ∃ o, d.op? 22 = some o ∧ o.kind = .branch ∧ o.owner = 21 := by
      decide +kernel
    have inside : InLoop d 6 := ⟨6, lp, hl, loop, .refl⟩
    exact ⟨d, d', o, hd, h, ho, kind, (((inside.owned hbody own).owned hblock own').owned hp own'').owned ho own₃⟩
  · obtain ⟨d, hd, rs, d', h, ⟨⟩, t, ht, valid, ⟨q, hq, r, hr, branch, target⟩, ⟨o, ho, exits⟩, y, hy, l, hl,
      early⟩ :
        ∃ d, runAll slowestCommands { name := "x" } = some d ∧ ∃ rs d', (balance {}).run d = .ok (.ok rs, d') ∧
        ∃ u t, (compute d' 21 .zero).run .relative = .ok (.ok u, t) ∧ (∀ x ∈ d.exits, x.latency.Valid) ∧
        (∃ o, d.op? 21 = some o ∧ ∃ r ∈ rs, r.branch = 21 ∧ r.action.target? 21 o = some 21) ∧
        (∃ o, d'.op? 21 = some o ∧ o.exits = [16]) ∧ ∃ y, d'.exit? 16 = some y ∧
        ∃ l, t.input? y.peer = some l ∧ l.min.toInt < 1 := by
      decide +kernel
    have selects : Selects d rs 21 := ⟨r, hr, q, branch ▸ hq, branch ▸ target⟩
    exact ⟨d, d', rs, t, o, 16, y, l, hd, valid, h, selects, ht, ho, exits, hy, hl, early⟩

end Datapath.Branch
