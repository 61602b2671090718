import Datapath.Proofs.Steps

/-!
# What the balancer walks through

`Does` follows a walk that ends well through the designs that it leaves behind, and `Rests` is a walk that
finds nothing left to do. Both speak of one job at a time: an operation to visit, a list of them, or
a module to open.
-/

namespace Datapath.Branch

open List

inductive Job where
  | visit (op : OpId) (inLoop : Bool)
  | all (ops : List OpId) (inLoop : Bool)
  | contents (op : OpId) (inLoop : Bool)

def Job.inLoop : Job → Bool
  | visit _ inLoop | all _ inLoop | contents _ inLoop => inLoop

def leave (d : Design) (o : Operation) (ls : List Latency) : List Latency :=
  Latency.latest (if hasDelayedChild d o then ls ++ [.one] else ls)

inductive Role where
  | leaf
  | module
  | idle
  | call
  | fork
deriving DecidableEq

def role (o : Operation) (inLoop : Bool) : Role :=
  match o.kind with
  | .branch => if inLoop then .fork else .module
  | .taskCall => if o.body = absent then .idle else .call
  | k => if k.isModule then .module else .leaf

def middle (o : Operation) : List OpId := o.children.filter fun c => !([o.trueSide, o.falseSide].contains c)

def Action.target? (op : OpId) (o : Operation) : Action → Option OpId
  | balanced => none
  | delayTrue => some o.trueSide
  | delayFalse => some o.falseSide
  | delayBranch => some op

def Acts (mod : Option OpId) (d d' : Design) : Prop :=
  match mod with
  | none => d' = d
  | some m => (delay m).run d = .ok (.ok (), d')

def report (op : OpId) (ts fs ls : List Latency) : Record where
  branch := op
  trueSide := ts
  falseSide := fs
  action := judge ts fs
  latencies := if judge ts fs == .balanced then ls ++ ts ++ fs else ls ++ ts ++ fs ++ [.one]

inductive Does : Nat → Job → Design → List Latency → List Record → Design → Prop where
  | nil {n il d} : Does n (.all [] il) d [] [] d
  | cons {n c cs il d e d' ls ls' rs rs'} (head : Does n (.visit c il) d ls rs e)
      (tail : Does n (.all cs il) e ls' rs' d') : Does n (.all (c :: cs) il) d (ls ++ ls') (rs ++ rs') d'
  | contents {n op o il d ls rs d'} (ho : at? d.ops op = some o) (inner : Does n (.all o.children il) d ls rs d') :
      Does n (.contents op il) d (leave d' o ls) rs d'
  | leaf {n op o il d} (ho : at? d.ops op = some o) (hr : role o il = .leaf)
      (hs : (o.kind.isHardware || o.kind == .invalid) = false) :
      Does (n + 1) (.visit op il) d ((d.exitsOf o).map Exit.latency) [] d
  | plain {n op o il d ls rs d'} (ho : at? d.ops op = some o) (hr : role o il = .module)
      (inner : Does n (.contents op (il || o.kind == .loop)) d ls rs d') : Does (n + 1) (.visit op il) d ls rs d'
  | idle {n op o il d ls rs d'} (ho : at? d.ops op = some o) (hr : role o il = .idle)
      (own : Does n (.all o.children il) d ls rs d') : Does (n + 1) (.visit op il) d (leave d' o ls) rs d'
  | call {n op o il d e d' ls ls' rs rs'} (ho : at? d.ops op = some o) (hr : role o il = .call)
      (own : Does n (.all o.children il) d ls rs e) (called : Does n (.contents o.body il) e ls' rs' d') :
      Does (n + 1) (.visit op il) d (leave d' o (ls ++ ls')) (rs ++ rs') d'
  | fork {n op o d d₁ d₂ d₃ d' ts fs ls rs₁ rs₂ rs₃} (ho : at? d.ops op = some o) (hr : role o true = .fork)
      (trueSide : Does n (.contents o.trueSide true) d ts rs₁ d₁)
      (falseSide : Does n (.contents o.falseSide true) d₁ fs rs₂ d₂)
        (rest : Does n (.all (middle o) true) d₂ ls rs₃ d₃)
      (acts : Acts ((judge ts fs).target? op o) d₃ d') :
      Does (n + 1) (.visit op true) d (leave d' o (report op ts fs ls).latencies)
        (rs₁ ++ rs₂ ++ rs₃ ++ [report op ts fs ls]) d'

inductive Rests (d : Design) : Nat → Job → List Latency → List Record → Prop where
  | nil {n il} : Rests d n (.all [] il) [] []
  | cons {n c cs il ls ls' rs rs'} (head : Rests d n (.visit c il) ls rs) (tail : Rests d n (.all cs il) ls' rs') :
      Rests d n (.all (c :: cs) il) (ls ++ ls') (rs ++ rs')
  | contents {n op o il ls rs} (ho : at? d.ops op = some o) (inner : Rests d n (.all o.children il) ls rs) :
      Rests d n (.contents op il) (leave d o ls) rs
  | leaf {n op o il} (ho : at? d.ops op = some o) (hr : role o il = .leaf)
      (hs : (o.kind.isHardware || o.kind == .invalid) = false) :
      Rests d (n + 1) (.visit op il) ((d.exitsOf o).map Exit.latency) []
  | plain {n op o il ls rs} (ho : at? d.ops op = some o) (hr : role o il = .module)
      (inner : Rests d n (.contents op (il || o.kind == .loop)) ls rs) : Rests d (n + 1) (.visit op il) ls rs
  | idle {n op o il ls rs} (ho : at? d.ops op = some o) (hr : role o il = .idle)
      (own : Rests d n (.all o.children il) ls rs) : Rests d (n + 1) (.visit op il) (leave d o ls) rs
  | call {n op o il ls ls' rs rs'} (ho : at? d.ops op = some o) (hr : role o il = .call)
      (own : Rests d n (.all o.children il) ls rs) (called : Rests d n (.contents o.body il) ls' rs') :
      Rests d (n + 1) (.visit op il) (leave d o (ls ++ ls')) (rs ++ rs')
  | fork {n op o ts fs ls rs₁ rs₂ rs₃} (ho : at? d.ops op = some o) (hr : role o true = .fork)
      (trueSide : Rests d n (.contents o.trueSide true) ts rs₁)
      (falseSide : Rests d n (.contents o.falseSide true) fs rs₂) (rest : Rests d n (.all (middle o) true) ls rs₃)
      (acts : Acts ((judge ts fs).target? op o) d d) :
      Rests d (n + 1) (.visit op true) (leave d o (report op ts fs ls).latencies)
        (rs₁ ++ rs₂ ++ rs₃ ++ [report op ts fs ls])

variable {d d' : Design}

theorem role_of_module (hm : o.kind.isModule = true) (ht : o.kind ≠ .taskCall) (hb : o.kind ≠ .branch) :
    role o il = .module := by
  unfold role
  split
  · contradiction
  · contradiction
  · rw [if_pos hm]

theorem role_of_not_module (hm : ¬ o.kind.isModule = true) : role o il = .leaf := by
  unfold role
  split
  next hk => rw [hk] at hm; exact absurd rfl hm
  next hk => rw [hk] at hm; exact absurd rfl hm
  next => rw [if_neg hm]

theorem role_leaf (h : role o il = .leaf) : o.kind.isModule = false := by
  unfold role at h
  split at h
  next => split at h <;> cases h
  next => split at h <;> cases h
  next =>
    split at h
    · cases h
    · next hm => exact Bool.eq_false_iff.mpr hm

theorem role_module (h : role o il = .module) :
    o.kind.isModule = true ∧ o.kind ≠ .taskCall ∧ (o.kind = .branch → il = false) := by
  unfold role at h
  split at h
  next hk =>
    rw [hk]
    cases il with
    | false => exact ⟨rfl, nofun, fun _ => rfl⟩
    | true => cases h
  next => split at h <;> cases h
  next hb ht =>
    split at h
    · next hm => exact ⟨hm, ht, fun e => absurd e hb⟩
    · cases h

theorem role_idle (h : role o il = .idle) : o.kind = .taskCall ∧ o.body = absent := by
  unfold role at h
  split at h
  next => split at h <;> cases h
  next hk =>
    split at h
    · next hb => exact ⟨hk, hb⟩
    · cases h
  next => split at h <;> cases h

theorem role_call (h : role o il = .call) : o.kind = .taskCall ∧ o.body ≠ absent := by
  unfold role at h
  split at h
  next => split at h <;> cases h
  next hk =>
    split at h
    · cases h
    · next hb => exact ⟨hk, hb⟩
  next => split at h <;> cases h

theorem role_fork (h : role o il = .fork) : o.kind = .branch := by
  unfold role at h
  split at h
  next hk => exact hk
  next => split at h <;> cases h
  next => split at h <;> cases h

/-! ## Walks that end well -/

section
variable {α β : Type}

theorem walk_bind_ok {w : Walk α} {f : α → Walk β} {b : β} : ((w >>= f).run r).run d = .ok (.ok (b, r'), d') ↔
      ∃ a q e, (w.run r).run d = .ok (.ok (a, q), e) ∧ ((f a).run q).run e = .ok (.ok (b, r'), d') := by
  change ((w.run r >>= fun p => (f p.1).run p.2) : Pass (β × List Record)).run d = _ ↔ _
  rw [step_bind_ok]
  constructor
  · rintro ⟨⟨a, q⟩, e, h, h'⟩
    exact ⟨a, q, e, h, h'⟩
  · rintro ⟨a, q, e, h, h'⟩
    exact ⟨(a, q), e, h, h'⟩

theorem walk_pure_ok {a b : α} :
    ((pure a : Walk α).run r).run d = .ok (.ok (b, r'), d') ↔ b = a ∧ r' = r ∧ d' = d := by
  constructor
  · intro h
    cases h
    exact ⟨rfl, rfl, rfl⟩
  · rintro ⟨rfl, rfl, rfl⟩
    rfl

theorem walk_lift_ok {p : Pass α} {a : α} :
    ((liftM p : Walk α).run r).run d = .ok (.ok (a, r'), d') ↔ p.run d = .ok (.ok a, d') ∧ r' = r := by
  change ((p >>= fun a => pure (a, r)) : Pass (α × List Record)).run d = _ ↔ _
  rw [step_bind_ok]
  constructor
  · rintro ⟨b, e, h, h'⟩
    cases step_pure_ok.mp h' with
    | intro h1 h2 =>
      cases h1
      cases h2
      exact ⟨h, rfl⟩
  · rintro ⟨h, rfl⟩
    exact ⟨a, d', h, rfl⟩

theorem walk_look_ok {q : Design → Except Fault α} {f : α → Walk β} {b : β} :
    ((liftM (Pass.look q) >>= f).run r).run d = .ok (.ok (b, r'), d') ↔
      ∃ a, q d = .ok a ∧ ((f a).run r).run d = .ok (.ok (b, r'), d') := by
  rw [walk_bind_ok]
  constructor
  · rintro ⟨a, _, _, h, h'⟩
    obtain ⟨hp, rfl⟩ := walk_lift_ok.mp h
    obtain ⟨hq, rfl⟩ := look_ok.mp hp
    exact ⟨a, hq, h'⟩
  · rintro ⟨a, h, h'⟩
    exact ⟨a, r, d, walk_lift_ok.mpr ⟨look_ok.mpr ⟨h, rfl⟩, rfl⟩, h'⟩

end

structure SameOps (d d' : Design) : Prop where
  ops : d'.ops = d.ops
  tasks : d'.tasks = d.tasks

theorem sameOps_chains : Chains SameOps :=
  ⟨fun _ => ⟨rfl, rfl⟩, fun h h' => ⟨h'.ops.trans h.ops, h'.tasks.trans h.tasks⟩⟩

theorem sameOps_addDependency : Along SameOps (addDependency entry kind source target clocks) := by
  constructor
  intro d id d' h
  obtain ⟨-, -, e, p, b, -, -, -, -, rfl⟩ := addDependency_ok h
  exact ⟨rfl, rfl⟩

theorem Acts.sameOps (h : Acts mod d d') : SameOps d d' := by
  cases mod with
  | none => rw [show d' = d from h]; exact sameOps_chains.refl d
  | some m => exact ((Balances.mk sameOps_chains sameOps_addDependency).delay m).run h

theorem Does.sameOps (h : Does n j d ls rs d') : SameOps d d' := by
  induction h with
  | nil | leaf => exact sameOps_chains.refl _
  | cons _ _ ih1 ih2 => exact sameOps_chains.trans ih1 ih2
  | contents _ _ ih | plain _ _ _ ih | idle _ _ _ ih => exact ih
  | call _ _ _ _ ih1 ih2 => exact sameOps_chains.trans ih1 ih2
  | fork _ _ _ _ _ acts ih1 ih2 ih3 =>
    exact sameOps_chains.trans (sameOps_chains.trans (sameOps_chains.trans ih1 ih2) ih3) acts.sameOps

section

theorem leaving_ok (h : ((leaving op ls).run r).run d = .ok (.ok (ls', r'), d')) :
    ∃ o, at? d.ops op = some o ∧ ls' = leave d o ls ∧ r' = r ∧ d' = d := by
  obtain ⟨late, hl, h⟩ := walk_look_ok.mp h
  cases h
  obtain ⟨o, ho, hl⟩ := bind_ok.mp hl
  cases hl
  exact ⟨o, op_ok ho, rfl, rfl, rfl⟩

def Follows (n : Nat) : Prop := ∀ {op il r d ls r' d'}, ((visit n op il).run r).run d = .ok (.ok (ls, r'), d') →
  ∃ rs, r' = r ++ rs ∧ Does n (.visit op il) d ls rs d'

variable (ih : Follows n)
include ih

theorem all_ok (h : ((cs.mapM (visit n · il)).run r).run d = .ok (.ok (parts, r'), d')) :
    ∃ rs, r' = r ++ rs ∧ Does n (.all cs il) d parts.flatten rs d' := by
  induction cs generalizing parts r d with
  | nil =>
    cases h
    exact ⟨[], by simp, .nil⟩
  | cons c cs hcs =>
    rw [mapM_cons] at h
    obtain ⟨ls, _, _, h1, h⟩ := walk_bind_ok.mp h
    obtain ⟨lss, _, _, h2, h⟩ := walk_bind_ok.mp h
    cases h
    obtain ⟨rs, rfl, head⟩ := ih h1
    obtain ⟨rs', rfl, tail⟩ := hcs h2
    exact ⟨rs ++ rs', append_assoc .., .cons head tail⟩

theorem children_ok (h : ((children (visit n) op il skip).run r).run d = .ok (.ok (ls, r'), d')) :
    ∃ o rs, at? d.ops op = some o ∧ r' = r ++ rs ∧
      Does n (.all (o.children.filter fun c => !skip.contains c) il) d ls rs d' := by
  obtain ⟨o, ho, h⟩ := walk_look_ok.mp h
  obtain ⟨parts, _, _, h1, h⟩ := walk_bind_ok.mp h
  cases h
  obtain ⟨rs, hrs, inner⟩ := all_ok ih h1
  exact ⟨o, rs, op_ok ho, hrs, inner⟩

theorem own_ok (h : ((children (visit n) op il []).run r).run d = .ok (.ok (ls, r'), d')) :
    ∃ o rs, at? d.ops op = some o ∧ r' = r ++ rs ∧ Does n (.all o.children il) d ls rs d' := by
  obtain ⟨o, rs, ho, hr, inner⟩ := children_ok ih h
  have all : (o.children.filter fun c => !([] : List OpId).contains c) = o.children :=
    filter_eq_self.mpr fun _ _ => rfl
  exact ⟨o, rs, ho, hr, all ▸ inner⟩

theorem contents_ok (h : ((contents (visit n) op il).run r).run d = .ok (.ok (ls, r'), d')) :
    ∃ rs, r' = r ++ rs ∧ Does n (.contents op il) d ls rs d' := by
  obtain ⟨ls1, _, _, h1, h⟩ := walk_bind_ok.mp h
  obtain ⟨o, rs, ho, rfl, inner⟩ := own_ok ih h1
  obtain ⟨o', ho', rfl, rfl, rfl⟩ := leaving_ok h
  rw [inner.sameOps.ops, ho] at ho'
  cases ho'
  exact ⟨rs, rfl, .contents ho inner⟩

theorem taskCall_ok (ho : at? d.ops op = some o) (hk : o.kind = .taskCall)
    (h : ((taskCall (visit n) op il).run r).run d = .ok (.ok (ls, r'), d')) :
    ∃ rs, r' = r ++ rs ∧ Does (n + 1) (.visit op il) d ls rs d' := by
  obtain ⟨ls1, _, _, h1, h⟩ := walk_bind_ok.mp h
  obtain ⟨o1, rs, ho1, rfl, own⟩ := own_ok ih h1
  obtain ⟨o2, ho2, h⟩ := walk_look_ok.mp h
  have ho2 := op_ok ho2
  rw [own.sameOps.ops, ho] at ho2
  cases ho2
  rw [ho] at ho1
  cases ho1
  by_cases hb : o.body = absent
  · simp only [hb, beq_self_eq_true, pure_bind, append_nil] at h
    obtain ⟨o3, ho3, rfl, rfl, rfl⟩ := leaving_ok h
    rw [own.sameOps.ops, ho] at ho3
    cases ho3
    exact ⟨rs, rfl, .idle ho (by simp [role, hk, hb]) own⟩
  · simp only [beq_eq_false_iff_ne.mpr hb, Bool.false_eq_true] at h
    obtain ⟨ls2, _, _, h2, h⟩ := walk_bind_ok.mp h
    obtain ⟨o3, ho3, rfl, rfl, rfl⟩ := leaving_ok h
    obtain ⟨rs', rfl, called⟩ := contents_ok ih h2
    rw [called.sameOps.ops, own.sameOps.ops, ho] at ho3
    cases ho3
    exact ⟨rs ++ rs', append_assoc .., .call ho (by simp [role, hk, hb]) own called⟩

theorem branch_ok (ho : at? d.ops op = some o) (hk : o.kind = .branch)
    (h : ((branch (visit n) op il).run r).run d = .ok (.ok (ls, r'), d')) :
    ∃ rs, r' = r ++ rs ∧ Does (n + 1) (.visit op il) d ls rs d' := by
  cases il with
  | false =>
    obtain ⟨rs, hr, inner⟩ := contents_ok ih (show ((contents (visit n) op false).run r).run d = _ from h)
    refine ⟨rs, hr, .plain ho (by simp [role, hk]) ?_⟩
    rw [hk]
    exact inner
  | true =>
    obtain ⟨o1, ho1, h⟩ := walk_look_ok.mp h
    have ho1 := op_ok ho1
    rw [ho] at ho1
    cases ho1
    obtain ⟨ts, _, _, h1, h⟩ := walk_bind_ok.mp h
    obtain ⟨rs1, rfl, trueSide⟩ := contents_ok ih h1
    obtain ⟨fs, _, _, h2, h⟩ := walk_bind_ok.mp h
    obtain ⟨rs2, rfl, falseSide⟩ := contents_ok ih h2
    obtain ⟨ls3, _, d3, h3, h⟩ := walk_bind_ok.mp h
    obtain ⟨o3, rs3, ho3, rfl, rest⟩ := children_ok ih h3
    rw [falseSide.sameOps.ops, trueSide.sameOps.ops, ho] at ho3
    cases ho3
    have acts : ∃ q e, Acts ((judge ts fs).target? op o) d3 e ∧ q = r ++ rs1 ++ rs2 ++ rs3 ∧
        ((do modify (· ++ [report op ts fs ls3]); leaving op (report op ts fs ls3).latencies : Walk
        (List Latency)).run
          q).run e = .ok (.ok (ls, r'), d') := by
      cases ha : judge ts fs with
      | balanced =>
        exact ⟨_, _, rfl, rfl, by simpa only [report, ha] using h⟩
      | delayTrue | delayFalse | delayBranch =>
        simp only [ha] at h
        obtain ⟨_, _, _, h4, h⟩ := walk_bind_ok.mp h
        obtain ⟨hp, rfl⟩ := walk_lift_ok.mp h4
        exact ⟨_, _, hp, rfl, by simpa only [report, ha] using h⟩
    obtain ⟨_, e, acts, rfl, h⟩ := acts
    obtain ⟨_, _, _, h4, h⟩ := walk_bind_ok.mp h
    cases h4
    obtain ⟨o4, ho4, rfl, rfl, rfl⟩ := leaving_ok h
    rw [acts.sameOps.ops, rest.sameOps.ops, falseSide.sameOps.ops, trueSide.sameOps.ops, ho] at ho4
    cases ho4
    exact ⟨_, by simp only [append_assoc], .fork ho (by simp [role, hk]) trueSide falseSide rest acts⟩

end

theorem visit_ok (n : Nat) : Follows n := by
  induction n with
  | zero =>
    intro op il r d ls r' d' h
    cases h
  | succ n ih =>
    intro op il r d ls r' d' h
    obtain ⟨o, ho, h⟩ := walk_look_ok.mp h
    have ho := op_ok ho
    have plain : o.kind.isModule = true → o.kind ≠ .taskCall → o.kind ≠ .branch →
        ((contents (visit n) op (il || o.kind == .loop)).run r).run d = .ok (.ok (ls, r'), d') →
        ∃ rs, r' = r ++ rs ∧ Does (n + 1) (.visit op il) d ls rs d' := by
      intro hm ht hb h
      obtain ⟨rs, hr, inner⟩ := contents_ok ih h
      exact ⟨rs, hr, .plain ho (role_of_module hm ht hb) inner⟩
    split at h
    case h_1 hk => exact plain (by rw [hk]; rfl) (by rw [hk]; decide) (by rw [hk]; decide) (by simpa [hk] using h)
    case h_2 hk => exact branch_ok ih ho hk h
    case h_3 hk => exact taskCall_ok ih ho hk h
    case h_4 k hl hb ht =>
      by_cases hm : o.kind.isModule = true
      · rw [if_pos hm] at h
        refine plain hm ht hb ?_
        have : (o.kind == .loop) = false := beq_eq_false_iff_ne.mpr hl
        rw [this, Bool.or_false]
        exact h
      · rw [if_neg hm] at h
        split at h
        next =>
          obtain ⟨_, -, h⟩ := walk_look_ok.mp h
          cases h
        next hs =>
          obtain ⟨hp, rfl⟩ := walk_lift_ok.mp h
          obtain ⟨hq, rfl⟩ := look_ok.mp hp
          cases hq
          exact ⟨[], by simp, .leaf ho (role_of_not_module hm) (Bool.eq_false_iff.mpr hs)⟩

/-! ## Walks that rest -/

def Job.Runs (d : Design) (n : Nat) (ls : List Latency) (rs : List Record) : Job → Prop
  | visit op il => ∀ r, ((Branch.visit n op il).run r).run d = .ok (.ok (ls, r ++ rs), d)
  | all cs il => ∃ parts, parts.flatten = ls ∧
    ∀ r, ((cs.mapM (Branch.visit n · il)).run r).run d = .ok (.ok (parts, r ++ rs), d)
  | contents op il => ∀ r, ((Branch.contents (Branch.visit n) op il).run r).run d = .ok (.ok (ls, r ++ rs), d)

section
variable (ho : at? d.ops op = some o)
include ho

theorem run_leaving (r : List Record) : ((leaving op ls).run r).run d = .ok (.ok (leave d o ls, r), d) := by
  refine walk_look_ok.mpr ⟨hasDelayedChild d o, ?_, walk_pure_ok.mpr ⟨rfl, rfl, rfl⟩⟩
  exact bind_ok.mpr ⟨o, require_ok.mpr ho, rfl⟩

theorem run_children (h : (Job.all (o.children.filter fun c => !skip.contains c) il).Runs d n ls rs)
    (r : List Record) : ((children (visit n) op il skip).run r).run d = .ok (.ok (ls, r ++ rs), d) := by
  obtain ⟨parts, rfl, h⟩ := h
  refine walk_look_ok.mpr ⟨o, require_ok.mpr ho, ?_⟩
  exact walk_bind_ok.mpr ⟨parts, _, _, h r, walk_pure_ok.mpr ⟨rfl, rfl, rfl⟩⟩

theorem run_own (h : (Job.all o.children il).Runs d n ls rs) (r : List Record) :
    ((children (visit n) op il []).run r).run d = .ok (.ok (ls, r ++ rs), d) := by
  have all : (o.children.filter fun c => !([] : List OpId).contains c) = o.children :=
    filter_eq_self.mpr fun _ _ => rfl
  exact run_children ho (by rw [all]; exact h) r

theorem run_contents (h : (Job.all o.children il).Runs d n ls rs) :
    (Job.contents op il).Runs d n (leave d o ls) rs := fun r =>
  walk_bind_ok.mpr ⟨ls, _, _, run_own ho h r, run_leaving ho _⟩

theorem run_module (hr : role o il = .module)
    (h : (Job.contents op (il || o.kind == .loop)).Runs d n ls rs) : (Job.visit op il).Runs d (n + 1) ls rs := by
  intro r
  refine walk_look_ok.mpr ⟨o, require_ok.mpr ho, ?_⟩
  obtain ⟨hm, ht, hb⟩ := role_module hr
  split
  case h_1 hk => simpa [hk] using h r
  case h_2 hk =>
    cases hb hk
    rw [hk] at h
    exact h r
  case h_3 hk => exact absurd hk ht
  case h_4 hl _ _ =>
    rw [if_pos hm]
    have : (o.kind == .loop) = false := beq_eq_false_iff_ne.mpr hl
    rw [this, Bool.or_false] at h
    exact h r

theorem run_leaf (hr : role o il = .leaf) (hs : (o.kind.isHardware || o.kind == .invalid) = false) :
    (Job.visit op il).Runs d (n + 1) ((d.exitsOf o).map Exit.latency) [] := by
  intro r
  refine walk_look_ok.mpr ⟨o, require_ok.mpr ho, ?_⟩
  have hm := role_leaf hr
  split
  case h_1 hk => rw [hk] at hm; cases hm
  case h_2 hk => rw [hk] at hm; cases hm
  case h_3 hk => rw [hk] at hm; cases hm
  case h_4 =>
    simp only [hm, hs]
    exact walk_lift_ok.mpr ⟨look_ok.mpr ⟨rfl, rfl⟩, append_nil r⟩

theorem run_call (hk : o.kind = .taskCall)
    (h : ∀ r, ((taskCall (visit n) op il).run r).run d = .ok (.ok (ls, r ++ rs), d)) :
    (Job.visit op il).Runs d (n + 1) ls rs := by
  intro r
  refine walk_look_ok.mpr ⟨o, require_ok.mpr ho, ?_⟩
  rw [hk]
  exact h r

theorem run_fork (hk : o.kind = .branch) (ht : (Job.contents o.trueSide true).Runs d n ts rs1)
    (hf : (Job.contents o.falseSide true).Runs d n fs rs2) (hm : (Job.all (middle o) true).Runs d n ls rs3)
    (acts : Acts ((judge ts fs).target? op o) d d) :
    (Job.visit op true).Runs d (n + 1) (leave d o (report op ts fs ls).latencies)
      (rs1 ++ rs2 ++ rs3 ++ [report op ts fs ls]) := by
  intro r
  refine walk_look_ok.mpr ⟨o, require_ok.mpr ho, ?_⟩
  rw [hk]
  refine walk_look_ok.mpr ⟨o, require_ok.mpr ho, ?_⟩
  refine walk_bind_ok.mpr ⟨ts, _, _, ht r, walk_bind_ok.mpr ⟨fs, _, _, hf _, ?_⟩⟩
  refine walk_bind_ok.mpr ⟨ls, _, _, run_children ho hm _, ?_⟩
  -- noting the branch and leaving it
  have tail : ∀ q, ((do modify (· ++ [report op ts fs ls]); leaving op (report op ts fs ls).latencies :
      Walk (List Latency)).run q).run d =
        .ok (.ok (leave d o (report op ts fs ls).latencies, q ++ [report op ts fs ls]), d) := fun q =>
    walk_bind_ok.mpr ⟨⟨⟩, _, _, rfl, run_leaving ho _⟩
  cases ha : judge ts fs with
  | balanced => simpa [report, ha] using tail (r ++ rs1 ++ rs2 ++ rs3)
  | delayTrue | delayFalse | delayBranch =>
    rw [ha] at acts
    refine walk_bind_ok.mpr ⟨⟨⟩, _, _, walk_lift_ok.mpr ⟨acts, rfl⟩, ?_⟩
    simpa [report, ha] using tail (r ++ rs1 ++ rs2 ++ rs3)

end

theorem Rests.runs (h : Rests d n j ls rs) : j.Runs d n ls rs := by
  induction h with
  | nil =>
    refine ⟨[], rfl, fun r => ?_⟩
    exact walk_pure_ok.mpr ⟨rfl, append_nil r, rfl⟩
  | cons _ _ ih1 ih2 =>
    obtain ⟨parts, rfl, ih2⟩ := ih2
    refine ⟨_ :: parts, rfl, fun r => ?_⟩
    rw [mapM_cons, ← append_assoc]
    refine walk_bind_ok.mpr ⟨_, _, _, ih1 r, walk_bind_ok.mpr ⟨parts, _, _, ih2 _, ?_⟩⟩
    exact walk_pure_ok.mpr ⟨rfl, rfl, rfl⟩
  | contents ho _ ih => exact run_contents ho ih
  | leaf ho hr hs => exact run_leaf ho hr hs
  | plain ho hr _ ih => exact run_module ho hr ih
  | idle ho hr _ ih =>
    obtain ⟨hk, hb⟩ := role_idle hr
    refine run_call ho hk fun r => walk_bind_ok.mpr ⟨_, _, _, run_own ho ih r, ?_⟩
    refine walk_look_ok.mpr ⟨_, require_ok.mpr ho, ?_⟩
    simp only [hb, beq_self_eq_true, pure_bind, append_nil]
    exact run_leaving ho _
  | call ho hr _ _ ih1 ih2 =>
    obtain ⟨hk, hb⟩ := role_call hr
    refine run_call ho hk fun r => walk_bind_ok.mpr ⟨_, _, _, run_own ho ih1 r, ?_⟩
    refine walk_look_ok.mpr ⟨_, require_ok.mpr ho, ?_⟩
    simp only [beq_eq_false_iff_ne.mpr hb, Bool.false_eq_true]
    rw [← append_assoc]
    exact walk_bind_ok.mpr ⟨_, _, _, ih2 _, run_leaving ho _⟩
  | fork ho hr _ _ _ acts ih1 ih2 ih3 => exact run_fork ho (role_fork hr) ih1 ih2 ih3 acts

/-! ### One answer -/

theorem Rests.unique (h : Rests d n j ls rs) (h' : Rests d m j ls' rs') : ls' = ls ∧ rs' = rs := by
  induction h generalizing m ls' rs' with
  | nil =>
    cases h'
    exact ⟨rfl, rfl⟩
  | cons _ _ ih1 ih2 =>
    cases h' with
    | cons head tail =>
      obtain ⟨rfl, rfl⟩ := ih1 head
      obtain ⟨rfl, rfl⟩ := ih2 tail
      exact ⟨rfl, rfl⟩
  | contents ho _ ih =>
    cases h' with
    | contents ho' inner =>
      cases ho.symm.trans ho'
      obtain ⟨rfl, rfl⟩ := ih inner
      exact ⟨rfl, rfl⟩
  | leaf ho hr _ =>
    cases h' with
    | leaf ho' =>
      cases ho.symm.trans ho'
      exact ⟨rfl, rfl⟩
    | plain ho' hr' | idle ho' hr' | call ho' hr' | fork ho' hr' =>
      cases ho.symm.trans ho'
      cases hr.symm.trans hr'
  | plain ho hr _ ih =>
    cases h' with
    | plain ho' _ inner =>
      cases ho.symm.trans ho'
      exact ih inner
    | leaf ho' hr' | idle ho' hr' | call ho' hr' | fork ho' hr' =>
      cases ho.symm.trans ho'
      cases hr.symm.trans hr'
  | idle ho hr _ ih =>
    cases h' with
    | idle ho' _ own =>
      cases ho.symm.trans ho'
      obtain ⟨rfl, rfl⟩ := ih own
      exact ⟨rfl, rfl⟩
    | leaf ho' hr' | plain ho' hr' | call ho' hr' | fork ho' hr' =>
      cases ho.symm.trans ho'
      cases hr.symm.trans hr'
  | call ho hr _ _ ih1 ih2 =>
    cases h' with
    | call ho' _ own called =>
      cases ho.symm.trans ho'
      obtain ⟨rfl, rfl⟩ := ih1 own
      obtain ⟨rfl, rfl⟩ := ih2 called
      exact ⟨rfl, rfl⟩
    | leaf ho' hr' | plain ho' hr' | idle ho' hr' | fork ho' hr' =>
      cases ho.symm.trans ho'
      cases hr.symm.trans hr'
  | fork ho hr _ _ _ _ ih1 ih2 ih3 =>
    cases h' with
    | fork ho' _ trueSide falseSide rest _ =>
      cases ho.symm.trans ho'
      obtain ⟨rfl, rfl⟩ := ih1 trueSide
      obtain ⟨rfl, rfl⟩ := ih2 falseSide
      obtain ⟨rfl, rfl⟩ := ih3 rest
      exact ⟨rfl, rfl⟩
    | leaf ho' hr' | plain ho' hr' | idle ho' hr' | call ho' hr' =>
      cases ho.symm.trans ho'
      cases hr.symm.trans hr'

theorem Rests.reported (h : Rests d n j ls rs) (hr : r ∈ rs) :
    ∃ k ls' rs', Rests d k (.visit r.branch true) ls' rs' ∧ rs'.length ≤ rs.length := by
  have longer : ∀ {as bs : List Record}, as.length ≤ bs.length →
      (∃ k ls' rs', Rests d k (.visit r.branch true) ls' rs' ∧ rs'.length ≤ as.length) →
      ∃ k ls' rs', Rests d k (.visit r.branch true) ls' rs' ∧ rs'.length ≤ bs.length :=
    fun le ⟨k, ls', rs', h, le'⟩ => ⟨k, ls', rs', h, Nat.le_trans le' le⟩
  induction h with
  | nil | leaf => cases hr
  | cons _ _ ih1 ih2 | call _ _ _ _ ih1 ih2 =>
    rcases mem_append.mp hr with hr | hr
    · exact longer (by simp) (ih1 hr)
    · exact longer (by simp) (ih2 hr)
  | contents _ _ ih | plain _ _ _ ih | idle _ _ _ ih => exact ih hr
  | fork ho hk trueSide falseSide rest acts ih1 ih2 ih3 =>
    simp only [mem_append, mem_singleton] at hr
    rcases hr with ((hr | hr) | hr) | rfl
    · exact longer (by simp only [length_append]; omega) (ih1 hr)
    · exact longer (by simp only [length_append]; omega) (ih2 hr)
    · exact longer (by simp only [length_append]; omega) (ih3 hr)
    · exact ⟨_, _, _, .fork ho hk trueSide falseSide rest acts, Nat.le_refl _⟩

end Datapath.Branch
