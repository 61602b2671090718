import Datapath.Proofs.Degrees
import Datapath.Proofs.WellFormed

/-!
# What runs inside a module

Operations run inside a module if the module owns them, or a module inside it does. Calls of tasks
are left out: what they own runs in another task. The schedule order of a module is an order of all
that it owns.
-/

namespace Datapath

open List

variable {d : Design}

inductive Nested (d : Design) (mod : OpId) : OpId → Prop where
  | child {m : Operation} {c : OpId} (hm : d.op? mod = some m) (hc : c ∈ m.children) : Nested d mod c
  | deeper {k c : OpId} {o : Operation} (h : Nested d mod k) (ho : d.op? k = some o)
      (hk : o.kind.isInlineModule = true) (hc : c ∈ o.children) : Nested d mod c

section
variable (hd : WellFormed d)
include hd

theorem WellFormed.child (hm : d.op? m = some o) (hc : c ∈ o.children) : ∃ k, d.op? c = some k ∧ k.owner = m := by
  obtain ⟨k, hk, hh⟩ := hd.nesting.children.holds hm c hc
  exact ⟨k, hk, Operation.holder?_eq_some hh⟩

theorem WellFormed.children_nodup (hm : d.op? m = some o) : o.children.Nodup :=
  hd.nesting.children.nodup (view_of _ hm)

theorem WellFormed.mem_children (hc : d.op? c = some o) (hne : o.owner ≠ absent) :
    ∃ p, d.op? o.owner = some p ∧ c ∈ p.children :=
  hd.nesting.children.held hc (if_neg hne)

theorem WellFormed.accessed (hc : d.op? c = some o) (named : o.resource ≠ absent) :
    ∃ r, at? d.resources o.resource = some r :=
  (hd.accesses.held hc (if_neg named)).imp fun _ => And.left

theorem Nested.exists_op (h : Nested d mod c) : ∃ o, d.op? c = some o := by
  cases h with
  | child hm hc => exact (hd.child hm hc).imp fun _ => And.left
  | deeper _ ho _ hc => exact (hd.child ho hc).imp fun _ => And.left

theorem Nested.owner (h : Nested d mod c) (hc : d.op? c = some o) :
    o.owner = mod ∨ Nested d mod o.owner ∧ ∃ p, d.op? o.owner = some p ∧ p.kind.isInlineModule = true := by
  cases h with
  | child hm hm' =>
    obtain ⟨k, hk, hown⟩ := hd.child hm hm'
    rw [hc] at hk; cases hk
    exact .inl hown
  | @deeper p _ q hp hq hi hm' =>
    obtain ⟨k, hk, hown⟩ := hd.child hq hm'
    rw [hc] at hk; cases hk
    rw [hown]
    exact .inr ⟨hp, q, hq, hi⟩

theorem Nested.sibling (h : Nested d mod k) (hk : d.op? k = some p)
    (hc : d.op? c = some o) (hown : o.owner = p.owner) (hne : o.owner ≠ absent) : Nested d mod c := by
  obtain ⟨q, hq, hmem⟩ := hd.mem_children hc hne
  rw [hown] at hq
  rcases h.owner hd hk with e | ⟨hn, q', hq', hi⟩
  · exact .child (e ▸ hq) hmem
  · rw [hq] at hq'; cases hq'
    exact .deeper hn hq hi hmem

theorem Nested.lt (h : Nested d mod c) : mod < c := by
  induction h with
  | child hm hc =>
    obtain ⟨k, hk, hown⟩ := hd.child hm hc
    have := hd.nesting.older hk
    exact hown ▸ this
  | deeper _ ho _ hc ih =>
    obtain ⟨k, hk, hown⟩ := hd.child ho hc
    have := hd.nesting.older hk
    exact Int.lt_trans ih (hown ▸ this)

end

theorem Nested.trans (h : Nested d mod m) (hm : d.op? m = some o) (hi : o.kind.isInlineModule = true)
    (h' : Nested d m c) : Nested d mod c := by
  induction h' with
  | child hm' hc =>
    rw [hm] at hm'; cases hm'
    exact .deeper h hm hi hc
  | deeper _ ho hk hc ih => exact .deeper ih ho hk hc

theorem Nested.not_sibling (hd : WellFormed d) (hm : d.op? m = some o) (hk : k ∈ o.children)
    (hc : c ∈ o.children) : ¬ Nested d k c := by
  intro h
  obtain ⟨a, ha, hao⟩ := hd.child hm hk
  obtain ⟨b, hb, hbo⟩ := hd.child hm hc
  have hlt : m < k := hao ▸ hd.nesting.older ha
  rcases h.owner hd hb with e | ⟨h', -⟩
  · rw [hbo] at e; exact absurd hlt (by rw [e]; exact Int.lt_irrefl k)
  · rw [hbo] at h'; exact absurd hlt (Int.not_lt.mpr (Int.le_of_lt (h'.lt hd)))

def Within (d : Design) (ids : List OpId) (c : OpId) : Prop :=
  ∃ k ∈ ids, c = k ∨ Nested d k c ∧ ∃ o, d.op? k = some o ∧ o.kind.isInlineModule = true

theorem nested_iff_within (hm : d.op? m = some o) : Nested d m c ↔ Within d o.children c := by
  constructor
  · intro h
    induction h with
    | child hm' hc =>
      rw [hm] at hm'; cases hm'
      exact ⟨_, hc, .inl rfl⟩
    | @deeper k c p _ hp hi hc ih =>
      obtain ⟨a, ha, h⟩ := ih
      rcases h with rfl | ⟨h, hin⟩
      · exact ⟨k, ha, .inr ⟨.child hp hc, p, hp, hi⟩⟩
      · exact ⟨a, ha, .inr ⟨.deeper h hp hi hc, hin⟩⟩
  · rintro ⟨k, hk, rfl | ⟨h, p, hp, hi⟩⟩
    · exact .child hm hk
    · exact (Nested.child hm hk).trans hp hi h

def Operation.inner (o : Operation) : List OpId := if o.kind.isInlineModule then o.children else []

theorem within_one (hk : d.op? k = some o) : Within d [k] c ↔ c = k ∨ Within d o.inner c := by
  unfold Operation.inner
  constructor
  · rintro ⟨a, ha, h⟩
    obtain rfl := mem_singleton.mp ha
    rcases h with h | ⟨h, p, hp, hi⟩
    · exact .inl h
    · rw [hk] at hp; cases hp
      rw [if_pos hi]
      exact .inr ((nested_iff_within hk).mp h)
  · rintro (h | h)
    · exact ⟨k, mem_singleton_self k, .inl h⟩
    · split at h
      next hi => exact ⟨k, mem_singleton_self k, .inr ⟨(nested_iff_within hk).mpr h, o, hk, hi⟩⟩
      next => obtain ⟨a, ha, -⟩ := h; cases ha

theorem within_cons : Within d (k :: ids) c ↔ Within d [k] c ∨ Within d ids c := by
  simp [Within]

theorem Within.congr (h : ∀ a, a ∈ ids ↔ a ∈ ids') : Within d ids c ↔ Within d ids' c :=
  exists_congr fun a => and_congr_left fun _ => h a

/-! ## Exits and buses -/

/-- The exits through which the ordinary flow of a module passes. -/
def FlowExit (d : Design) (mod : OpId) (x : Exit) : Prop :=
  x.tag.kind ≠ .sideband ∧ ∃ c o, Nested d mod c ∧ d.op? c = some o ∧ x ∈ d.exitsOf o

def FlowBus (d : Design) (mod : OpId) (b : BusId) : Prop := ∃ x, FlowExit d mod x ∧ b ∈ x.done :: x.buses

structure Design.Joins (d : Design) (v : Dependency) (src dst : OpId) : Prop where
  source : d.busOwner? v.source = some src
  target : ∃ p, d.port? v.target = some p ∧ p.owner = dst

section
variable {d' : Design}

theorem busOwner?_eq (b : BusId) : d.busOwner? b = (view d.buses Bus.exit b).bind (view d.exits Exit.owner) := by
  unfold Design.busOwner? view Design.bus? Design.exit?
  cases at? d.buses b with
  | none => rfl
  | some c =>
    show (at? d.exits c.exit).bind (fun x => some x.owner) = (at? d.exits c.exit).map Exit.owner
    rw [Option.map_eq_bind]
    rfl

theorem busOwner?_of_exit (hb : d.bus? b = some bus) (hx : d.exit? bus.exit = some x) :
    d.busOwner? b = some x.owner := by simp [Design.busOwner?, hb, hx]

theorem WellFormed.exitsOf (hd : WellFormed d) (hc : d.op? c = some o) (hx : x ∈ d.exitsOf o) :
    x.owner = c ∧ d.exit? x.id = some x := by
  obtain ⟨i, hi, hxi⟩ := mem_filterMap.mp hx
  obtain ⟨y, hy, hown⟩ := hd.exits.holds hc i hi
  rw [show at? d.exits i = some x from hxi] at hy; cases hy
  refine ⟨Option.some.inj hown, ?_⟩
  rw [hd.exitIds i x hxi]; exact hxi

theorem WellFormed.peer (hd : WellFormed d) (ho : d.op? c = some o) (hx : x ∈ d.exitsOf o) (ne : x.peer ≠ absent) :
    ∃ q, d.op? x.peer = some q ∧ q.kind = .outBuf ∧ q.owner = c := by
  obtain ⟨own, hx⟩ := hd.exitsOf ho hx
  obtain ⟨q, hq, place⟩ := view_some.mp (hd.outBufs hx ne)
  exact ⟨q, hq, congrArg Prod.fst place, (congrArg Prod.snd place).trans own⟩

theorem mainExit?_mem (h : d.mainExit? o = some x) : x ∈ d.exitsOf o := by
  unfold Design.mainExit? at h
  split at h
  next y hy =>
    cases h
    exact mem_of_find?_eq_some hy
  next =>
    split at h
    next y hy => cases h; rw [hy]; exact mem_singleton_self _
    next => cases h

theorem exitsOf_congr (h : d'.exits = d.exits) : d'.exitsOf = d.exitsOf := by
  unfold Design.exitsOf Design.exit?
  rw [h]

theorem mainExit?_congr (h : d'.exits = d.exits) : d'.mainExit? = d.mainExit? := by
  unfold Design.mainExit? Design.exitWith?
  rw [exitsOf_congr h]

section
variable (hd : WellFormed d)
include hd

theorem mainExit_cases {x : ExitId} (h : d.mainExit i = .ok x) : ∃ o, d.op? i = some o ∧
      (x = absent ∧ d.mainExit? o = none ∨ x ≠ absent ∧ ∃ y, d.mainExit? o = some y ∧ d.exit x = .ok y) := by
  obtain ⟨o, ho, h⟩ := bind_ok.mp h
  refine ⟨o, op_ok ho, ?_⟩
  cases hy : d.mainExit? o with
  | none =>
    rw [hy] at h
    cases h
    exact .inl ⟨rfl, rfl⟩
  | some y =>
    rw [hy] at h
    cases h
    obtain ⟨-, there⟩ := hd.exitsOf (op_ok ho) (mainExit?_mem hy)
    exact .inr ⟨ne_absent there, y, rfl, require_ok.mpr there⟩

theorem FlowExit.exit (h : FlowExit d mod x) : Nested d mod x.owner ∧ d.exit? x.id = some x := by
  obtain ⟨-, c, o, hn, hc, hx⟩ := h
  obtain ⟨rfl, he⟩ := hd.exitsOf hc hx
  exact ⟨hn, he⟩

theorem WellFormed.op_of_busOwner? (h : d.busOwner? b = some a) : ∃ o, d.op? a = some o := by
  obtain ⟨bus, hb, h⟩ := Option.bind_eq_some_iff.mp h
  obtain ⟨x, hx, h⟩ := Option.bind_eq_some_iff.mp h
  cases h
  exact (hd.exits.held hx rfl).imp fun _ => And.left

theorem WellFormed.bus_of_exit (hx : d.exit? x.id = some x)
    (hb : b ∈ x.done :: x.buses) : ∃ bus, d.bus? b = some bus ∧ bus.exit = x.id := by
  obtain ⟨bus, hbus, he⟩ := hd.buses.holds hx b hb
  exact ⟨bus, hbus, Option.some.inj he⟩

end

end

/-! ## Schedule order -/

theorem arrange_perm (h : arrange drivers n placed pending = some ids) : ids.Perm pending := by
  induction n generalizing placed pending ids with
  | zero =>
    cases pending with
    | nil => cases h; exact .refl _
    | cons c pending => cases h
  | succ n ih =>
    cases pending with
    | nil => cases h; exact .refl _
    | cons c pending =>
      simp only [arrange] at h
      split at h
      next => cases h
      next a ha =>
        obtain ⟨rest, hrest, rfl⟩ := Option.map_eq_some_iff.mp h
        exact ((ih hrest).cons a).trans (perm_cons_erase (mem_of_find?_eq_some ha)).symm

theorem arrange_after {after : List OpId} (h : arrange drivers n placed pending = some (before ++ c :: after)) :
    ∀ k ∈ drivers c, k ∈ placed ∨ k ∈ before := by
  induction n generalizing placed pending before with
  | zero => cases pending <;> simp [arrange] at h
  | succ n ih =>
    cases pending with
    | nil => simp [arrange] at h
    | cons p pending =>
      simp only [arrange] at h
      split at h
      next => cases h
      next a ha =>
        obtain ⟨rest, hrest, e⟩ := Option.map_eq_some_iff.mp h
        cases before with
        | nil =>
          cases e
          simpa using find?_some ha
        | cons b before =>
          cases e
          intro k hk
          rcases ih hrest k hk with placed | hk
          · rcases mem_cons.mp placed with rfl | placed
            · exact .inr mem_cons_self
            · exact .inl placed
          · exact .inr (mem_cons_of_mem _ hk)

theorem orderBy_run (sort : Sorter) (hm : d.op? mod = some m) :
    (d.orderBy sort mod).run = match sort (d.graph mod m.children) with
      | .error groups => (d.reject mod (.cycle groups) : Query (List OpId)).run
      | .ok _ => ((Placement.start (d.graph mod m.children)).run (d.graph mod m.children) m.children
          m.children.length).map .ok := by
  unfold Design.orderBy
  rw [show d.op mod = .ok m from require_ok.mpr hm]
  show (match sort (d.graph mod m.children) with
    | .error groups => d.reject mod (.cycle groups)
    | .ok _ => liftM ((Placement.start (d.graph mod m.children)).run (d.graph mod m.children) m.children
        m.children.length) : Query (List OpId)).run = _
  cases sort (d.graph mod m.children) <;> rfl

theorem orderBy_ok_iff : (d.orderBy sort mod).run = .ok (.ok ids) ↔ ∃ m, d.op? mod = some m ∧
    (∃ l, sort (d.graph mod m.children) = .ok l) ∧ m.children.Nodup ∧
    arrange (d.drivers mod) m.children.length [] m.children = some ids := by
  constructor
  · intro h
    obtain ⟨m, hm, -⟩ := query_bind_ok.mp h
    have hm := op_ok (query_lift_ok.mp hm)
    rw [orderBy_run sort hm] at h
    split at h
    next => exact (reject_ok.mp h).elim
    next l sorted =>
      cases ran : (Placement.start (d.graph mod m.children)).run (d.graph mod m.children) m.children
          m.children.length with
      | error e => rw [ran] at h; cases h
      | ok ids' =>
        rw [ran] at h
        cases h
        have nodup := Placement.children_nodup graph_spec.2.1 ran
        rw [start_run_eq_arrange nodup] at ran
        split at ran
        next arranged => cases ran; exact ⟨m, hm, ⟨l, sorted⟩, nodup, arranged⟩
        next => cases ran
  · rintro ⟨m, hm, ⟨l, sorted⟩, nodup, arranged⟩
    rw [orderBy_run sort hm, sorted]
    rw [start_run_eq_arrange nodup, arranged]
    rfl

theorem order_ok_iff : (d.order mod).run = .ok (.ok ids) ↔ ∃ m, d.op? mod = some m ∧ m.children.Nodup ∧
    arrange (d.drivers mod) m.children.length [] m.children = some ids := by
  rw [Design.order, orderBy_ok_iff]
  refine exists_congr fun m => and_congr_right fun _ => and_iff_right_of_imp fun ⟨_, arranged⟩ => ⟨ids, ?_⟩
  rw [topoSort, graph_spec.1, arrange_graph, arranged]

theorem order_after {after : List OpId} (h : (d.order mod).run = .ok (.ok (before ++ c :: after))) :
    ∀ k ∈ d.drivers mod c, k ∈ before := by
  obtain ⟨m, -, -, arranged⟩ := order_ok_iff.mp h
  exact fun k hk => (arrange_after arranged k hk).resolve_left nofun

theorem order_ok (h : (d.order mod).run = .ok (.ok ids)) : ∃ m, d.op? mod = some m ∧ ids.Perm m.children := by
  obtain ⟨m, hm, -, arranged⟩ := order_ok_iff.mp h
  exact ⟨m, hm, arrange_perm arranged⟩

end Datapath
