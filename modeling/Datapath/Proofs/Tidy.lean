import Datapath.Proofs.Layout
import Datapath.Proofs.Trails

/-!
# Tidy designs

In a tidy design every operation lies in a module that may hold one of its kind and has the parts
that its kind needs. The operations of a module drive each other, feedback aside, from the input buffer
to the operations inside, from these in the order of their creation, and from all of them to the output
buffers.
-/

namespace Datapath

variable {d d' g : Design}

/-! ## Where operations lie -/

def Kind.fits (k : Kind) : Option Kind → Bool
  | none => k == .call
  | some m =>
    match k with
    | .inBuf | .outBuf => m.isModule
    | .block => m == .block || m == .branch || m == .whileBody || m == .call
    | .decision => m == .branch || m == .whileBody
    | .whileBody => m == .loop
    | .latch | .reg => m == .block || m == .loop
    | .branch | .loop | .taskCall | .constant | .op | .mux | .noOp => m == .block
    | k => k.isAccess && m == .block

/-- How far an operation comes in a module of the kind `m`. The registers of a loop come last: they
only feed back. -/
def Kind.level (k m : Kind) : Nat :=
  match k with
  | .inBuf => 0
  | .whileBody => 2
  | .outBuf => 3
  | .reg => if m = .loop then 3 else 1
  | _ => 1

def Kind.exitsOnce : Kind → Bool
  | .outBuf | .decision | .whileBody => false
  | _ => true

def Climbs (d : Design) (s t : Int) : Prop :=
  ∃ j k l m p, d.place? s = some (j, m) ∧ d.place? t = some (k, m) ∧ d.place? m = some (l, p) ∧
    (j.level l < k.level l ∨ j.level l = 1 ∧ k.level l = 1 ∧ s < t)

def RisesIn (g d : Design) : Prop :=
  ∀ ⦃e i⦄, view d.entries Entry.face e = some (i, false) → ∀ v ∈ d.depsIn e, ∃ s, Carried d v.source s ∧
    Climbs g s i

abbrev Rises (d : Design) : Prop := RisesIn d d

structure Top (d : Design) (i r : OpId) : Prop where
  lies : Region.Lies d.ops i r
  outer : ∃ k, d.place? r = some (k, absent)

structure Lodges (d : Design) (i : Int) (k : Kind) (m : OpId) : Prop where
  fits : k.fits ((d.place? m).map Prod.fst) = true
  /-- The input buffer of a module is what it owns first. -/
  first : k = .inBuf → i = m + 1
  /-- A task runs one block. -/
  body : k = .block → (d.place? m).map Prod.fst = some .call → i = m + 3

structure Operation.Sits (d : Design) (i : Int) (o : Operation) : Prop where
  /-- The first entry is not one that feeds back. -/
  entered : ∃ e es, o.entries = e :: es ∧ view d.entries Entry.face e = some (i, false)
  leaves : ∀ x ∈ o.exits, ∃ y, at? d.exits x = some y ∧ y.tag.kind = .done ∧
    (o.kind.isModule = true → y.peer ≠ absent)
  exit : o.kind.exitsOnce = true → ∃ x y, o.exits = [x] ∧ at? d.exits x = some y ∧ y.tag = .done
  buffer : o.kind = .outBuf → o.exits = []
  front : o.kind.isModule = true → o.inBuf ≠ absent

def Operation.Whole (d : Design) (i : OpId) (o : Operation) : Prop :=
  match o.kind with
  | .branch => o.decision ≠ absent
  | .loop => d.place? o.body = some (.whileBody, i)
  | .whileBody => o.body ≠ absent
  -- a call of a task lies in a task that comes later
  | .taskCall => ∃ k r : Int, d.place? o.body = some (.block, k) ∧ Top d i r ∧ k < r
  -- a register of a loop holds a value
  | .reg => (d.place? o.owner).map Prod.fst = some .loop →
    o.ports ≠ [] ∧ ∀ x ∈ o.exits, ∃ y, at? d.exits x = some y ∧ y.buses ≠ []
  | k => k.isAccess = true → o.resource ≠ absent

structure Tidy (d : Design) : Prop where
  lodged : ∀ {i k m}, d.place? i = some (k, m) → Lodges d i k m
  sits : ∀ {i o}, at? d.ops i = some o → o.Sits d i
  whole : ∀ {i o}, at? d.ops i = some o → o.Whole d i
  tasks : ∀ {i j a b : Int}, i < j → view d.tasks Task.call i = some a → view d.tasks Task.call j = some b → a < b
  rises : Rises d

structure Orderly (d : Design) : Prop where
  wf : WellFormed d
  shaped : Shaped d
  laid : Laid d
  tidy : Tidy d

/-! ## What operations refer to -/

namespace Operation.Whole

section
variable {o : Operation} (h : o.Whole d i)
include h

theorem branch (hk : o.kind = .branch) : o.decision ≠ absent := by
  rw [Whole, hk] at h
  exact h

theorem loop (hk : o.kind = .loop) : d.place? o.body = some (.whileBody, i) := by
  rw [Whole, hk] at h
  exact h

theorem again (hk : o.kind = .whileBody) : o.body ≠ absent := by
  rw [Whole, hk] at h
  exact h

theorem call (hk : o.kind = .taskCall) : ∃ k r : Int, d.place? o.body = some (.block, k) ∧ Top d i r ∧ k < r := by
  rw [Whole, hk] at h
  exact h

theorem register (hk : o.kind = .reg) (loop : (d.place? o.owner).map Prod.fst = some .loop) :
    o.ports ≠ [] ∧ ∀ x ∈ o.exits, ∃ y, at? d.exits x = some y ∧ y.buses ≠ [] := by
  rw [Whole, hk] at h
  exact h loop

theorem access (hk : o.kind.isAccess = true) : o.resource ≠ absent := by
  unfold Whole at h
  split at h
  case h_6 => exact h hk
  all_goals
    next kind =>
      rw [kind] at hk
      cases hk

end

end Operation.Whole

/-! ## What stays when a design grows -/

theorem place_below {m : Int} (lt : m < d.ops.size) (place : ∀ {i p}, d.place? i = some p → d'.place? i = some p) :
    d'.place? m = d.place? m := by
  cases h : d.place? m with
  | some p => exact place h
  | none =>
    cases h' : d'.place? m with
    | none => rfl
    | some p =>
      obtain ⟨o, ho⟩ := at?_of_lt (view_lt h').1 lt
      rw [place_of_op ho] at h
      cases h

theorem WellFormed.owner_place {i : OpId} (hd : WellFormed d) (ho : at? d.ops i = some o)
    (place : ∀ {i p}, d.place? i = some p → d'.place? i = some p) : d'.place? o.owner = d.place? o.owner :=
  place_below (Int.lt_trans (hd.nesting.older ho) (at?_lt ho).2) place

theorem Lies.grow (place : ∀ {i p}, d.place? i = some p → d'.place? i = some p) (h : Region.Lies d.ops x m) :
    Region.Lies d'.ops x m := by
  refine Relation.ReflTransGen.mono ?_ _ _ h
  rintro c m ⟨o, ho, own⟩
  obtain ⟨o', ho', same⟩ := view_some.mp (place (place_of_op ho))
  exact ⟨o', ho', (congrArg Prod.snd same).trans own⟩

theorem Top.grow (h : Top d i r) (place : ∀ {i p}, d.place? i = some p → d'.place? i = some p) : Top d' i r := by
  obtain ⟨k, outer⟩ := h.outer
  exact ⟨Lies.grow place h.lies, k, place outer⟩

theorem Operation.Whole.grow {o : Operation} (h : o.Whole d i) (own : d'.place? o.owner = d.place? o.owner)
    (place : ∀ {i p}, d.place? i = some p → d'.place? i = some p)
    (exit : ∀ {i x}, at? d.exits i = some x → at? d'.exits i = some x) : o.Whole d' i := by
  unfold Operation.Whole at h ⊢
  split at h
  case h_1 | h_3 | h_6 => exact h
  case h_2 => exact place h
  case h_4 =>
    obtain ⟨k, r, body, top, lt⟩ := h
    exact ⟨k, r, place body, top.grow place, lt⟩
  case h_5 =>
    intro loop
    rw [own] at loop
    obtain ⟨ports, buses⟩ := h loop
    refine ⟨ports, fun x hx => ?_⟩
    obtain ⟨y, hy, ne⟩ := buses x hx
    exact ⟨y, exit hy, ne⟩

theorem Operation.Sits.grow {o : Operation} (h : o.Sits d i)
    (entry : ∀ {i v}, view d.entries Entry.face i = some v → view d'.entries Entry.face i = some v)
    (exit : ∀ {i x}, at? d.exits i = some x → at? d'.exits i = some x) : o.Sits d' i where
  entered := by
    obtain ⟨e, es, entries, face⟩ := h.entered
    exact ⟨e, es, entries, entry face⟩
  leaves x hx := by
    obtain ⟨y, hy, rest⟩ := h.leaves x hx
    exact ⟨y, exit hy, rest⟩
  exit hk := by
    obtain ⟨x, y, hx, hy, tag⟩ := h.exit hk
    exact ⟨x, y, hx, exit hy, tag⟩
  buffer := h.buffer
  front := h.front

theorem Lodges.grow (h : Lodges d i k m) (hd : WellFormed d) (hi : d.place? i = some (k, m))
    (place : ∀ {i p}, d.place? i = some p → d'.place? i = some p) : Lodges d' i k m := by
  obtain ⟨o, ho, same⟩ := view_some.mp hi
  have own : o.owner = m := congrArg Prod.snd same
  have kept := hd.owner_place ho place
  rw [own] at kept
  refine ⟨?_, h.first, ?_⟩
  · rw [kept]
    exact h.fits
  · rw [kept]
    exact h.body

/-! ## More dependencies -/

theorem Kind.level_pos {k l : Kind} (h : k ≠ .inBuf) : 0 < k.level l := by
  unfold Kind.level
  split
  · contradiction
  · decide
  · decide
  · split <;> decide
  · decide

theorem climbs_front {p : OpId} {l : Kind} (front : d.place? ib = some (.inBuf, m)) (ht : d.place? t = some (k, m))
    (hm : d.place? m = some (l, p)) (hk : k ≠ .inBuf) : Climbs d ib t :=
  ⟨_, _, _, _, _, front, ht, hm, .inl (Kind.level_pos hk)⟩

theorem climbs_back {p : OpId} {l : Kind} (hs : d.place? s = some (j, m))
    (back : d.place? ob = some (.outBuf, m)) (hm : d.place? m = some (l, p)) (hj : j.level l < 3) : Climbs d s ob :=
  ⟨_, _, _, _, _, hs, back, hm, .inl hj⟩

theorem Climbs.mono (h : Climbs d s t) (place : ∀ {i p}, d.place? i = some p → d'.place? i = some p) :
    Climbs d' s t := by
  obtain ⟨j, k, m, n, p, hs, ht, hm, up⟩ := h
  exact ⟨j, k, m, n, p, place hs, place ht, place hm, up⟩

theorem Gains.carried (g : Gains T d d' l) (h : Carried d b s) : Carried d' b s := by
  obtain ⟨x, hx, hs⟩ := h
  obtain ⟨y, hy, own⟩ := view_some.mp hs
  exact ⟨x, g.bus hx, view_some.mpr ⟨y, g.exit hy, own⟩⟩

theorem Gains.place (g : Augments d d' l) (h : d.place? i = some p) : d'.place? i = some p := by
  obtain ⟨o, ho, place⟩ := view_some.mp h
  obtain ⟨cs, ho'⟩ := g.op (fun h => h) ho
  exact view_some.mpr ⟨_, ho', place⟩

theorem RisesIn.gains (h : RisesIn g d) (gain : Gains T d d' l)
    (new : ∀ v ∈ l, ∀ i, view d'.entries Entry.face v.entry = some (i, false) →
      ∃ s, Carried d' v.source s ∧ Climbs g s i) : RisesIn g d' := by
  intro e i hi v hv
  rw [gain.deps e, List.mem_append] at hv
  rcases hv with hv | hv
  · cases old : view d.entries Entry.face e with
    | none =>
      have gone : d.depsIn e = [] := by
        have none : at? d.entries e = none := by
          cases h : at? d.entries e with
          | none => rfl
          | some n => rw [view_of _ h] at old; cases old
        simp [Design.depsIn, Design.entryAt?, none]
      rw [gone] at hv
      cases hv
    | some f =>
      have same := (gain.entry old).symm.trans hi
      rw [Option.some.inj same] at old
      obtain ⟨s, carried, up⟩ := h old v hv
      exact ⟨s, gain.carried carried, up⟩
  · obtain ⟨hv, he⟩ := List.mem_filter.mp hv
    rw [beq_iff_eq] at he
    exact new v hv i (he ▸ hi)

theorem RisesIn.mono {g' : Design} (h : RisesIn g d) (place : ∀ {i p}, g.place? i = some p → g'.place? i = some p) :
    RisesIn g' d := by
  intro e i hi v hv
  obtain ⟨s, carried, up⟩ := h hi v hv
  exact ⟨s, carried, up.mono place⟩

end Datapath
