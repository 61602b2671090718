import Datapath.Proofs.Additions
import Datapath.Proofs.Totality
import Datapath.Proofs.Trails

/-!
# Chains of owners

An operation that is made at the top or in an operation that is there is younger than its owner, so every
search along its owners ends. The index that an operation is about to get is accepted as its owner too:
such an operation owns itself, and a search that comes to it goes on for ever.
-/

namespace Datapath

open Region (Owned Lies Beneath)

variable {d d' : Design}

/-- The designs that commands lead to, whichever owners they name, unless one of them faults. -/
inductive Obtained : Design → Prop where
  | empty (name : String) : Obtained { name }
  | step {d d' : Design} (c : Command) (h : Obtained d) (ran : c.run d = .ok ((), d')) : Obtained d'

/-! ## Owners -/

def Design.Seated (d : Design) : Prop :=
  ∀ {i owner : Int}, view d.ops Operation.owner i = some owner → owner = absent ∨ 0 ≤ owner ∧ owner ≤ i

theorem Seated.nests : Nests fun d d' => d.Seated → d'.Seated where
  refl _ hd := hd
  trans h h' hd := h' (h hd)
  same nest _ hd := by
    intro i owner h
    have owners := view_comp Prod.fst nest
    exact hd (owners ▸ h)
  op := ⟨fun {d _ d'} h hd => by
    intro i owner hi
    obtain ⟨-, lies, rfl⟩ := addOp_ok h
    rw [view_edit_same _ _ fun _ => by rfl, view_push] at hi
    by_cases new : i = d.ops.size
    · rw [new, put_self] at hi
      cases hi
      exact new ▸ lies
    · rw [put_ne _ new] at hi
      exact hd hi⟩

theorem Obtained.seated (h : Obtained d) : d.Seated := by
  induction h with
  | empty name =>
    intro i owner h
    rw [view_empty] at h
    cases h
  | step c _ ran ih => exact (Seated.nests.run c).run ran ih

/-! ## Operations that own themselves -/

theorem Command.makes {c : Command} (ho : c.owner? = some owner) (ran : c.run d = .ok ((), d')) :
    ∃ kind, d'.place? d.ops.size = some (kind, owner) := by
  have g : Builds (Grows (fun _ => True) fun _ => True) := Grows.builds
  have primitive {kind name inputs outputs latency id e} (grown : Grows (fun _ => True) (fun _ => True) e d')
      (h : Datapath.newPrimitive kind owner name inputs outputs latency d = .ok (id, e)) :
      ∃ kind, d'.place? d.ops.size = some (kind, owner) := by
    obtain ⟨rfl, o, _, _, _, ho, place, -⟩ := newPrimitive_makes h
    exact ⟨kind, grown.place (place ▸ view_of _ ho)⟩
  have module {kind name inputs outputs latency id e} (grown : Grows (fun _ => True) (fun _ => True) e d')
      (h : Datapath.newModule kind owner name inputs outputs latency d = .ok (id, e)) :
      ∃ kind, d'.place? d.ops.size = some (kind, owner) := by
    obtain ⟨rfl, place⟩ := placed_newModule.run h
    exact ⟨kind, grown.place place⟩
  cases c with
  | newModule | newBlock =>
    cases ho
    obtain ⟨_, ran⟩ := run_of_discard ran
    exact module (g.refl _) ran
  | newBranch =>
    cases ho
    obtain ⟨_, ran⟩ := run_of_discard ran
    obtain ⟨_, e, made, rest⟩ := g.branch_first ran
    exact module rest made
  | newLoop =>
    cases ho
    obtain ⟨_, ran⟩ := run_of_discard ran
    obtain ⟨e, made, rest⟩ := g.loop_first (g.bind g.enter fun _ => grows_changeEntry) ran
    exact module rest made
  | newTaskCall =>
    cases ho
    obtain ⟨_, ran⟩ := run_of_discard ran
    obtain ⟨_, -, ran⟩ := ask_bind_ok.mp ran
    obtain ⟨_, -, ran⟩ := ask_bind_ok.mp ran
    obtain ⟨_, -, ran⟩ := ask_bind_ok.mp ran
    obtain ⟨_, e, made, ran⟩ := build_bind_ok.mp ran
    refine module (Along.run ?_ ran) made
    exact g.bind (g.refer fun _ => rfl) fun _ => g.pure _
  | newPrimitive =>
    cases ho
    obtain ⟨_, ran⟩ := run_of_discard ran
    exact primitive (g.refl _) ran
  | newConstant =>
    cases ho
    obtain ⟨_, ran⟩ := run_of_discard ran
    obtain ⟨_, e, made, ran⟩ := build_bind_ok.mp ran
    refine primitive (Along.run ?_ ran) made
    refine g.bind (g.note fun _ => rfl) fun _ => g.ask_bind fun _ => g.ask_bind fun _ => ?_
    exact g.ask_bind fun _ => g.bind g.mark fun _ => g.pure _
  | newAccess =>
    cases ho
    obtain ⟨_, ran⟩ := run_of_discard ran
    obtain ⟨_, _, _, e, -, -, made, rfl⟩ := newAccess_ok ran
    exact primitive (.same (view_edit_same _ _ fun _ => rfl) (fun _ h => h) id id rfl) made
  | _ => cases ho

theorem Obtained.built (h : Obtained d) (none : ∀ i, ¬ Owned d.ops i i) : Built d := by
  induction h with
  | empty name => exact .empty name
  | @step d d' c before ran ih =>
    have old : ∀ i, ¬ Owned d.ops i i := by
      rintro i ⟨o, ho, self⟩
      obtain ⟨o', ho', place⟩ := view_some.mp (Command.place_kept ran (view_of Operation.place ho))
      exact none i ⟨o', ho', (Operation.place_eq place).2.trans self⟩
    refine (ih old).step c ?_ ran
    unfold Command.isPlaced
    cases ho : c.owner? with
    | none => rfl
    | some owner =>
      obtain ⟨kind, place⟩ := Command.makes ho ran
      obtain ⟨o, hi, place⟩ := view_some.mp place
      have own := (Operation.place_eq place).2
      have lies := (before.step c ran).seated (view_some.mpr ⟨o, hi, own⟩)
      have ne : owner ≠ d.ops.size := fun same => none _ ⟨o, hi, own.trans same⟩
      simp only [Option.all_some, Bool.or_eq_true, beq_iff_eq]
      refine lies.imp_right fun lies => ?_
      exact Option.isSome_iff_exists.mpr (at?_of_lt lies.1 (lt_of_le_of_ne lies.2 ne))

theorem endless_of_self (ho : d.op? i = some o) (self : o.owner = i) :
    d.owners i = .error .endless ∧ d.ownerLabels i = .error .endless ∧
      (∀ m, m ≠ i → d.isOwnedBy i m = .error .endless) ∧
      ∀ m, m ≠ i → (d.criticalContext i m).run = .error .endless := by
  have ne : (i == absent) = false := by simpa using ne_absent ho
  have owners (n : Nat) : d.ownersFrom n i = .error .endless := by
    induction n with
    | zero => rfl
    | succ n ih =>
      simp only [Design.ownersFrom, ne, run_op ho, ok_bind, self, ih]
      rfl
  have met {m} (other : m ≠ i) (n : Nat) : d.isMetFrom m n i = .error .endless := by
    induction n with
    | zero => rfl
    | succ n ih =>
      have other : (i == m) = false := by simpa using other.symm
      simp only [Design.isMetFrom, ne, other, Bool.false_eq_true, ite_false, run_op ho, ok_bind, self, ih]
  have child {m} (other : m ≠ i) (n : Nat) : d.childToward m n i = .error .endless := by
    induction n with
    | zero => rfl
    | succ n ih =>
      have other : (i == m) = false := by simpa using other.symm
      simp only [Design.childToward, ne, other, Bool.false_eq_true, ite_false, run_op ho, ok_bind, self, ih]
  have up : d.owners i = .error .endless := by rw [Design.owners, run_op ho, ok_bind, self, owners]
  refine ⟨up, by rw [Design.ownerLabels, up]; rfl, fun m other => ?_, fun m other => ?_⟩
  · rw [Design.isOwnedBy, run_op ho, ok_bind, self, met other]
  · unfold Design.criticalContext
    rw [child other]
    rfl

/-! ## Searches that end -/

section
variable (hd : WellFormed d)
include hd

theorem isMetFrom_total {n : Nat} {m x : Int} (hx : d.Holds x) (room : x + 1 < n) :
    ∃ b, d.isMetFrom m n x = .ok b ∧ (b = true ↔ m ≠ absent ∧ Lies d.ops x m) := by
  induction n generalizing x with
  | zero => exact absurd room (Int.not_lt.mpr hx.le)
  | succ n ih =>
    unfold Design.isMetFrom
    by_cases top : x = absent
    · refine ⟨false, if_pos (beq_iff_eq.mpr top), nofun, fun ⟨ne, lies⟩ => ?_⟩
      rcases lies.cases_head with same | ⟨_, ⟨o, ho, -⟩, -⟩
      · exact absurd (same.symm.trans top) ne
      · exact absurd top (ne_absent ho)
    · obtain ⟨o, ho⟩ := hx.resolve_left top
      rw [if_neg (by simpa using top)]
      by_cases same : x = m
      · exact ⟨true, if_pos (beq_iff_eq.mpr same), fun _ => ⟨same ▸ top, same ▸ .refl⟩, fun _ => rfl⟩
      · have lt := Int.add_one_le_of_lt (hd.nesting.older ho)
        obtain ⟨b, hb, met⟩ := ih (hd.holder ho) (by omega)
        refine ⟨b, ?_, met.trans (and_congr_right fun _ => ⟨fun lies => lies.head ⟨o, ho, rfl⟩, fun lies => ?_⟩)⟩
        · rw [if_neg (by simpa using same), run_op ho, ok_bind, hb]
        · rcases lies.cases_head with rfl | ⟨k, owned, lies⟩
          · exact absurd rfl same
          · exact owned.unique ⟨o, ho, rfl⟩ ▸ lies

theorem isOwnedBy_total (ho : d.op? i = some o) (m : OpId) :
    ∃ b, d.isOwnedBy i m = .ok b ∧ (b = true ↔ m ≠ absent ∧ Beneath d.ops i m) := by
  have lt := Int.add_one_le_of_lt (hd.nesting.older ho)
  have size := (at?_lt ho).2
  obtain ⟨b, hb, met⟩ := isMetFrom_total hd (m := m) (n := d.ops.size + 1) (hd.holder ho) (by omega)
  refine ⟨b, by rw [Design.isOwnedBy, run_op ho, ok_bind, hb],
    met.trans (and_congr_right fun _ => ⟨fun lies => ?_, fun h => ?_⟩)⟩
  · exact .head' ⟨o, ho, rfl⟩ lies
  · obtain ⟨k, owned, lies⟩ := Relation.TransGen.head'_iff.mp h
    exact owned.unique ⟨o, ho, rfl⟩ ▸ lies

theorem isOwnedBy_iff : d.isOwnedBy i m = .ok true ↔ m ≠ absent ∧ Beneath d.ops i m := by
  constructor
  · intro h
    obtain ⟨o, ho, -⟩ := bind_ok.mp h
    obtain ⟨b, hb, met⟩ := isOwnedBy_total hd (op_ok ho) m
    cases h.symm.trans hb
    exact met.mp rfl
  · rintro ⟨ne, h⟩
    obtain ⟨_, ⟨o, ho, -⟩, -⟩ := Relation.TransGen.head'_iff.mp h
    obtain ⟨b, hb, met⟩ := isOwnedBy_total hd ho m
    rw [hb, met.mpr ⟨ne, h⟩]

theorem lies_iff (ho : d.op? m = some o) : Lies d.ops i m ↔ i = m ∨ d.isOwnedBy i m = .ok true := by
  rw [isOwnedBy_iff hd, and_iff_right (ne_absent ho), eq_comm]
  exact Relation.reflTransGen_iff_eq_or_transGen

theorem childToward_total {n : Nat} {m x : Int} (hx : d.Holds x) (room : x + 1 < n) : ∃ r,
  d.childToward m n x = .ok r := by
  induction n generalizing x with
  | zero => exact absurd room (Int.not_lt.mpr hx.le)
  | succ n ih =>
    unfold Design.childToward
    split
    · exact ⟨_, rfl⟩
    next ne =>
      obtain ⟨o, ho⟩ := hx.resolve_left (by simpa using ne)
      have lt := Int.add_one_le_of_lt (hd.nesting.older ho)
      rw [run_op ho, ok_bind]
      split
      · exact ⟨_, rfl⟩
      · exact ih (hd.holder ho) (by omega)

theorem criticalContext_ends (ho : d.op? i = some o) (m : OpId) :
    (d.criticalContext i m).run ≠ .error .endless := by
  have size := (at?_lt ho).2
  obtain ⟨r, hr⟩ := childToward_total hd (m := m) (n := d.ops.size + 1) (.inr ⟨o, ho⟩) (by omega)
  unfold Design.criticalContext
  rw [hr]
  cases r with
  | some c => exact nofun
  | none =>
    by_cases hm : d.Holds m
    · obtain ⟨l, hl⟩ := label_total hm
      obtain ⟨s, hs, -⟩ := reject_total (α := OpId) hd ho (.outsideContext l)
      rw [hl]
      exact fun ended => nomatch hs.symm.trans ended
    · -- the context is not in the design, and a label of it neither
      obtain ⟨ne, gone⟩ := not_or.mp hm
      have missing : d.op? m = none := Option.eq_none_iff_forall_ne_some.mpr fun o ho => gone ⟨o, ho⟩
      rw [Design.label, if_neg (by simpa using ne), Design.op, missing]
      exact nofun

end

/-- Every search along the owners of the operation ends. -/
structure Design.Ascends (d : Design) (i : OpId) : Prop where
  owners : ∃ os, d.owners i = .ok os
  labels : ∃ ls, d.ownerLabels i = .ok ls
  nested : ∀ m, ∃ b, d.isOwnedBy i m = .ok b
  context : ∀ m, (d.criticalContext i m).run ≠ .error .endless

/-- Wherever commands lead, the owner of an operation is absent, older than the operation or the operation itself.
As long as no operation owns itself, the commands have been placed, and all searches along owners end. -/
theorem owners_older_unless_self_owned (h : Obtained d) :
    (∀ i o, d.op? i = some o → o.owner = absent ∨ 0 ≤ o.owner ∧ o.owner ≤ i) ∧
    ((∀ i o, d.op? i = some o → o.owner ≠ i) ↔ Built d) ∧
    ((∀ i o, d.op? i = some o → o.owner ≠ i) ↔ ∀ i o, d.op? i = some o → d.Ascends i) ∧
    ∀ i o, d.op? i = some o → o.owner = i → d.owners i = .error .endless ∧ d.ownerLabels i = .error .endless ∧
      (∀ m, m ≠ i → d.isOwnedBy i m = .error .endless) ∧
      ∀ m, m ≠ i → (d.criticalContext i m).run = .error .endless := by
  have built : (∀ i o, d.op? i = some o → o.owner ≠ i) ↔ Built d := by
    refine ⟨fun none => h.built fun i ⟨o, ho, self⟩ => none i o ho self, fun hd i o ho self => ?_⟩
    exact absurd (hd.wellFormed.nesting.older ho) (self ▸ Int.lt_irrefl _)
  refine ⟨fun i o ho => h.seated (view_of _ ho), built, ⟨fun none i o ho => ?_, fun ends i o ho self => ?_⟩, ?_⟩
  · have hd := (built.mp none).wellFormed
    constructor
    · exact (owners_total hd ho).imp fun _ h => h.1
    · exact ownerLabels_total hd ho
    · exact fun m => (isOwnedBy_total hd ho m).imp fun _ h => h.1
    · exact criticalContext_ends hd ho
  · obtain ⟨os, hos⟩ := (ends i o ho).owners
    rw [(endless_of_self ho self).1] at hos
    cases hos
  · exact fun i o ho self => endless_of_self ho self

theorem self_owned_made : ∃ d, (Command.newPrimitive .op 0 "p" 0 0 .zero).run { name := "d" } = .ok ((), d) ∧
    Owned d.ops 0 0 ∧ d.isOwnedBy 0 0 = .ok true := by
  obtain ⟨_, d, ran, self, owned⟩ :
      ∃ u d, (Command.newPrimitive .op 0 "p" 0 0 .zero).run { name := "d" } = .ok (u, d) ∧
      (∃ o, d.op? 0 = some o ∧ o.owner = 0) ∧ d.isOwnedBy 0 0 = .ok true := by
    decide +kernel
  exact ⟨d, ran, self, owned⟩

theorem self_owned_not_built : ∃ d, Obtained d ∧ ¬ Built d ∧ d.owners 0 = .error .endless := by
  obtain ⟨d, ran, ⟨o, ho, self⟩, -⟩ := self_owned_made
  have obtained : Obtained d := .step _ (.empty "d") ran
  obtain ⟨-, built, -, endless⟩ := owners_older_unless_self_owned obtained
  exact ⟨d, obtained, fun h => built.mpr h 0 o ho self, (endless 0 o ho self).1⟩

/-- An operation can get an owner that is not older, and then its owners are never listed. -/
theorem self_owner_accepted : ∃ d o, Obtained d ∧ d.op? 0 = some o ∧ o.owner = 0 ∧ d.isOwnedBy 0 0 = .ok true ∧
    d.owners 0 = .error .endless := by
  obtain ⟨d, ran, ⟨o, ho, self⟩, owned⟩ := self_owned_made
  exact ⟨d, o, .step _ (.empty "d") ran, ho, self, owned, (endless_of_self ho self).1⟩

end Datapath
