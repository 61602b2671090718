import Datapath.Proofs.Nested
import Datapath.Proofs.Additions
import Datapath.Timing

/-!
# Operations that stay as they are

Most steps leave most operations alone: an operation keeps its ports, its exits and its entries, and its entries
keep their dependencies.
-/

namespace Datapath

open List

/-- The operation is the same in both designs, and so are its ports, its exits and its entries. -/
structure Intact (d d' : Design) (k : OpId) : Prop where
  op : ∀ {o}, at? d.ops k = some o → ∃ cs, at? d'.ops k = some { o with children := cs }
  port : ∀ {i b}, view d.ports Port.face i = some (k, b) → view d'.ports Port.face i = some (k, b)
  exit : ∀ {i x}, at? d.exits i = some x → x.owner = k → at? d'.exits i = some x
  entry : ∀ {i b}, view d.entries Entry.face i = some (k, b) → view d'.entries Entry.face i = some (k, b)

/-- Its entries also have the same dependencies. -/
structure Untouched (d d' : Design) (k : OpId) : Prop extends Intact d d' k where
  deps : ∀ {i b}, view d.entries Entry.face i = some (k, b) → d'.depsIn i = d.depsIn i

section
variable {d e d' : Design}

theorem Intact.trans {op : OpId} (h : Intact d e op) (h' : Intact e d' op) : Intact d d' op where
  op ho := by
    obtain ⟨cs, ho'⟩ := h.op ho
    obtain ⟨cs', ho''⟩ := h'.op ho'
    exact ⟨cs', ho''⟩
  port hp := h'.port (h.port hp)
  exit hx hown := h'.exit (h.exit hx hown) hown
  entry he := h'.entry (h.entry he)

theorem Untouched.trans (h : Untouched d e op) (h' : Untouched e d' op) : Untouched d d' op where
  toIntact := h.toIntact.trans h'.toIntact
  deps he := (h'.deps (h.entry he)).trans (h.deps he)

theorem Gains.intact {op : OpId} (g : Gains T d d' l) (hT : ¬ T op) : Intact d d' op :=
  ⟨g.op hT, g.face, fun hx _ => g.exit hx, g.entry⟩

theorem Gains.untouched {op : OpId} (g : Gains T d d' l) (hT : ¬ T op)
    (hl : ∀ v ∈ l, ∀ b, view d.entries Entry.face v.entry ≠ some (op, b)) : Untouched d d' op where
  toIntact := g.intact hT
  deps := by
    intro i b hi
    rw [g.deps, filter_eq_nil_iff.mpr, append_nil]
    intro v hv
    rw [beq_iff_eq]
    exact fun e => hl v hv b (e ▸ hi)

section
variable (hd : WellFormed d)
include hd

theorem entry_face (ho : at? d.ops k = some o)
    (hi : i ∈ o.entries) : ∃ b, view d.entries Entry.face i = some (k, b) := by
  obtain ⟨e, he, hown⟩ := hd.entries.holds ho i hi
  exact ⟨e.feedback, view_some.mpr ⟨e, he, Prod.ext (Option.some.inj hown) rfl⟩⟩

theorem first_face (ho : d.op k = .ok o) (hi : o.firstEntry = .ok i) :
    ∃ b, view d.entries Entry.face i = some (k, b) := entry_face hd (op_ok ho) (mem_of_head? (require_ok.mp hi))

theorem mem_entries (ho : at? d.ops k = some o) (hi : view d.entries Entry.face i = some (k, b)) :
    i ∈ o.entries := by
  obtain ⟨e, he, face⟩ := view_some.mp hi
  obtain ⟨_, ho', mem⟩ := hd.entries.held he (congrArg some (congrArg Prod.fst face))
  cases ho.symm.trans ho'
  exact mem

theorem forward_iff (ho : d.op? k = some o) :
    v ∈ Timing.forwardDeps d o ↔ ∃ i, view d.entries Entry.face i = some (k, false) ∧ v ∈ d.depsIn i := by
  constructor
  · intro hv
    obtain ⟨e, he, hv⟩ := mem_flatMap.mp hv
    obtain ⟨he, forward⟩ := mem_filter.mp he
    obtain ⟨i, hi, hie⟩ := mem_filterMap.mp he
    obtain ⟨b, face⟩ := entry_face hd ho hi
    rw [view_of _ hie, Option.some.injEq] at face
    have back : e.feedback = false := by simpa using forward
    have own : e.owner = k := congrArg Prod.fst face
    refine ⟨i, view_some.mpr ⟨e, hie, Prod.ext own back⟩, ?_⟩
    rw [depsIn_of hie]
    exact hv
  · rintro ⟨i, face, hv⟩
    have mem := mem_entries hd ho face
    obtain ⟨e, he, face⟩ := view_some.mp face
    have forward : e.feedback = false := congrArg Prod.snd face
    rw [depsIn_of he] at hv
    refine mem_flatMap.mpr ⟨e, mem_filter.mpr ⟨mem_filterMap.mpr ⟨i, mem, he⟩, ?_⟩, hv⟩
    simp [forward]

end

theorem Intact.entryBack (h : Intact d d' k) (hd : WellFormed d) (hd' : WellFormed d')
    (ho : at? d.ops k = some o) (hi : view d'.entries Entry.face i = some (k, b)) :
    view d.entries Entry.face i = some (k, b) := by
  obtain ⟨cs, ho'⟩ := h.op ho
  have mem := mem_entries hd' ho' hi
  obtain ⟨b', hb'⟩ := entry_face hd ho mem
  rw [← hi, h.entry hb']
  exact hb'

theorem start_gains (hd : WellFormed d) (h : start k source d = .ok (i, d')) :
    ∃ o entry, at? d.ops k = some o ∧ o.entries.head? = some entry ∧
      Gains T d d' [{ id := i, kind := .control, entry, source, target := o.go, minClocks := 0 }] := by
  obtain ⟨o, ho, h⟩ := ask_bind_ok.mp h
  obtain ⟨entry, he, h⟩ := ask_bind_ok.mp h
  exact ⟨o, entry, op_ok ho, require_ok.mp he, gains_addDependency hd h⟩

theorem entry_ne {b : OpId × Bool} (hi : view d.entries Entry.face i = some a)
    (hj : view d.entries Entry.face j = some b) (h : a ≠ b) : i ≠ j := by
  intro e
  rw [e, hj] at hi
  exact h (Option.some.inj hi).symm

theorem feedback_made {d1 : Design} (hk : T k) (ho : at? d.ops k = some o)
    (h : addEntry k drive d = .ok (entry, d1))
    (h' : changeEntry entry (fun e => { e with feedback := true }) d1 = .ok (u, d')) :
    at? d'.ops k = some { o with entries := o.entries ++ [entry] } ∧
      view d'.entries Entry.face entry = some (k, true) ∧ d'.depsIn entry = [] ∧ Gains T d d' [] := by
  obtain ⟨ho', face, deps⟩ := addEntry_makes h ho
  have g : Gains T d d1 [] := gains_addEntry hk h
  have hid := (addEntry_ok h).1
  obtain ⟨⟨e, he⟩, rfl⟩ := changeEntry_ok h'
  have same : ∀ i,
      Design.depsIn { d1 with entries := editAt d1.entries entry fun e => { e with feedback := true } } i =
      d1.depsIn i := by
    intro i
    rw [depsIn_eq, depsIn_eq]
    rw [view_edit_same _ _ fun _ => by rfl]
    rfl
  refine ⟨ho', ?_, (same entry).trans deps, { g with entry := ?_, deps := fun i => (same i).trans (g.deps i) }⟩
  · rw [view_of _ he] at face
    have own : e.owner = k := congrArg Prod.fst (Option.some.inj face)
    rw [view_edit he, put_self, ← own]
    rfl
  · intro i v hv
    have lt := view_lt hv
    have ne : i ≠ entry := by omega
    have hv := g.entry hv
    unfold view at hv ⊢
    rw [at?_edit_ne ne]
    exact hv

end

end Datapath
