import Datapath.Proofs.Gathering

/-!
# Which accessors a region starts with

A region starts with the first set of accessors that a walk notes. As long as the walk has noted nothing
but reads of a register, the next such set is first too. The sides of a branch are noted before they
settle what is first, so they are gathered with the reads before them whatever they access.
-/

namespace Datapath

set_option synthInstance.maxSize 300

open List

namespace Region

/-! ## Starts of regions -/

section
variable {d : Design}

theorem mem_leading_cons : x ∈ leading d (n :: ns) ↔ x ∈ n.ops ∨ n.isPure d = true ∧
    ((∃ m ∈ ns.takeWhile (·.isPure d), x ∈ m.ops) ∨
      ∃ m, (ns.dropWhile (·.isPure d)).head? = some m ∧ m.sides = true ∧ x ∈ m.ops) := by
  have next : x ∈ following d ns ↔ (∃ m ∈ ns.takeWhile (·.isPure d), x ∈ m.ops) ∨
      ∃ m, (ns.dropWhile (·.isPure d)).head? = some m ∧ m.sides = true ∧ x ∈ m.ops := by
    unfold following
    cases (ns.dropWhile (·.isPure d)).head? with
    | none => simp
    | some m => cases hs : m.sides <;> simp [hs]
  cases hp : n.isPure d <;> simp [leading, hp, next]

theorem leading_append_cons {after : List Note} (ne : before ≠ []) (impure : m.isPure d = false)
    (plain : m.sides = false) : leading d (before ++ m :: after) = leading d before := by
  have stops : ∀ rest, following d (rest ++ m :: after) = following d rest := by
    intro rest
    induction rest with
    | nil => simp [following, impure, plain]
    | cons k rest ih => rw [cons_append, following_cons, following_cons, ih]
  cases before with
  | nil => exact absurd rfl ne
  | cons k rest => rw [cons_append, leading, leading, stops]

end

/-- The accessors that a region starts with are the first set that a walk through the task notes. If this
stands for reads of a register only, they are also the sets right after it that do, and the accessors in
the sides of a branch if such a branch comes next. Any other access or call that is not a read of a
register is no start once something was noted before. -/
theorem region_starts_from_notes {d d' : Design} {task : Task} {regions : List Region} (hd : Built d)
    (h : (identify task).run d = .ok (.ok regions, d')) :
    ∀ p ∈ regions, ∃ n ns, (notesIn d (notes d p.resource (d.ops.size + 1)) task.call).run = .ok (.ok (n :: ns)) ∧
      (∀ x, (∃ s ∈ p.starts, x ∈ s.point.candidates) ↔ x ∈ n.ops ∨ n.isPure d = true ∧
        ((∃ m ∈ ns.takeWhile (·.isPure d), x ∈ m.ops) ∨
          ∃ m, (ns.dropWhile (·.isPure d)).head? = some m ∧ m.sides = true ∧ x ∈ m.ops)) ∧
      ∀ before m after, n :: ns = before ++ m :: after → before ≠ [] → m.isPure d = false → m.sides = false →
        ∀ x ∈ m.ops, ¬ ∃ s ∈ p.starts, x ∈ s.point.candidates := by
  intro p hp
  obtain ⟨log, hlog, -, spans⟩ := identify_ok h
  obtain ⟨a, ha, spans⟩ := spans p hp
  obtain ⟨cs, ns, order, hns, noted, records⟩ :=
    children_records (visit_keepsRecords hd.wellFormed hd.shaped p.resource _) hlog
  have starts : ∀ x, (∃ s ∈ p.starts, x ∈ s.point.candidates) ↔ x ∈ leading d ns :=
    fun x => (spans.candidates x).trans ((records.first ha).2 x)
  have spread := noted.spread hd.wellFormed (siblings_of_order hd.wellFormed order)
  cases ns with
  | nil =>
    rw [records.found.mpr rfl] at ha
    cases ha
  | cons n ns =>
    refine ⟨n, ns, hns, fun x => (starts x).trans mem_leading_cons, fun before m after split ne impure plain x hx =>
      ?_⟩
    rw [starts, split, leading_append_cons ne impure plain]
    intro first
    obtain ⟨k, hk, hx'⟩ := mem_leading first
    rw [split] at spread
    exact ((pairwise_append.mp spread.apart).2.2 k hk m mem_cons_self).not_mem hx' hx

theorem shared_region_starts : ∃ d d' task p n k m, runAll sharedCommands { name := "x" } = some d ∧
    (identify task).run d = .ok (.ok [p], d') ∧
    (notesIn d (notes d p.resource (d.ops.size + 1)) task.call).run = .ok (.ok [n, k, m]) ∧
    n.isPure d = true ∧ k.sides = true ∧ m.isPure d = false ∧ m.sides = false ∧ m.ops = [31] ∧
    (∀ x, (∃ s ∈ p.starts, x ∈ s.point.candidates) ↔ x ∈ n.ops ∨ x ∈ k.ops) ∧
    ¬ ∃ s ∈ p.starts, 31 ∈ s.point.candidates := by
  obtain ⟨d, hd, task, ht, regions, d', h, hr, ns, hns, purity, sides, hops⟩ :
      ∃ d, runAll sharedCommands { name := "x" } = some d ∧ ∃ task, at? d.tasks 1 = some task ∧
      ∃ regions d', (identify task).run d = .ok (.ok regions, d') ∧ regions.map Region.resource = [0] ∧
      ∃ ns, (notesIn d (notes d 0 (d.ops.size + 1)) task.call).run = .ok (.ok ns) ∧
      ns.map (·.isPure d) = [true, false, false] ∧ (ns.map Note.sides).drop 1 = [true, false] ∧
      (ns.map Note.ops).drop 2 = [[31]] := by
    decide +kernel
  obtain ⟨p, rfl, hp⟩ := map_eq_singleton_iff.mp hr
  obtain ⟨n, k, m, rfl⟩ := length_eq_three.mp (by simpa using congrArg length purity)
  simp only [map_cons, map_nil, drop_succ_cons, drop_zero, cons.injEq, and_true] at purity sides hops
  obtain ⟨pure, impure, impure'⟩ := purity
  obtain ⟨n', ns', hns', starts, none⟩ := region_starts_from_notes ((Built.empty "x").runAll hd) h p mem_cons_self
  rw [hp] at hns'
  cases hns.symm.trans hns'
  refine ⟨d, d', task, p, n, k, m, hd, h,
    by rw [hp]; exact hns, pure, sides.1, impure', sides.2, hops, fun x => ?_, ?_⟩
  · rw [starts]
    simp [pure, impure, sides]
  · exact none [n, k] m [] rfl (by simp) impure' sides.2 31 (by simp [hops])

def gatheredCommands : List Command :=
  [.newResource .register "y" true, .newTask "t" 0 0 .zero true, .newAccess .registerRead 3 "r" 0 .zero,
   .newBranch 3 "b" 0 0 .zero, .newAccess .registerWrite 14 "w" 0 .one]

/-- The write is a start of the region too, although the read was noted before it. -/
theorem write_in_side_gathered : ∃ d d' task p n m o, runAll gatheredCommands { name := "x" } = some d ∧
    task ∈ d.tasks ∧ (identify task).run d = .ok (.ok [p], d') ∧
    (notesIn d (notes d p.resource (d.ops.size + 1)) task.call).run = .ok (.ok [n, m]) ∧ n.isPure d = true ∧
    n.ops = [6] ∧ m.isPure d = false ∧ d.op? 20 = some o ∧ o.kind = .registerWrite ∧
    (p.starts.map fun s => s.point.candidates) = [[6], [20]] ∧ ¬ ∀ x, (∃ s ∈ p.starts, x ∈ s.point.candidates) ↔
    ∃ k ∈ [n, m].takeWhile (·.isPure d), x ∈ k.ops := by
  obtain ⟨d, hd, task, ht, regions, d', h, hr, ⟨o, ho, hk⟩, ns, hns, purity, hops⟩ :
      ∃ d, runAll gatheredCommands { name := "x" } = some d ∧ ∃ task, at? d.tasks 0 = some task ∧
      ∃ regions d', (identify task).run d = .ok (.ok regions, d') ∧
      (regions.map fun p => (p.resource, p.starts.map fun s => s.point.candidates)) = [(0, [[6], [20]])] ∧
      (∃ o, d.op? 20 = some o ∧ o.kind = .registerWrite) ∧
      ∃ ns, (notesIn d (notes d 0 (d.ops.size + 1)) task.call).run = .ok (.ok ns) ∧
      ns.map (·.isPure d) = [true, false] ∧ (ns.map Note.ops).take 1 = [[6]] := by
    decide +kernel
  obtain ⟨p, rfl, hp⟩ := map_eq_singleton_iff.mp hr
  have resource : p.resource = 0 := congrArg Prod.fst hp
  have starts : (p.starts.map fun s => s.point.candidates) = [[6], [20]] := congrArg Prod.snd hp
  obtain ⟨n, m, rfl⟩ := length_eq_two.mp (by simpa using congrArg length purity)
  simp only [map_cons, map_nil, take_succ_cons, take_zero, cons.injEq, and_true] at purity hops
  obtain ⟨pure, impure⟩ := purity
  refine ⟨d, d', task, p, n, m, o, hd, mem_of_at? ht, h,
    by rw [resource]; exact hns, pure, hops, impure, ho, hk, starts, fun same => ?_⟩
  have candidate : ∃ s ∈ p.starts, 20 ∈ s.point.candidates := by
    have : [20] ∈ p.starts.map fun s => s.point.candidates := by simp [starts]
    obtain ⟨s, hs, e⟩ := mem_map.mp this
    exact ⟨s, hs, by simp [e]⟩
  have := (same 20).mp candidate
  simp [pure, impure, hops] at this

end Region

end Datapath
