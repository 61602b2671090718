import Datapath.Proofs.Acyclic
import Datapath.Proofs.Totality

/-!
# The schedule order of a module

The schedule order of a module exists exactly when its children do not drive each other in a circle,
and is then the greedy one. Otherwise the design is rejected at the module.
-/

namespace Datapath

open List

variable {d : Design}

/-! ## Sorting -/

namespace Graph

def Leads (g : Graph) : OpId → OpId → Prop := Relation.TransGen fun a b => (a, b) ∈ g.edges

/-- Two nodes lead to each other. -/
def Tangled (g : Graph) : Prop := ∃ a b, a ≠ b ∧ g.Leads a b ∧ g.Leads b a

/-- The edges join different nodes of the graph, and nothing is listed twice. -/
structure Simple (g : Graph) : Prop where
  nodes : g.nodes.Nodup
  edges : g.edges.Nodup
  ends : ∀ {a b}, (a, b) ∈ g.edges → a ∈ g.nodes ∧ b ∈ g.nodes
  apart : ∀ {a b}, (a, b) ∈ g.edges → a ≠ b

variable {g : Graph} (h : g.Simple)
include h

theorem Simple.arranges (free : ¬ g.Tangled) : ∃ ids, arrange g.sources g.nodes.length [] g.nodes = some ids := by
  classical
  let above (c : OpId) : Finset OpId := {j ∈ g.nodes.toFinset | g.Leads j c}
  refine arrange_total (fun c => (above c).card) (Nat.le_refl _) fun c _ k hk => ?_
  have edge := mem_sources.mp hk
  refine ⟨.inr (h.ends edge).1, Finset.card_lt_card (Finset.ssubset_iff_subset_ne.mpr ⟨?_, ?_⟩)⟩
  · intro j hj
    obtain ⟨there, path⟩ := Finset.mem_filter.mp hj
    exact Finset.mem_filter.mpr ⟨there, path.tail edge⟩
  · intro same
    have hk : k ∈ above c := Finset.mem_filter.mpr ⟨mem_toFinset.mpr (h.ends edge).1, .single edge⟩
    rw [← same] at hk
    have circle : g.Leads k k := (Finset.mem_filter.mp hk).2
    cases circle with
    | single loop => exact h.apart loop rfl
    | tail path last => exact free ⟨_, _, h.apart last, .single last, path⟩

theorem Simple.arranged_iff : (∃ ids, arrange g.sources g.nodes.length [] g.nodes = some ids) ↔ ¬ g.Tangled := by
  refine ⟨?_, h.arranges⟩
  rintro ⟨ids, arranged⟩ ⟨a, b, -, there, back⟩
  -- along a path the places in the order grow
  have grows : ∀ {b}, g.Leads a b → ids.idxOf a < ids.idxOf b := by
    have step : ∀ {j k}, (j, k) ∈ g.edges → ids.idxOf j < ids.idxOf k := by
      intro j k edge
      obtain ⟨before, after, rfl, new⟩ :=
        eq_append_cons_of_mem ((arrange_perm arranged).mem_iff.mpr (h.ends edge).2)
      have placed : j ∈ before := (arrange_after arranged j (mem_sources.mpr edge)).resolve_left nofun
      rw [idxOf_append_of_mem placed, idxOf_append_of_notMem new, idxOf_cons_self]
      exact idxOf_lt_length_of_mem placed
    intro b path
    induction path with
    | single edge => exact step edge
    | tail _ edge ih => exact Nat.lt_trans ih (step edge)
  exact Nat.lt_irrefl _ (grows (there.trans back))

end Graph

/-- What is assumed of a topological sort: it fails on exactly the graphs in which two nodes lead to each other. -/
def Sorter.DetectsCycles (sort : Sorter) : Prop :=
  ∀ g : Graph, g.Simple → ((∃ groups, sort g = .error groups) ↔ g.Tangled)

theorem topoSort_detectsCycles : topoSort.DetectsCycles := by
  intro g simple
  have arranged := simple.arranged_iff
  unfold topoSort
  split
  next ids sorted => exact ⟨nofun, fun tangled => absurd tangled (arranged.mp ⟨ids, sorted⟩)⟩
  next stuck =>
    refine ⟨fun _ => ?_, fun _ => ⟨_, rfl⟩⟩
    by_contra free
    obtain ⟨ids, sorted⟩ := arranged.mpr free
    cases stuck.symm.trans sorted

/-! ## Drivers -/

/-- A child of a module drives another one, outside the feedback path. -/
structure Drives (d : Design) (mod src c : OpId) : Prop where
  siblings : ∃ m, d.op? mod = some m ∧ src ∈ m.children ∧ c ∈ m.children
  distinct : src ≠ c
  fed : ∃ o e v, d.op? c = some o ∧ e ∈ d.entriesOf o ∧ e.feedback = false ∧ v ∈ d.depsOf e ∧
    d.busOwner? v.source = some src

def Circular (d : Design) (mod : OpId) : Prop := ∃ c, Relation.TransGen (Drives d mod) c c

section
variable (hd : WellFormed d)
include hd

theorem mem_drivers_iff (hm : d.op? mod = some m) (hc : c ∈ m.children) :
    src ∈ d.drivers mod c ↔ Drives d mod src c := by
  constructor
  · intro h
    obtain ⟨hsrc, o, v, ho, hv, carried, ne⟩ := driver_child hd hm h
    obtain ⟨e, he, hv⟩ := mem_flatMap.mp hv
    obtain ⟨he, forward⟩ := mem_filter.mp he
    exact ⟨⟨m, hm, hsrc, hc⟩, ne, o, e, v, ho, he, by simpa using forward, hv, carried⟩
  · rintro ⟨⟨m', hm', hsrc, -⟩, ne, o, e, v, ho, he, forward, hv, carried⟩
    cases hm.symm.trans hm'
    obtain ⟨s, hs, own⟩ := hd.child hm hsrc
    unfold Design.drivers
    rw [ho]
    simp only [mem_filter, mem_filterMap, mem_flatMap]
    exact ⟨⟨v, ⟨e, ⟨he, by simp [forward]⟩, hv⟩, carried⟩, by simp [ne, hs, own]⟩

theorem graph_simple (hm : d.op? mod = some m) : (d.graph mod m.children).Simple where
  nodes := by
    rw [graph_spec.1]
    exact hd.children_nodup hm
  edges := graph_spec.2.1
  ends {a b} h := by
    rw [graph_spec.1]
    obtain ⟨hb, ha⟩ := (graph_spec.2.2 a b).mp h
    exact ⟨(driver_child hd hm ha).1, hb⟩
  apart {a b} h := by
    obtain ⟨-, ha⟩ := (graph_spec.2.2 a b).mp h
    obtain ⟨-, -, -, -, -, -, ne⟩ := driver_child hd hm ha
    exact ne

theorem drives_iff (hm : d.op? mod = some m) : (src, c) ∈ (d.graph mod m.children).edges ↔ Drives d mod src c := by
  rw [graph_spec.2.2]
  constructor
  · exact fun ⟨hc, h⟩ => (mem_drivers_iff hd hm hc).mp h
  · intro h
    obtain ⟨m', hm', -, hc⟩ := h.siblings
    cases hm.symm.trans hm'
    exact ⟨hc, (mem_drivers_iff hd hm hc).mpr h⟩

/-- Children that drive each other in a circle are two at least. -/
theorem circular_iff_tangled (hm : d.op? mod = some m) : Circular d mod ↔ (d.graph mod m.children).Tangled := by
  have leads : (d.graph mod m.children).Leads = Relation.TransGen (Drives d mod) := by
    unfold Graph.Leads
    congr
    funext a b
    exact propext (drives_iff hd hm)
  unfold Graph.Tangled
  rw [leads]
  constructor
  · rintro ⟨c, circle⟩
    cases circle with
    | single h => exact absurd rfl h.distinct
    | tail path h => exact ⟨_, _, h.distinct, .single h, path⟩
  · rintro ⟨a, b, -, there, back⟩
    exact ⟨a, there.trans back⟩

theorem order_iff_not_circular (hm : d.op? mod = some m) :
    (∃ ids, (d.order mod).run = .ok (.ok ids)) ↔ ¬ Circular d mod := by
  rw [circular_iff_tangled hd hm, ← (graph_simple hd hm).arranged_iff, graph_spec.1, arrange_graph]
  refine exists_congr fun ids => order_ok_iff.trans ⟨?_, fun h => ⟨m, hm, hd.children_nodup hm, h⟩⟩
  rintro ⟨m', hm', -, h⟩
  cases hm.symm.trans hm'
  exact h

end

/-! ## The choice at every position -/

theorem erase_before (ne : c ≠ a) (skipped rest : List OpId) :
    ∃ skipped' rest', (skipped ++ c :: rest).erase a = skipped' ++ c :: rest' ∧ ∀ k ∈ skipped, k ≠ a →
      k ∈ skipped' := by
  by_cases ha : a ∈ skipped
  · exact ⟨skipped.erase a, rest, erase_append_left _ ha, fun k hk hne => (mem_erase_of_ne hne).mpr hk⟩
  · refine ⟨skipped, rest.erase a, ?_, fun k hk _ => hk⟩
    rw [erase_append_right _ ha, erase_cons_tail (by simpa using ne)]

theorem arrange_first {after : List OpId} (h : arrange drivers n placed pending = some (before ++ c :: after))
    (nodup : pending.Nodup) (split : pending = skipped ++ c :: rest) :
    ∀ k ∈ skipped, k ∈ before ∨ ∃ j ∈ drivers k, j ∉ placed ∧ j ∉ before := by
  induction n generalizing placed pending before skipped rest with
  | zero => cases pending <;> simp [arrange] at h
  | succ n ih =>
    cases pending with
    | nil => simp [arrange] at h
    | cons p pending =>
      simp only [arrange] at h
      split at h
      next => cases h
      next a ha =>
        obtain ⟨tail, htail, e⟩ := Option.map_eq_some_iff.mp h
        cases before with
        | nil =>
          -- the operation is the first one that waits for nothing
          cases e
          obtain ⟨-, as, bs, found, waiting⟩ := find?_eq_some_iff_append.mp ha
          rw [found] at split nodup
          obtain ⟨-, new, apart⟩ := nodup_append.mp nodup
          have same : as = skipped := by
            refine ((append_cons_inj_of_notMem ?_ (nodup_cons.mp new).1).mp split).1
            exact fun mem => apart _ mem _ mem_cons_self rfl
          intro k hk
          have := waiting k (same ▸ hk)
          exact .inr (by simpa using this)
        | cons b before =>
          cases e
          have new : a ∉ (p :: pending).erase a := nodup.not_mem_erase
          have ne : c ≠ a := by
            rintro rfl
            exact new ((arrange_perm htail).mem_iff.mp (by simp))
          obtain ⟨skipped', rest', split', kept⟩ := erase_before ne skipped rest
          intro k hk
          by_cases e : k = a
          · exact .inl (e ▸ mem_cons_self)
          rcases ih htail (nodup.erase a) (split ▸ split') k (kept k hk e) with there | ⟨j, hj, out, out'⟩
          · exact .inl (mem_cons_of_mem _ there)
          · refine .inr ⟨j, hj, fun mem => out (mem_cons_of_mem _ mem), fun mem => ?_⟩
            rcases mem_cons.mp mem with rfl | mem
            · exact out mem_cons_self
            · exact out' mem

/-- The order in which each time the operation that is listed first goes next, of those that have not been placed
and whose drivers all have been. -/
structure Greedy (drives : OpId → OpId → Prop) (children ids : List OpId) : Prop where
  perm : ids.Perm children
  after : ∀ {before c rest}, ids = before ++ c :: rest → ∀ src, drives src c → src ∈ before
  first : ∀ {before c rest}, ids = before ++ c :: rest → ∀ k ∈ children, k ∉ before →
    (∀ src, drives src k → src ∈ before) → children.idxOf c ≤ children.idxOf k

theorem arrange_greedy (hd : WellFormed d) (hm : d.op? mod = some m)
    (arranged : arrange (d.drivers mod) m.children.length [] m.children = some ids) :
    Greedy (Drives d mod) m.children ids := by
  have perm := arrange_perm arranged
  constructor
  · exact perm
  · rintro before c rest rfl src h
    have driver := (mem_drivers_iff hd hm (perm.mem_iff.mp (by simp))).mpr h
    exact (arrange_after arranged src driver).resolve_left nofun
  · rintro before c rest rfl k hk out ready
    obtain ⟨skipped, tail, split, new⟩ :=
      eq_append_cons_of_mem (perm.mem_iff.mp (show c ∈ before ++ c :: rest by simp))
    have late : k ∉ skipped := by
      intro mem
      rcases arrange_first arranged (hd.children_nodup hm) split k mem with there | ⟨j, hj, -, waits⟩
      · exact out there
      · exact waits (ready j ((mem_drivers_iff hd hm hk).mp hj))
    rw [split, idxOf_append_of_notMem new, idxOf_cons_self, idxOf_append_of_notMem late]
    exact Nat.le_add_right _ _

/-! ## The order of creation -/

structure Aged (d : Design) : Prop where
  ascending : ∀ {i l}, view d.ops Operation.children i = some l → l.Pairwise (· < ·)
  there : ∀ {i l}, view d.ops Operation.children i = some l → ∀ c ∈ l, c < d.ops.size

section
variable {d' : Design}

theorem Aged.same (hd : Aged d) (nest : view d'.ops Operation.nest = view d.ops Operation.nest)
    (size : d'.ops.size = d.ops.size) : Aged d' := by
  have children : view d'.ops Operation.children = view d.ops Operation.children := view_comp Prod.snd nest
  constructor
  · intro i l hl
    exact hd.ascending (children ▸ hl)
  · intro i l hl
    rw [size]
    exact hd.there (children ▸ hl)

theorem Aged.addOp (hd : Aged d) {id : OpId} (h : addOp kind owner name d = .ok (id, d')) : Aged d' := by
  obtain ⟨-, -, rfl⟩ := addOp_ok h
  -- a list of children stays, is new and empty, or is one of these and gets the new operation at its end
  have listed : ∀ {i l}, view (editAt (d.ops.push { id := d.ops.size, kind, name, owner, go := d.ports.size }) owner
      fun m => { m with children := m.children ++ [(d.ops.size : Int)] }) Operation.children i = some l →
      ∃ old, (old = [] ∨ view d.ops Operation.children i = some old) ∧
      (l = old ∨ l = old ++ [(d.ops.size : Int)]) := by
    intro i l hl
    have pushed : ∀ {o}, at? (d.ops.push { id := d.ops.size, kind, name, owner, go := d.ports.size }) i = some o →
        o.children = [] ∨ view d.ops Operation.children i = some o.children := by
      intro o ho
      rw [at?_push] at ho
      split at ho
      · cases ho
        exact .inl rfl
      · exact .inr (view_of _ ho)
    obtain ⟨o, ho, rfl⟩ := view_some.mp hl
    rw [at?_editAt] at ho
    split at ho
    · obtain ⟨o', ho', rfl⟩ := Option.map_eq_some_iff.mp ho
      exact ⟨o'.children, pushed ho', .inr rfl⟩
    · exact ⟨o.children, pushed ho, .inl rfl⟩
  have old : ∀ {i} {l : List OpId}, l = [] ∨ view d.ops Operation.children i = some l →
      l.Pairwise (· < ·) ∧ ∀ c ∈ l, c < d.ops.size := by
    rintro i l (rfl | hl)
    · exact ⟨.nil, nofun⟩
    · exact ⟨hd.ascending hl, hd.there hl⟩
  constructor
  · intro i l hl
    obtain ⟨l', hl', rfl | rfl⟩ := listed hl
    · exact (old hl').1
    · refine pairwise_append.mpr ⟨(old hl').1, pairwise_singleton .., fun c hc k hk => ?_⟩
      rw [mem_singleton.mp hk]
      exact (old hl').2 c hc
  · intro i l hl c hc
    have size : (d.ops.size : Int) <
      (d.ops.push { id := d.ops.size, kind, name, owner, go := d.ports.size }).size := by
      rw [Array.size_push]
      omega
    simp only [size_editAt]
    obtain ⟨l', hl', rfl | rfl⟩ := listed hl
    · exact Int.lt_trans ((old hl').2 c hc) size
    · rcases mem_append.mp hc with hc | hc
      · exact Int.lt_trans ((old hl').2 c hc) size
      · rw [mem_singleton.mp hc]
        exact size

theorem Aged.nests : Nests fun d d' => Aged d → Aged d' where
  refl _ hd := hd
  trans h h' hd := h' (h hd)
  same nest size hd := hd.same nest size
  op := ⟨fun h hd => hd.addOp h⟩

end

theorem Built.aged (h : Built d) : Aged d := by
  induction h with
  | empty name =>
    constructor
    all_goals
      intro i l hl
      rw [view_empty] at hl
      cases hl
  | step c _ _ ran ih => exact (Aged.nests.run c).run ran ih

/-! ## The result -/

/-- With any topological sort that detects cycles, the order of a module fails with an error at the module exactly
when its children drive each other in a circle. Otherwise the scans of the children end, however many are allowed
beyond their number, and give the greedy order. Children are listed in the order of their creation. -/
theorem schedule_order_is_greedy {sort : Sorter} (detects : sort.DetectsCycles) {d : Design} (hd : WellFormed d)
    {mod : OpId} {m : Operation} (hm : d.op? mod = some m) :
    ((∃ s groups, (d.orderBy sort mod).run = .ok (.error (.malformed (some s) (.cycle groups))) ∧
          s.node = m.label) ↔
      Circular d mod) ∧
    (¬ Circular d mod → ∃ ids, (d.orderBy sort mod).run = .ok (.ok ids) ∧ Greedy (Drives d mod) m.children ids ∧
      ∀ n, m.children.length ≤ n →
        (Placement.start (d.graph mod m.children)).run (d.graph mod m.children) m.children n = .ok ids) ∧
    (Built d → m.children.Pairwise (· < ·)) := by
  have nodup := hd.children_nodup hm
  have fails := detects _ (graph_simple hd hm)
  rw [← circular_iff_tangled hd hm] at fails
  have ordered : ¬ Circular d mod → ∃ ids, (d.orderBy sort mod).run = .ok (.ok ids) ∧
      arrange (d.drivers mod) m.children.length [] m.children = some ids := by
    intro free
    obtain ⟨ids, order⟩ := (order_iff_not_circular hd hm).mpr free
    obtain ⟨m', hm', -, arranged⟩ := order_ok_iff.mp order
    cases hm.symm.trans hm'
    have sorted : ∃ l, sort (d.graph mod m.children) = .ok l := by
      cases sorted : sort (d.graph mod m.children) with
      | ok l => exact ⟨l, rfl⟩
      | error groups => exact absurd (fails.mp ⟨groups, sorted⟩) free
    exact ⟨ids, orderBy_ok_iff.mpr ⟨m, hm, sorted, nodup, arranged⟩, arranged⟩
  refine ⟨⟨?_, fun circle => ?_⟩, fun free => ?_, fun built => built.aged.ascending (view_of _ hm)⟩
  · rintro ⟨s, groups, failed, -⟩
    by_contra free
    obtain ⟨ids, order, -⟩ := ordered free
    cases failed.symm.trans order
  · obtain ⟨groups, failed⟩ := fails.mpr circle
    obtain ⟨s, rejected, node⟩ := orderBy_of_error hd hm failed
    exact ⟨s, groups, rejected, node⟩
  · obtain ⟨ids, order, arranged⟩ := ordered free
    refine ⟨ids, order, arrange_greedy hd hm arranged, fun n le => ?_⟩
    rw [start_run_eq_arrange nodup, arrange_mono le arranged]

def lateCommands : List Command :=
  [.newTask "t" 1 1 .one true, .newPrimitive .op 3 "a" 0 0 .one, .newPrimitive .op 3 "b" 0 0 .one,
   .newPrimitive .op 3 "c" 0 0 .one, .start 6 10, .finish 3 .done 6]

theorem late_order_is_greedy :
    (∃ d m, runAll lateCommands { name := "x" } = some d ∧ d.op? 3 = some m ∧ m.children = [4, 5, 6, 7, 8] ∧
      (d.order 3).run = .ok (.ok [4, 7, 8, 6, 5]) ∧ Greedy (Drives d 3) m.children [4, 7, 8, 6, 5]) ∧
    ∃ d, runAll (lateCommands ++ [.start 8 8]) { name := "x" } = some d ∧ Circular d 3 := by
  constructor
  · obtain ⟨d, hd, m, hm, children, order⟩ : ∃ d, runAll lateCommands { name := "x" } = some d ∧ ∃ m,
        d.op? 3 = some m ∧ m.children = [4, 5, 6, 7, 8] ∧ (d.order 3).run = .ok (.ok [4, 7, 8, 6, 5]) := by
      decide +kernel
    have built := (Built.empty "x").runAll hd
    obtain ⟨-, greedy, -⟩ := schedule_order_is_greedy topoSort_detectsCycles built.wellFormed hm
    obtain ⟨ids, order', h, -⟩ := greedy ((order_iff_not_circular built.wellFormed hm).mp ⟨_, order⟩)
    cases order.symm.trans order'
    exact ⟨d, m, hd, hm, children, order, h⟩
  · obtain ⟨d, hd, m, hm, label, failed⟩ : ∃ d, runAll (lateCommands ++ [.start 8 8]) { name := "x" } = some d ∧
        ∃ m, d.op? 3 = some m ∧ m.label = ⟨"t.body", .block, 3⟩ ∧
        (d.order 3).run = .ok (.error (.malformed (some ⟨⟨"t.body", .block, 3⟩, [⟨"t", .call, 0⟩]⟩)
        (.cycle [[6, 8]]))) := by
      decide +kernel
    have built := (Built.empty "x").runAll hd
    obtain ⟨circular, -⟩ := schedule_order_is_greedy topoSort_detectsCycles built.wellFormed hm
    exact ⟨d, hd, circular.mp ⟨_, _, failed, label.symm⟩⟩

end Datapath
