import Mathlib.Data.List.Find
import Mathlib.Data.List.Nodup
import Mathlib.Data.List.Perm.Subperm
import Datapath.Order
import Datapath.Proofs.Results

/-!
# Placing by degrees

The children of a module are placed by counting, for each, the drivers that have not been placed. The
counts stay right from scan to scan, so a scan finds the first child whose drivers have all been placed,
and the scans end with the order that `arrange` gives, or never if there is none.
-/

namespace Datapath

open List

/-! ## Graphs -/

namespace Graph

variable {g : Graph}

@[simp] theorem mem_sources : src ∈ g.sources c ↔ (src, c) ∈ g.edges := by
  simp [sources]

@[simp] theorem mem_targets : c ∈ g.targets src ↔ (src, c) ∈ g.edges := by
  simp [targets]

theorem sources_nodup (h : g.edges.Nodup) : (g.sources c).Nodup := by
  refine (h.filter _).map_on fun x hx y hy same => Prod.ext same ?_
  have hx : x.2 = c := by simpa using (mem_filter.mp hx).2
  have hy : y.2 = c := by simpa using (mem_filter.mp hy).2
  exact hx.trans hy.symm

theorem targets_nodup (h : g.edges.Nodup) : (g.targets c).Nodup := by
  refine (h.filter _).map_on fun x hx y hy same => Prod.ext ?_ same
  have hx : x.1 = c := by simpa using (mem_filter.mp hx).2
  have hy : y.1 = c := by simpa using (mem_filter.mp hy).2
  exact hx.trans hy.symm

@[simp] theorem nodes_connect : (g.connect src c).nodes = g.nodes := by
  unfold connect
  split <;> rfl

@[simp] theorem mem_connect : (a, b) ∈ (g.connect src c).edges ↔ (a, b) ∈ g.edges ∨ a = src ∧ b = c := by
  unfold connect
  split
  next there =>
    have there : (src, c) ∈ g.edges := by simpa using there
    refine ⟨.inl, ?_⟩
    rintro (h | ⟨rfl, rfl⟩)
    · exact h
    · exact there
  next => simp

theorem connect_nodup (h : g.edges.Nodup) : (g.connect src c).edges.Nodup := by
  unfold connect
  split
  next => exact h
  next new => exact nodup_append_comm.mp (h.cons (by simpa using new))

/-- What a fold over the drivers of an operation adds to a graph. -/
theorem foldl_connect (srcs : List OpId) (g : Graph) :
    (srcs.foldl (·.connect · c) g).nodes = g.nodes ∧
    (g.edges.Nodup → (srcs.foldl (·.connect · c) g).edges.Nodup) ∧
    ∀ a b, (a, b) ∈ (srcs.foldl (·.connect · c) g).edges ↔ (a, b) ∈ g.edges ∨ a ∈ srcs ∧ b = c := by
  induction srcs generalizing g with
  | nil => simp
  | cons src srcs ih =>
    obtain ⟨nodes, nodup, mem⟩ := ih (g.connect src c)
    refine ⟨nodes.trans nodes_connect, fun h => nodup (connect_nodup h), fun a b => ?_⟩
    rw [foldl_cons, mem, mem_connect, mem_cons]
    tauto

end Graph

section
variable {d : Design}

theorem graph_spec : (d.graph mod children).nodes = children ∧ (d.graph mod children).edges.Nodup ∧
    ∀ a b, (a, b) ∈ (d.graph mod children).edges ↔ b ∈ children ∧ a ∈ d.drivers mod b := by
  have fold : ∀ (l : List OpId) (g : Graph),
      let g' := l.foldl (fun g c => (d.drivers mod c).foldl (·.connect · c) g) g
      g'.nodes = g.nodes ∧ (g.edges.Nodup → g'.edges.Nodup) ∧
      ∀ a b, (a, b) ∈ g'.edges ↔ (a, b) ∈ g.edges ∨ b ∈ l ∧ a ∈ d.drivers mod b := by
    intro l
    induction l with
    | nil => simp
    | cons c l ih =>
      intro g
      obtain ⟨nodes, nodup, mem⟩ := ih ((d.drivers mod c).foldl (·.connect · c) g)
      obtain ⟨nodes', nodup', mem'⟩ := Graph.foldl_connect (c := c) (d.drivers mod c) g
      refine ⟨nodes.trans nodes', fun h => nodup (nodup' h), fun a b => ?_⟩
      rw [foldl_cons, mem, mem', mem_cons]
      constructor
      · rintro ((h | ⟨h, rfl⟩) | ⟨hb, h⟩)
        · exact .inl h
        · exact .inr ⟨.inl rfl, h⟩
        · exact .inr ⟨.inr hb, h⟩
      · rintro (h | ⟨rfl | hb, h⟩)
        · exact .inl (.inl h)
        · exact .inl (.inr ⟨h, rfl⟩)
        · exact .inr ⟨hb, h⟩
  obtain ⟨nodes, nodup, mem⟩ := fold children { nodes := children }
  exact ⟨nodes, nodup .nil, fun a b => by rw [Design.graph, mem]; simp⟩

theorem mem_graph_sources (hc : c ∈ children) : src ∈ (d.graph mod children).sources c ↔ src ∈ d.drivers mod c := by
  rw [Graph.mem_sources, graph_spec.2.2]
  exact and_iff_right hc

end

theorem arrange_congr
    (h : ∀ c ∈ pending, ∀ k, k ∈ f c ↔ k ∈ g c) : arrange f n placed pending = arrange g n placed pending := by
  induction n generalizing placed pending with
  | zero => cases pending <;> rfl
  | succ n ih =>
    cases pending with
    | nil => rfl
    | cons c pending =>
      have found : find? (fun c => (f c).all placed.contains) (c :: pending) =
          find? (fun c => (g c).all placed.contains) (c :: pending) := by
        refine find?_congr fun a ha => ?_
        rw [Bool.eq_iff_iff, all_eq_true, all_eq_true]
        exact forall_congr' fun k => imp_congr_left (h a ha k)
      simp only [arrange, found]
      split
      next => rfl
      next a _ => rw [ih fun b hb => h b (mem_of_mem_erase hb)]

theorem arrange_mono (le : n ≤ k)
    (h : arrange f n placed pending = some ids) : arrange f k placed pending = some ids := by
  induction n generalizing k placed pending ids with
  | zero =>
    cases pending with
    | nil => cases h; simp [arrange]
    | cons c pending => cases h
  | succ n ih =>
    obtain ⟨k, rfl⟩ := Nat.exists_eq_add_one_of_ne_zero (by omega : k ≠ 0)
    cases pending with
    | nil => cases h; rfl
    | cons c pending =>
      simp only [arrange] at h ⊢
      split at h
      next => cases h
      next a found =>
        obtain ⟨rest, hrest, rfl⟩ := Option.map_eq_some_iff.mp h
        rw [ih (Nat.le_of_succ_le_succ le) hrest]
        rfl

theorem arrange_graph {d : Design} :
    arrange (d.graph mod children).sources n placed children = arrange (d.drivers mod) n placed children :=
  arrange_congr fun _ hc _ => mem_graph_sources hc

/-! ## Degrees -/

namespace Placement

variable {g : Graph} {s : Placement}

theorem foldl_lower (l : List OpId) (degree : OpId → Int) (k : OpId) :
    l.foldl lower degree k = degree k - (l.count k : Nat) := by
  induction l generalizing degree with
  | nil => simp
  | cons c l ih =>
    rw [foldl_cons, ih, lower, count_cons]
    by_cases e : k = c
    · simp [e]
      omega
    · simp [e, Ne.symm e]

/-- The degrees tell how many drivers have yet to be placed. -/
structure Counts (g : Graph) (s : Placement) : Prop where
  once : s.placed.Nodup
  marked : ∀ c ∈ s.placed, s.degree c < 0
  waits : ∀ c, c ∉ s.placed → s.degree c = ((g.sources c).filter fun k => !s.placed.contains k).length

theorem Counts.start : Counts g (start g) where
  once := .nil
  marked := nofun
  waits c _ := by simp [Placement.start]

theorem Counts.ready (h : Counts g s) (c : OpId) :
    (s.degree c == 0) = (!s.placed.contains c && (g.sources c).all s.placed.contains) := by
  by_cases hc : c ∈ s.placed
  · have := h.marked c hc
    simp only [contains_eq_mem, hc, decide_true, Bool.not_true, Bool.false_and, beq_eq_false_iff_ne]
    omega
  · rw [h.waits c hc, Bool.eq_iff_iff]
    simp [hc, filter_eq_nil_iff]

theorem Counts.scan (edges : g.edges.Nodup) (h : Counts g s) (ready : children.find? (s.degree · == 0) = some c) :
    (s.scan g children).placed = s.placed ++ [c] ∧ Counts g (s.scan g children) := by
  have new : c ∉ s.placed := by
    have waits := h.ready c
    rw [find?_some ready, eq_comm, Bool.and_eq_true] at waits
    simpa using waits.1
  have scanned : s.scan g children =
      ⟨(g.targets c).foldl lower fun k => if k == c then -1 else s.degree k, s.placed ++ [c]⟩ := by
    rw [Placement.scan, ready]
  rw [scanned]
  refine ⟨rfl, nodup_append_comm.mp (h.once.cons new), fun k hk => ?_, fun k hk => ?_⟩
  · -- what has been placed is only lowered
    dsimp only at hk ⊢
    rw [foldl_lower]
    split
    · omega
    next ne =>
      have := h.marked k ((mem_append.mp hk).resolve_right (by simpa using ne))
      omega
  · -- an edge from the new one counts once for its target
    dsimp only at hk ⊢
    obtain ⟨old, ne⟩ : k ∉ s.placed ∧ k ≠ c := by simpa using hk
    have rest : (g.sources k).filter (fun j => !(s.placed ++ [c]).contains j) =
        ((g.sources k).filter fun j => !s.placed.contains j).erase c := by
      rw [((Graph.sources_nodup edges).filter _).erase_eq_filter, filter_filter]
      exact filter_congr fun j _ => by by_cases j = c <;> simp_all
    have there : c ∈ (g.sources k).filter (fun j => !s.placed.contains j) ↔ k ∈ g.targets c := by
      simp [new]
    rw [foldl_lower, if_neg (by simpa using ne), h.waits k old, rest, length_erase,
      (Graph.targets_nodup edges).count]
    simp only [there]
    split
    next mem =>
      have := length_pos_of_mem (there.mpr mem)
      omega
    next => simp

/-! ## Scans -/

theorem run_all (all : children.length ≤ s.placed.length) : s.run g children n = .ok s.placed := by
  unfold run
  rw [if_pos all]
  rfl

theorem run_zero (more : ¬ children.length ≤ s.placed.length) : s.run g children 0 = .error .endless := by
  unfold run
  rw [if_neg more]
  rfl

theorem run_succ (more : ¬ children.length ≤ s.placed.length) :
    s.run g children (n + 1) = (s.scan g children).run g children n := by
  rw [run, if_neg more]

theorem scan_stuck (stuck : children.find? (s.degree · == 0) = none) : s.scan g children = s := by
  rw [scan, stuck]

theorem run_stuck (more : ¬ children.length ≤ s.placed.length) (stuck : children.find? (s.degree · == 0) = none) :
    s.run g children n = .error .endless := by
  induction n with
  | zero => exact run_zero more
  | succ n ih => rw [run_succ more, scan_stuck stuck, ih]

theorem pending_eq_nil_iff (nodup : children.Nodup) (once : s.placed.Nodup) (sub : s.placed ⊆ children) :
    (children.filter fun c => !s.placed.contains c) = [] ↔ children.length ≤ s.placed.length := by
  have placed : (children.filter fun c => s.placed.contains c).Perm s.placed := by
    refine (perm_ext_iff_of_nodup (nodup.filter _) once).mpr fun c => ?_
    simpa using fun hc => sub hc
  have count := length_eq_length_filter_add (l := children) fun c => s.placed.contains c
  rw [placed.length_eq] at count
  rw [← length_eq_zero_iff]
  omega

section
variable (edges : g.edges.Nodup)
include edges

theorem Counts.scan_subset (h : Counts g s) (sub : s.placed ⊆ children)
    (ready : children.find? (s.degree · == 0) = some c) : (s.scan g children).placed ⊆ children := by
  rw [(h.scan edges ready).1]
  exact append_subset.mpr ⟨sub, by simpa using mem_of_find?_eq_some ready⟩

theorem run_counts (h : Counts g s) (sub : s.placed ⊆ children) (ran : s.run g children n = .ok ids) :
    ids.Nodup ∧ ids ⊆ children ∧ children.length ≤ ids.length := by
  induction n generalizing s with
  | zero =>
    by_cases all : children.length ≤ s.placed.length
    · cases (run_all all).symm.trans ran
      exact ⟨h.once, sub, all⟩
    · cases (run_zero all).symm.trans ran
  | succ n ih =>
    by_cases all : children.length ≤ s.placed.length
    · cases (run_all all).symm.trans ran
      exact ⟨h.once, sub, all⟩
    rw [run_succ all] at ran
    cases ready : children.find? (s.degree · == 0) with
    | none =>
      rw [scan_stuck ready] at ran
      exact ih h sub ran
    | some c =>
      obtain ⟨-, counts⟩ := h.scan edges ready
      exact ih counts (h.scan_subset edges sub ready) ran

/-- All children are placed only if each is listed once. -/
theorem children_nodup (ran : (start g).run g children n = .ok ids) : children.Nodup := by
  obtain ⟨once, sub, all⟩ := run_counts edges .start (nil_subset _) ran
  exact ((subperm_of_subset once sub).perm_of_length_le all).nodup_iff.mp once

theorem run_eq_arrange (nodup : children.Nodup) (h : Counts g s) (sub : s.placed ⊆ children)
    {placed : List OpId} (same : ∀ k, k ∈ placed ↔ k ∈ s.placed) (n : Nat) :
    s.run g children n = match arrange g.sources n placed (children.filter fun c => !s.placed.contains c) with
      | some ids => .ok (s.placed ++ ids)
      | none => .error .endless := by
  have all := pending_eq_nil_iff nodup h.once sub
  induction n generalizing s placed with
  | zero =>
    cases rest : children.filter fun c => !s.placed.contains c with
    | nil =>
      rw [run_all (all.mp rest)]
      simp [arrange]
    | cons b bs =>
      rw [run_zero fun h => by cases rest.symm.trans (all.mpr h)]
      rfl
  | succ n ih =>
    cases rest : children.filter fun c => !s.placed.contains c with
    | nil =>
      rw [run_all (all.mp rest)]
      simp [arrange]
    | cons b bs =>
      have more : ¬ children.length ≤ s.placed.length := fun h => by cases rest.symm.trans (all.mpr h)
      -- a scan finds the first pending child whose drivers have all been placed
      have contains : placed.contains = s.placed.contains := by
        funext k
        simp only [contains_eq_mem, same]
      have found : (b :: bs).find? (fun c => (g.sources c).all placed.contains) =
          children.find? (s.degree · == 0) := by
        rw [← rest, find?_filter, contains]
        exact find?_congr fun c _ => by rw [h.ready c]; simp
      simp only [arrange, found]
      cases ready : children.find? (s.degree · == 0) with
      | none => exact run_stuck more ready
      | some c =>
        obtain ⟨placed', counts⟩ := h.scan edges ready
        have sub' := h.scan_subset edges sub ready
        have pending : (children.filter fun k => !(s.scan g children).placed.contains k) = (b :: bs).erase c := by
          rw [← rest, placed', (nodup.filter _).erase_eq_filter, filter_filter]
          exact filter_congr fun j _ => by by_cases j = c <;> simp_all
        have same' : ∀ k, k ∈ c :: placed ↔ k ∈ (s.scan g children).placed := by simp [placed', same, or_comm]
        rw [run_succ more, ih counts sub' same' (pending_eq_nil_iff nodup counts.once sub'), pending, placed']
        dsimp only
        cases arrange g.sources n (c :: placed) ((b :: bs).erase c) <;> simp

end

end Placement

/-- The children of a module are placed in the order that `arrange` gives, or never. -/
theorem start_run_eq_arrange {d : Design} (nodup : children.Nodup) :
    (Placement.start (d.graph mod children)).run (d.graph mod children) children n =
      match arrange (d.drivers mod) n [] children with
      | some ids => .ok ids
      | none => .error .endless := by
  rw [Placement.run_eq_arrange graph_spec.2.1 nodup .start (nil_subset _) (fun _ => .rfl)]
  have all : (children.filter fun c => !(Placement.start (d.graph mod children)).placed.contains c) = children := by
    simp [Placement.start]
  rw [all, arrange_graph]
  rfl

end Datapath
