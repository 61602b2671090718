import Datapath.Proofs.FlopWalks
import Datapath.Proofs.Runs

/-!
# Counting from different starts

A timing may count from the start of the outermost module, or in every module from its own start. Where
operations are driven only from within their module, the interval of an operation counted from the
outermost start is its interval counted in its module after the start of that module, although the inputs
that are taken for the latest may differ. So a walk over a loop body that adds up the starts of modules
meets each operation at the earliest clock that it has counted from the start of the block.
-/

namespace Datapath

open List

variable {d : Design}

/-! ## Sums of intervals -/

/-- The first interval is the second one, counted from the third. -/
structure Latency.Sums (l k m : Latency) : Prop where
  min : l.min.toInt = k.min.toInt + m.min.toInt
  isOpen : l.isOpen = (k.isOpen || m.isOpen)
  max : l.isOpen = false → l.max.toInt = k.max.toInt + m.max.toInt

namespace Latency.Sums

theorem zero_left (m : Latency) : Sums m .zero m where
  min := (Int.zero_add _).symm
  isOpen := rfl
  max _ := (Int.zero_add _).symm

theorem closed (h : Sums l k m) (hl : l.isOpen = false) : k.isOpen = false ∧ m.isOpen = false := by
  simpa [h.isOpen] using hl

theorem after {x : Latency} (hx : x.Valid) (hl : l.Valid) (hk : k.Valid) (xl : x.Adds l) (xk : x.Adds k)
    (h : Sums l k m) : Sums (x.after l) (x.after k) m where
  min := by rw [after_min hx hl xl, after_min hx hk xk, h.min]; omega
  isOpen := by rw [after_isOpen hx hl, after_isOpen hx hk, h.isOpen, Bool.or_assoc]
  max := by
    intro closed
    rw [after_isOpen hx hl, Bool.or_eq_false_iff] at closed
    rw [after_max hx hl xl closed.1 closed.2, after_max hx hk xk closed.1 (h.closed closed.2).1, h.max closed.2]
    omega

theorem zero_right : Sums m n .zero ↔
    m.min.toInt = n.min.toInt ∧ m.isOpen = n.isOpen ∧ (m.isOpen = false → m.max.toInt = n.max.toInt) := by
  have min : Latency.zero.min.toInt = 0 := rfl
  have max : Latency.zero.max.toInt = 0 := rfl
  have closed : Latency.zero.isOpen = false := rfl
  constructor
  · intro h
    exact ⟨by simpa [min] using h.min, by simpa [closed] using h.isOpen, by simpa [max] using h.max⟩
  · rintro ⟨h, o, h'⟩
    exact ⟨by simpa [min] using h, by simpa [closed] using o, by simpa [max] using h'⟩

theorem flatten (hk : k.Valid) (hn : n.Valid) (h : Sums l k m) (hm : Sums m n .zero) :
    Sums l (k.after n) .zero ∧ (k.after n).Valid := by
  obtain ⟨mmin, mopen, mmax⟩ := zero_right.mp hm
  have lmin : l.min.toInt = k.min.toInt + n.min.toInt := by rw [h.min, mmin]
  have lopen : l.isOpen = (k.isOpen || n.isOpen) := by rw [h.isOpen, mopen]
  have lmax : l.isOpen = false → l.max.toInt = k.max.toInt + n.max.toInt :=
    fun closed => by rw [h.max closed, mmax (h.closed closed).2]
  have adds : k.Adds n := by
    constructor
    · have := l.min.toInt_lt
      omega
    · intro ko no
      have := l.max.toInt_lt
      have := lmax (by simp [lopen, ko, no])
      omega
  refine ⟨zero_right.mpr ⟨?_, ?_, ?_⟩, hk.after hn adds⟩
  · rw [after_min hk hn adds, lmin]
  · rw [after_isOpen hk hn, lopen]
  · intro closed
    rw [lmax closed]
    rw [lopen, Bool.or_eq_false_iff] at closed
    rw [after_max hk hn adds closed.1 closed.2]

end Latency.Sums

namespace Timing

theorem arrival_sums (hv : 0 ≤ v.minClocks.toInt) (hl : l.Valid) (hk : k.Valid)
    (vl : (⟨v.minClocks, v.minClocks, 0⟩ : Latency).Adds l) (vk : (⟨v.minClocks, v.minClocks, 0⟩ : Latency).Adds k)
    (h : l.Sums k m) : (arrival v l).Sums (arrival v k) m := by
  obtain ⟨-, lo, lmin, lmax⟩ := arrival_exact hv hl vl
  obtain ⟨-, ko, kmin, kmax⟩ := arrival_exact hv hk vk
  constructor
  · have := h.min
    omega
  · rw [lo, ko, h.isOpen]
  · intro closed
    rw [lo] at closed
    rw [lmax closed, kmax (h.closed closed).1, h.max closed]
    omega

theorem bound_shift {deps : List Dependency} {p : Latency → Int64} {g : Dependency → Latency}
    (shift : ∀ v ∈ deps, (p (f v)).toInt = (p (g v)).toInt + n) (hl : ∃ i ∈ deps.map f, p i = p l)
    (hk : ∃ i ∈ deps.map g, p i = p k)
    (h : (∀ i ∈ deps.map f, (p l).toInt ≤ (p i).toInt) ∧ (∀ i ∈ deps.map g, (p k).toInt ≤ (p i).toInt) ∨
      (∀ i ∈ deps.map f, (p i).toInt ≤ (p l).toInt) ∧ ∀ i ∈ deps.map g, (p i).toInt ≤ (p k).toInt) :
    (p l).toInt = (p k).toInt + n := by
  obtain ⟨_, hi, el⟩ := hl
  obtain ⟨_, hj, ek⟩ := hk
  obtain ⟨v, hv, rfl⟩ := mem_map.mp hi
  obtain ⟨w, hw, rfl⟩ := mem_map.mp hj
  have := shift v hv
  have := shift w hw
  have := congrArg Int64.toInt el
  have := congrArg Int64.toInt ek
  rcases h with ⟨h, h'⟩ | ⟨h, h'⟩
  · have := h _ (mem_map_of_mem hw)
    have := h' _ (mem_map_of_mem hv)
    omega
  · have := h _ (mem_map_of_mem hw)
    have := h' _ (mem_map_of_mem hv)
    omega

theorem startOf_sums {deps : List Dependency} (kind : Kind) {g : Dependency → Latency}
  (h : ∀ v ∈ deps, (f v).Sums (g v) m) :
    (startOf kind m (deps.map f)).Sums (startOf kind .zero (deps.map g)) m := by
  by_cases none : deps = []
  · subst none
    exact .zero_left m
  have hf : deps.map f ≠ [] := by simpa using none
  have hg : deps.map g ≠ [] := by simpa using none
  have ends := startOf_ends kind m hf
  have ends' := startOf_ends kind .zero hg
  have isOpen : (startOf kind m (deps.map f)).isOpen = ((startOf kind .zero (deps.map g)).isOpen || m.isOpen) := by
    rw [ends.isOpen, ends'.isOpen, Bool.eq_iff_iff]
    simp only [any_map, any_eq_true, Function.comp_apply, Bool.or_eq_true]
    constructor
    · rintro ⟨v, hv, o⟩
      rw [(h v hv).isOpen, Bool.or_eq_true] at o
      exact o.imp_left fun o => ⟨v, hv, o⟩
    · rintro (⟨v, hv, o⟩ | o)
      · exact ⟨v, hv, by simp [(h v hv).isOpen, o]⟩
      · obtain ⟨v, hv⟩ := exists_mem_of_ne_nil deps none
        exact ⟨v, hv, by simp [(h v hv).isOpen, o]⟩
  refine ⟨?_, isOpen, ?_⟩
  · have shift := fun v hv => (h v hv).min
    by_cases hk : kind = .mux
    · subst hk
      have ⟨attained, low⟩ := startOf_mux_min m hf
      have ⟨attained', low'⟩ := startOf_mux_min .zero hg
      exact bound_shift shift attained attained' (.inl ⟨low, low'⟩)
    · have ⟨attained, high⟩ := startOf_min kind m hk hf
      have ⟨attained', high'⟩ := startOf_min kind .zero hk hg
      exact bound_shift shift attained attained' (.inr ⟨high, high'⟩)
  · intro closed
    have closed' : (startOf kind .zero (deps.map g)).isOpen = false := by
      rw [isOpen, Bool.or_eq_false_iff] at closed
      exact closed.1
    have shift : ∀ v ∈ deps, (f v).max.toInt = (g v).max.toInt + m.max.toInt := by
      intro v hv
      apply (h v hv).max
      rw [ends.isOpen, any_eq_false] at closed
      simpa using closed _ (mem_map_of_mem hv)
    exact bound_shift shift (ends.attained closed) (ends'.attained closed')
      (.inr ⟨ends.upper closed, ends'.upper closed'⟩)

/-! ## Two computations side by side -/

/-- Two computations end in the same way, and if they end well their results are related. -/
inductive Abreast {α β : Type} (R : α → Timing → β → Timing → Prop) :
    Except Fault (Except Error α × Timing) → Except Fault (Except Error β × Timing) → Prop where
  | fault (e : Fault) : Abreast R (.error e) (.error e)
  | error (e : Error) (t g : Timing) : Abreast R (.ok (.error e, t)) (.ok (.error e, g))
  | ended {a : α} {t : Timing} {b : β} {g : Timing} (h : R a t b g) : Abreast R (.ok (.ok a, t)) (.ok (.ok b, g))

section
variable {α β γ δ : Type} {R : α → Timing → β → Timing → Prop} {S : γ → Timing → δ → Timing → Prop}

theorem Abreast.bind {p : Step α} {q : Step β} {k : α → Step γ} {l : β → Step δ} (h : Abreast R (p.run t) (q.run g))
    (hk : ∀ {a t' b g'}, R a t' b g' → Abreast S ((k a).run t') ((l b).run g')) :
    Abreast S ((p >>= k).run t) ((q >>= l).run g) := by
  have run : ∀ {α β : Type} (p : Step α) (k : α → Step β) (t : Timing),
      (p >>= k).run t = p.run t >>= fun x => ExceptT.bindCont k x.1 x.2 := fun _ _ _ => rfl
  rw [run, run]
  revert h
  generalize p.run t = x, q.run g = y
  intro h
  cases h with
  | fault e => exact .fault e
  | error e t g => exact .error e t g
  | ended h => exact hk h

theorem Abreast.fromQuery {Q : α → β → Prop} {q : Query α} {q' : Query β} (h : Agree Q q.run q'.run)
    (t g : Timing) :
    Abreast (fun a t' b g' => Q a b ∧ q.run = .ok (.ok a) ∧ t' = t ∧ g' = g) ((Timing.fromQuery q).run t)
      ((Timing.fromQuery q').run g) := by
  cases h with
  | fault e => exact .fault e
  | error e => exact .error e t g
  | answer h => exact .ended ⟨h, rfl, rfl, rfl⟩

theorem Abreast.op {k : Operation → Step γ} {l : Operation → Step δ}
    (h : ∀ {o}, d.op? c = some o → Abreast S ((k o).run t) ((l o).run g)) :
    Abreast S ((liftM (d.op c) >>= k : Step γ).run t) ((liftM (d.op c) >>= l : Step δ).run g) := by
  cases ho : d.op c with
  | error e => exact .fault e
  | ok o => exact h (op_ok ho)

theorem Abreast.imp {R' : α → Timing → β → Timing → Prop} {x : Except Fault (Except Error α × Timing)}
    {y : Except Fault (Except Error β × Timing)} (h : Abreast R x y) (hR : ∀ {a t b g}, R a t b g → R' a t b g) :
    Abreast R' x y := by
  cases h with
  | fault e => exact .fault e
  | error e t g => exact .error e t g
  | ended h => exact .ended (hR h)

theorem Abreast.succeeds_iff {R : Unit → Timing → Unit → Timing → Prop} (h : Abreast R x y) :
    (∃ t, x = .ok (.ok (), t)) ↔ ∃ g, y = .ok (.ok (), g) := by
  cases h with
  | fault e => simp
  | error e t g => simp
  | ended h => simp

end

/-- Two timings have timed the same operations, and the first of them has counted in every module from
its own start. -/
structure Alongside (d : Design) (mod : OpId) (base : Latency) (t g : Timing) : Prop where
  relative : t.perModule = true
  root : (mod, base) ∈ t.inputs
  started : t.started = g.started
  reached : t.reached = g.reached
  inputs : ∀ {c k}, (c, k) ∈ t.inputs → c = mod ∧ k = base ∨ ∃ (o : Operation) (times : Dependency → Latency),
    d.op? c = some o ∧ (∀ v ∈ forwardDeps d o, (v.source, times v) ∈ t.buses) ∧
    k = startOf o.kind .zero ((forwardDeps d o).map fun v => arrival v (times v))
  buses : ∀ {b k}, (b, k) ∈ t.buses → BusAt d mod t.inputs b k

theorem bus?_eq_none {t : Timing} : t.bus? b = none ↔ b ∉ t.reached := by
  unfold bus? reached
  constructor
  · intro h hb
    obtain ⟨l, hl⟩ := lookup_of_mem_keys hb
    rw [h] at hl
    cases hl
  · intro h
    cases hl : t.buses.lookup b with
    | none => rfl
    | some l => exact absurd (mem_map_of_mem (mem_of_lookup hl)) h

theorem inputOf_agree {t g : Timing} (h : t.reached = g.reached) (o : Operation) (outer outer' : Latency) :
    Agree (fun _ _ => True) (t.inputOf d o outer).run (g.inputOf d o outer').run := by
  apply Agree.bind (R := fun _ _ => True)
  · apply Agree.mapM
    intro v
    cases ht : t.bus? v.source with
    | none =>
      have hg : g.bus? v.source = none := bus?_eq_none.mpr (h ▸ bus?_eq_none.mp ht)
      rw [hg]
      exact (Agree.self _).imp fun _ => trivial
    | some l =>
      cases hg : g.bus? v.source with
      | none => rw [bus?_eq_none, ← h, ← bus?_eq_none, ht] at hg; cases hg
      | some l' => exact .answer trivial
  · exact fun _ => .answer trivial

def Onwards (d : Design) (mod : OpId) (base : Latency) (t : Timing) (_ : Unit) (t' : Timing) (_ : Unit)
    (g' : Timing) : Prop :=
  Alongside d mod base t' g' ∧ ∀ p ∈ t.inputs, p ∈ t'.inputs

theorem Alongside.start (h : Alongside d mod base t g) (l : Latency)
    (ho : d.op? c = some o) (hk : (t.inputOf d o .zero).run = .ok (.ok k)) :
    Alongside d mod base { t with inputs := (c, k) :: t.inputs } { g with inputs := (c, l) :: g.inputs } where
  relative := h.relative
  root := mem_cons_of_mem _ h.root
  started := congrArg (c :: ·) h.started
  reached := h.reached
  inputs := by
    intro c' k' hm
    rcases mem_cons.mp hm with e | hm
    · cases e
      obtain ⟨times, known, rfl⟩ := inputOf_ok hk
      exact .inr ⟨o, times, ho, fun v hv => mem_of_lookup (known v hv), rfl⟩
    · exact h.inputs hm
  buses hb := (h.buses hb).mono fun _ => mem_cons_of_mem _

theorem map_fst_busesOf (o : Operation) (k l : Latency) :
    (busesOf d o k).map Prod.fst = (busesOf d o l).map Prod.fst := by
  simp [busesOf, map_flatMap, Function.comp_def]

theorem Alongside.finish (hd : WellFormed d) (h : Alongside d mod base t g)
    (l : Latency) (hn : Nested d mod c) (ho : d.op? c = some o) (hk : (c, k) ∈ t.inputs) :
    Alongside d mod base { t with buses := busesOf d o k ++ t.buses }
        { g with buses := busesOf d o l ++ g.buses } where
  relative := h.relative
  root := h.root
  started := h.started
  reached := by
    have same : t.buses.map Prod.fst = g.buses.map Prod.fst := h.reached
    simp only [Timing.reached, map_append, same, map_fst_busesOf o k l]
  inputs := by
    intro c' k' hm
    rcases h.inputs hm with root | ⟨o', times, ho', driven, rfl⟩
    · exact .inl root
    · exact .inr ⟨o', times, ho', fun v hv => mem_append_right _ (driven v hv), rfl⟩
  buses := by
    intro b k' hm
    rcases mem_append.mp hm with hm | hm
    · exact busesOf_at hd hn ho hk hm
    · exact h.buses hm

def InsideAbreast (d : Design) (mod : OpId) (base : Latency) (n : Nat) : Prop :=
  ∀ ⦃m p⦄ outer ⦃t g⦄, Alongside d mod base t g → d.op? m = some p → Inside d mod m p →
    Abreast (Onwards d mod base t) ((inside d n m .zero).run t) ((inside d n m outer).run g)

section
variable (hd : WellFormed d)
include hd

theorem timeOne_abreast (ih : InsideAbreast d mod base n) (outer : Latency)
    (h : Alongside d mod base t g) (hn : Nested d mod c) :
    Abreast (Onwards d mod base t) ((timeOne d (inside d n) .zero c).run t)
        ((timeOne d (inside d n) outer c).run g) := by
  apply Abreast.op
  intro o ho
  apply (Abreast.fromQuery (inputOf_agree h.reached o .zero outer) t g).bind
  rintro k t' l g' ⟨-, hk, rfl, rfl⟩
  have started := h.start l ho hk
  have kept : ∀ p ∈ t'.inputs, p ∈ (c, k) :: t'.inputs := fun p hp => mem_cons_of_mem _ hp
  -- the buses follow the inside of the operation, if it has one
  have finish : ∀ {t2 g2 : Timing}, Onwards d mod base { t' with inputs := (c, k) :: t'.inputs } () t2 () g2 →
      Onwards d mod base t' () { t2 with buses := busesOf d o k ++ t2.buses } ()
        { g2 with buses := busesOf d o l ++ g2.buses } := by
    rintro t2 g2 ⟨h2, sub⟩
    exact ⟨h2.finish hd l hn ho (sub _ mem_cons_self), fun p hp => sub p (kept p hp)⟩
  split
  next inline =>
    rw [h.relative]
    apply (ih _ started ho (.inr ⟨hn, inline⟩)).bind
    exact fun h2 => .ended (finish h2)
  next => exact .ended (finish ⟨started, fun _ hp => hp⟩)

theorem timeAll_abreast (ih : InsideAbreast d mod base n) {ids : List OpId}
    (outer : Latency) (h : Alongside d mod base t g) (hn : ∀ c ∈ ids, Nested d mod c) :
    Abreast (Onwards d mod base t) ((ids.forM (timeOne d (inside d n) .zero)).run t)
        ((ids.forM (timeOne d (inside d n) outer)).run g) := by
  induction ids generalizing t g with
  | nil => exact .ended ⟨h, fun _ hp => hp⟩
  | cons c ids rest =>
    rw [forall_mem_cons] at hn
    apply (timeOne_abreast hd ih outer h hn.1).bind
    rintro _ t' _ g' ⟨h', sub⟩
    exact (rest h' hn.2).imp fun h => ⟨h.1, fun p hp => h.2 p (sub p hp)⟩

theorem inside_abreast (n : Nat) : InsideAbreast d mod base n := by
  induction n with
  | zero => exact fun _ _ _ _ _ _ _ _ => .fault _
  | succ n ih =>
    intro m p outer t g h hm inside
    apply (Abreast.fromQuery (Agree.self (d.order m)) t g).bind
    rintro ids t' ids' g' ⟨⟨hq, rfl⟩, -, rfl, rfl⟩
    obtain ⟨p', hp', perm⟩ := order_ok hq
    cases hm.symm.trans hp'
    exact timeAll_abreast hd ih outer h fun c hc => inside.nested hm (perm.mem_iff.mp hc)

theorem compute_abreast {m : Operation} (hm : d.op? mod = some m) :
    Abreast (fun _ t _ g => Alongside d mod base t g) ((compute d mod base).run .relative)
      ((compute d mod base).run .absolute) := by
  have root : Alongside d mod base { perModule := true, inputs := [(mod, base)] }
      { perModule := false, inputs := [(mod, base)] } := by
    refine ⟨rfl, mem_singleton_self _, rfl, rfl, ?_, nofun⟩
    intro c k hm
    cases mem_singleton.mp hm
    exact .inl ⟨rfl, rfl⟩
  exact (inside_abreast hd (d.ops.size + 1) base root hm (.inl rfl)).imp And.left

theorem compute_alongside (h : (compute d mod base).run .relative = .ok (.ok (), t)) :
    ∃ g, Alongside d mod base t g ∧ Timed d mod base g := by
  obtain ⟨m, hm⟩ := compute_there h
  have abreast : Abreast (fun _ t _ g => Alongside d mod base t g) _ _ := compute_abreast hd hm
  obtain ⟨g, hg⟩ := abreast.succeeds_iff.mp ⟨t, h⟩
  rw [h, hg] at abreast
  cases abreast with
  | ended along => exact ⟨g, along, compute_ok hd hg⟩

end

/-! ## How the two timings are related -/

namespace Alongside

section
variable {t : Timing} (h : Alongside d mod base t g) (hg : Timed d mod base g)
include h hg

theorem inputs_nodup : (t.inputs.map Prod.fst).Nodup := by
  have same : t.inputs.map Prod.fst = g.inputs.map Prod.fst := h.started
  rw [same]
  exact hg.trace.nodup

theorem input?_of_mem (hk : (c, k) ∈ t.inputs) : t.input? c = some k := lookup_of_mem (h.inputs_nodup hg) hk

theorem bus?_of_mem (hk : (b, k) ∈ t.buses) : t.bus? b = some k := by
  obtain ⟨k', hk'⟩ := lookup_of_mem_keys (mem_map_of_mem hk)
  obtain ⟨bus, x, input, hb, hx, -, hin, rfl⟩ := h.buses hk
  obtain ⟨bus', x', input', hb', hx', -, hin', rfl⟩ := h.buses (mem_of_lookup hk')
  cases hb.symm.trans hb'
  cases hx.symm.trans hx'
  cases (h.input?_of_mem hg hin).symm.trans (h.input?_of_mem hg hin')
  exact hk'

theorem input_of_nested (hn : Nested d mod c) : ∃ k, t.input? c = some k := by
  obtain ⟨l, hl⟩ := hg.input (.inr hn)
  have mem : c ∈ t.started := by
    rw [h.started]
    exact mem_map_of_mem (mem_of_lookup hl)
  exact lookup_of_mem_keys mem

end

end Alongside

/-- When a module starts for what lies in it: at zero where every module counts from its own start. -/
def opening? (t : Timing) (own : Bool) (m : OpId) : Option Latency := if own then some .zero else t.input? m

/-- What a timing says of the inside of a module. Every module counts from its own start, or all of them from one
start. -/
structure Settled (d : Design) (mod : OpId) (base : Latency) (own : Bool) (t : Timing) : Prop where
  root : t.input? mod = some base
  start : ∀ {c o}, Nested d mod c → d.op? c = some o → ∃ (outer : Latency) (times : Dependency → Latency),
    t.opening? own o.owner = some outer ∧ (∀ v ∈ forwardDeps d o, t.bus? v.source = some (times v)) ∧
    t.input? c = some (startOf o.kind outer ((forwardDeps d o).map fun v => arrival v (times v)))
  bus : ∀ {b l}, t.bus? b = some l → ∃ bus x input, d.bus? b = some bus ∧ d.exit? bus.exit = some x ∧
    FlowExit d mod x ∧ t.input? x.owner = some input ∧ l = x.latency.after input
  carries : ∀ {b}, FlowBus d mod b → ∃ l, t.bus? b = some l
  inside : ∀ {c l}, t.input? c = some l → c = mod ∨ Nested d mod c
  order : ∃ g, Timed d mod base g

theorem Timed.inside (ht : Timed d mod base t) (hl : c ∈ t.started) : c = mod ∨ Nested d mod c := by
  obtain ⟨⟨_, l⟩, mem, rfl⟩ := mem_map.mp hl
  rcases ht.trace.start_of_mem mem with ⟨e, -⟩ | ⟨_, _, _, hn, -⟩
  · exact .inl e
  · exact .inr hn

section
variable (hd : WellFormed d)
include hd

theorem Timed.settled (ht : Timed d mod base t) : Settled d mod base false t where
  root := ht.input_root hd
  start := by
    intro c o hn ho
    obtain ⟨l, hl⟩ := ht.input (.inr hn)
    rcases ht.trace.start_of_mem (mem_of_lookup hl) with ⟨rfl, -⟩ | ⟨o', outer, times, -, ho', owner, driven, rfl⟩
    · exact absurd (hn.lt hd) (Int.lt_irrefl _)
    cases ho.symm.trans ho'
    exact ⟨outer, times, lookup_of_mem ht.trace.nodup owner, fun v hv => ht.bus_of_at hd (driven v hv), hl⟩
  bus := by
    intro b l hl
    obtain ⟨bus, x, input, hb, hx, flow, hin, rfl⟩ := ht.busAt hl
    exact ⟨bus, x, input, hb, hx, flow, lookup_of_mem ht.trace.nodup hin, rfl⟩
  carries := ht.bus
  inside hl := ht.inside (mem_map_of_mem (mem_of_lookup hl))
  order := ⟨t, ht⟩

theorem Alongside.settled (h : Alongside d mod base t g) (hg : Timed d mod base g) : Settled d mod base true t where
  root := h.input?_of_mem hg h.root
  start := by
    intro c o hn ho
    obtain ⟨k, hk⟩ := h.input_of_nested hg hn
    rcases h.inputs (mem_of_lookup hk) with ⟨rfl, -⟩ | ⟨o', times, ho', driven, rfl⟩
    · exact absurd (hn.lt hd) (Int.lt_irrefl _)
    cases ho.symm.trans ho'
    exact ⟨.zero, times, rfl, fun v hv => h.bus?_of_mem hg (driven v hv), hk⟩
  bus := by
    intro b l hl
    obtain ⟨bus, x, input, hb, hx, flow, hin, rfl⟩ := h.buses (mem_of_lookup hl)
    exact ⟨bus, x, input, hb, hx, flow, h.input?_of_mem hg hin, rfl⟩
  carries := by
    intro b hb
    obtain ⟨l, hl⟩ := hg.bus hb
    have reached : b ∈ t.reached := h.reached ▸ mem_map_of_mem (mem_of_lookup hl)
    exact lookup_of_mem_keys reached
  inside := by
    intro c l hl
    have started : c ∈ t.started := mem_map_of_mem (mem_of_lookup hl)
    exact hg.inside (h.started ▸ started)
  order := ⟨g, hg⟩

theorem compute_settled
    (h : (compute d mod base).run { perModule := own } = .ok (.ok (), t)) : Settled d mod base own t := by
  cases own with
  | false => exact (compute_ok hd h).settled hd
  | true =>
    obtain ⟨g, along, timed⟩ := compute_alongside hd h
    exact along.settled hd timed

theorem Settled.bus_of_exit (h : Settled d mod base own t) (flow : FlowExit d mod x) (hb : b ∈ x.done :: x.buses)
    (hl : t.input? x.owner = some l) : t.bus? b = some (x.latency.after l) := by
  obtain ⟨k, hk⟩ := h.carries ⟨x, flow, hb⟩
  obtain ⟨bus, y, input, hbus, hy, -, hin, rfl⟩ := h.bus hk
  obtain ⟨bus', hbus', e⟩ := hd.bus_of_exit (flow.exit hd).2 hb
  cases hbus.symm.trans hbus'
  rw [e, (flow.exit hd).2] at hy
  cases hy
  cases hin.symm.trans hl
  exact hk

theorem Settled.valid (h : Settled d mod base own t) (hb : own = false → base.Valid)
    (hx : ∀ {x}, FlowExit d mod x → x.latency.Valid) (small : NoOverflow d mod t) :
    (∀ {c l}, Nested d mod c → t.input? c = some l → l.Valid) ∧ ∀ {b l}, t.bus? b = some l → l.Valid := by
  have apart {c} (hn : Nested d mod c) : c ≠ mod := fun e => Int.lt_irrefl _ (e ▸ hn.lt hd)
  have carried {b l} (hl : t.bus? b = some l)
      (known : ∀ src, d.busOwner? b = some src → ∀ l, t.input? src = some l → src ≠ mod → l.Valid) : l.Valid := by
    obtain ⟨bus, x, input, hbus, hexit, flow, hin, rfl⟩ := h.bus hl
    have valid := known _ (busOwner?_of_exit hbus hexit) _ hin (apart (flow.exit hd).1)
    exact (hx flow).after valid (small.exits flow hin)
  have inputs : ∀ {c l}, t.input? c = some l → c ≠ mod ∨ own = false → l.Valid := by
    intro c l hl
    obtain ⟨g, timed⟩ := h.order
    refine timed.induct (P := fun c => ∀ l, t.input? c = some l → c ≠ mod ∨ own = false → l.Valid) ?_ ?_
      (h.inside hl) l hl
    · intro l hl either
      cases h.root.symm.trans hl
      exact hb (either.resolve_left (· rfl))
    · intro c o hn ho outer drivers l hl _
      obtain ⟨start, times, opens, driven, hin⟩ := h.start hn ho
      cases hin.symm.trans hl
      have begins : start.Valid := by
        cases own with
        | false => exact outer _ opens (.inr rfl)
        | true =>
          cases opens
          decide
      refine startOf_valid _ _ begins fun l hl => ?_
      obtain ⟨v, hv, rfl⟩ := mem_map.mp hl
      have valid := carried (driven v hv) fun src hs l hl ne => drivers v hv src hs l hl (.inl ne)
      exact (arrival_exact (clocks_nonneg hd hv) valid (small.deps hn ho hv (driven v hv))).1
  exact ⟨fun hn hl => inputs hl (.inl (apart hn)), fun hl => carried hl fun _ _ _ hl ne => inputs hl (.inl ne)⟩

end

/-- Operations are driven only by operations of the same module, feedback apart. -/
def FlowsLocally (d : Design) : Prop :=
  ∀ o ∈ d.ops, ∀ v ∈ forwardDeps d o, ((d.busOwner? v.source).bind d.op?).map Operation.owner = some o.owner

instance (d : Design) : Decidable (FlowsLocally d) := inferInstanceAs (Decidable (∀ o ∈ d.ops, _))

structure Comparable (d : Design) (mod : OpId) (base : Latency) (t g : Timing) : Prop where
  wf : WellFormed d
  flows : FlowsLocally d
  valid : base.Valid
  exits : ∀ {x}, FlowExit d mod x → x.latency.Valid
  alongside : Alongside d mod base t g
  timed : Timed d mod base g
  noOverflowIn : NoOverflow d mod t
  noOverflow : NoOverflow d mod g

namespace Comparable

section
variable {t : Timing} (h : Comparable d mod base t g)
include h

theorem settled : Settled d mod base true t ∧ Settled d mod base false g :=
  ⟨h.alongside.settled h.wf h.timed, h.timed.settled h.wf⟩

theorem exit_sums (hx : FlowExit d mod x) (hl : g.input? x.owner = some l) (hk : t.input? x.owner = some k)
    (sums : l.Sums k m) : (x.latency.after l).Sums (x.latency.after k) m := by
  have nested := (hx.exit h.wf).1
  have valid := (h.settled.2.valid h.wf (fun _ => h.valid) h.exits h.noOverflow).1 nested hl
  have valid' := (h.settled.1.valid h.wf (fun _ => h.valid) h.exits h.noOverflowIn).1 nested hk
  exact sums.after (h.exits hx) valid valid' (h.noOverflow.exits hx hl) (h.noOverflowIn.exits hx hk)

theorem input (hn : Nested d mod c) (ho : d.op? c = some o) :
    ∃ l k m, g.input? c = some l ∧ t.input? c = some k ∧ g.input? o.owner = some m ∧ l.Sums k m ∧ k.Valid := by
  obtain ⟨inner, whole⟩ := h.settled
  have valid := inner.valid h.wf (fun _ => h.valid) h.exits h.noOverflowIn
  have valid' := whole.valid h.wf (fun _ => h.valid) h.exits h.noOverflow
  refine h.timed.induct (P := fun c => Nested d mod c → ∀ o, d.op? c = some o → ∃ l k m, g.input? c = some l ∧
    t.input? c = some k ∧ g.input? o.owner = some m ∧ l.Sums k m ∧ k.Valid) ?_ ?_ (.inr hn) hn o ho
  · exact fun hn => absurd (hn.lt h.wf) (Int.lt_irrefl _)
  intro c o hn ho _ drivers _ _ same
  cases ho.symm.trans same
  obtain ⟨outer, times, owner, driven, hl⟩ := whole.start hn ho
  obtain ⟨_, times', ⟨⟩, driven', hk⟩ := inner.start hn ho
  refine ⟨_, _, outer, hl, hk, owner, startOf_sums o.kind fun v hv => ?_, valid.1 hn hk⟩
  -- the operation that drives it lies in the same module
  obtain ⟨bus, x, input, hb, hx, flow, hin, e⟩ := whole.bus (driven v hv)
  obtain ⟨bus', x', input', hb', hx', -, hin', e'⟩ := inner.bus (driven' v hv)
  cases hb.symm.trans hb'
  cases hx.symm.trans hx'
  have carried := busOwner?_of_exit hb hx
  have nested := (flow.exit h.wf).1
  obtain ⟨p, hp⟩ := nested.exists_op h.wf
  obtain ⟨l, k, m, hl, hk, hm, sums, -⟩ := drivers v hv _ carried nested p hp
  cases hl.symm.trans hin
  cases hk.symm.trans hin'
  have sibling : p.owner = o.owner := by
    have := h.flows o (mem_of_at? ho) v hv
    simpa [carried, hp] using this
  cases hm.symm.trans (sibling ▸ owner)
  have sums := h.exit_sums flow hl hk sums
  rw [← e, ← e'] at sums
  exact arrival_sums (clocks_nonneg h.wf hv) (valid'.2 (driven v hv)) (valid.2 (driven' v hv))
    (h.noOverflow.deps hn ho hv (driven v hv)) (h.noOverflowIn.deps hn ho hv (driven' v hv)) sums

theorem bus (hn : Nested d mod c)
    (ho : d.op? c = some o) (hx : x ∈ d.exitsOf o) (hs : x.tag.kind ≠ .sideband) (hb : b ∈ x.done :: x.buses) :
    ∃ l k m, g.bus? b = some l ∧ t.bus? b = some k ∧ g.input? o.owner = some m ∧ l.Sums k m := by
  obtain ⟨l, k, m, hl, hk, hm, sums, -⟩ := h.input hn ho
  have flow : FlowExit d mod x := ⟨hs, c, o, hn, ho, hx⟩
  obtain ⟨rfl, -⟩ := h.wf.exitsOf ho hx
  exact ⟨_, _, m, h.settled.2.bus_of_exit h.wf flow hb hl, h.settled.1.bus_of_exit h.wf flow hb hk, hm,
    h.exit_sums flow hl hk sums⟩

end

end Comparable

end Timing

/-! ## Walks over a loop body -/

namespace Loop

section
variable {start : Latency} {visit : FlopVisit}

/-- The walk over a block comes to an operation inside the modules of the path, the last of which starts
at a latency. -/
inductive Visited (d : Design) (t : Timing) (block : OpId) : OpId → Latency → List OpId → Prop where
  | child {b : Operation} {c : OpId} (hb : d.op? block = some b) (hc : c ∈ b.children) :
      Visited d t block c .zero [block]
  | deeper {m c : OpId} {p : Operation} {start input : Latency} {path : List OpId}
    (h : Visited d t block m start path)
      (hm : d.op? m = some p) (inline : p.kind.isInlineModule = true) (driven : d.portDeps p.go ≠ .ok [])
      (hi : t.input? m = some input) (hc : c ∈ p.children) : Visited d t block c (input.after start) (path ++ [m])

theorem Visited.nested (h : Visited d t block c start path) : Nested d block c := by
  induction h with
  | child hb hc => exact .child hb hc
  | deeper _ hm inline _ _ hc ih => exact .deeper ih hm inline hc

/-- The access was noted where the walk came to it, and is in the first cycle just if it may start with
the block. -/
def Met (d : Design) (t : Timing) (block : OpId) (s : Sighting) : Prop :=
  ∃ start early, Visited d t block s.access start s.path ∧ t.input? s.access = some early ∧
    s.first = ((early.after start).min == 0)

structure Notes {α : Type} (P : Sighting → Prop) (p : FlopWalk α) : Prop where
  run : ∀ {f r g}, (∀ s ∈ f.sightings, P s) → p.run f = .ok (r, g) → ∀ s ∈ g.sightings, P s

variable {α β : Type}

theorem notes_closed (P : Sighting → Prop) : Closed FlopWalk fun {_} p => Notes P p where
  pure a := by
    constructor
    intro f r g hf h
    rw [(step_pure_run.mp h).2]
    exact hf
  bind hp hk := by
    constructor
    intro f r g hf h
    rcases step_bind_run.mp h with ⟨e, h, -⟩ | ⟨a, u, h, h'⟩
    · exact hp.run hf h
    · exact (hk a).run (hp.run hf h) h'

theorem Still.notes {p : FlopWalk α} (h : Still p) : Notes P p := by
  constructor
  intro f r g hf hr
  rw [h.run hr]
  exact hf

theorem notes_modify (hu : ∀ f, (∀ s ∈ f.sightings, P s) → ∀ s ∈ (u f).sightings, P s) :
    Notes P (modify u : FlopWalk PUnit) := by
  constructor
  intro f r g hf h
  obtain ⟨-, rfl⟩ := step_modify_run.mp h
  exact hu f hf

theorem notes_op {k : Operation → FlopWalk β} (hk : ∀ {o}, d.op? c = some o → Notes P (k o)) :
    Notes P (liftM (d.op c) >>= k) := by
  cases ho : d.op c with
  | error e =>
    constructor
    intro f r g _ h
    cases h
  | ok o => exact hk (op_ok ho)

theorem notes_inputAt {k : Latency → FlopWalk β} (hk : ∀ {l}, t.input? c = some l → Notes P (k l)) :
    Notes P (inputAt d t c >>= k) := by
  unfold inputAt
  cases hl : t.input? c with
  | some l => exact hk hl
  | none =>
    constructor
    intro f r g hf h
    rcases step_bind_run.mp h with ⟨e, h, -⟩ | ⟨a, u, h, -⟩
    · exact (still_reading.unknownLatency c).notes.run hf h
    · exact absurd h throw_not_ok

theorem notes_collide (failFast : Bool) (head tail : Sighting) : Notes P (collide d failFast head tail) := by
  apply (notes_closed P).bind
  · exact notes_modify fun _ hf => hf
  intro _
  split
  · apply (notes_closed P).bind (Still.lift _).notes
    intro _
    apply (notes_closed P).bind (Still.lift _).notes
    exact fun _ => (Still.throw _).notes
  · exact (notes_closed P).pure _

theorem notes_meet (failFast : Bool) (hs : P s) : Notes P (meet d failFast s) := by
  apply (notes_closed P).bind
  · exact Still.notes ⟨fun h => by cases h; rfl⟩
  intro f
  apply (notes_closed P).bind
  · apply (notes_closed P).forM
    intro v
    split
    · exact notes_collide ..
    split
    · exact notes_collide ..
    · exact (notes_closed P).pure _
  · intro _
    apply notes_modify
    intro g hg v hv
    rcases mem_append.mp hv with hv | hv
    · exact hg v hv
    · rw [mem_singleton.mp hv]
      exact hs

theorem notes_mark (h : ∀ last, P { key, access := c, path, first := (early.after start).min == 0, last }) :
    Notes P (mark d t failFast c key early late start path) := by
  apply (notes_closed P).bind (still_reading.isLast ..).notes
  intro last
  dsimp only
  split
  · exact (notes_closed P).pure _
  split
  · exact (notes_closed P).bind (notes_collide ..) fun _ => notes_meet _ (h last)
  · exact notes_meet _ (h last)

section
variable {t : Timing}
  (hv : ∀ c start path, Visited d t block c start path → Notes (Met d t block) (visit c start path))
include hv

theorem notes_dive {m : OpId} (h : Visited d t block m start path) (hm : d.op? m = some p)
    (inline : p.kind.isInlineModule = true) : Notes (Met d t block) (dive d t visit m start path) := by
  apply notes_op
  intro p' hm'
  cases hm.symm.trans hm'
  cases hp : d.portDeps p.go with
  | error e =>
    constructor
    intro f r g _ h
    cases h
  | ok deps =>
    show Notes _ (if deps.isEmpty then _ else _)
    split
    · exact (notes_closed _).pure _
    next some =>
      have driven : d.portDeps p.go ≠ .ok [] := by
        rw [hp]
        rintro ⟨⟩
        exact some rfl
      apply notes_inputAt
      intro input hi
      apply (notes_closed _).forM_of_mem
      exact fun c hc => hv c _ _ (h.deeper hm inline driven hi hc)

theorem notes_component (failFast : Bool) (h : Visited d t block c start path) :
    Notes (Met d t block) (flopComponent d t failFast visit c start path) := by
  apply notes_op
  intro o ho
  have marked : ∀ {key early late}, t.input? c = some early →
      Notes (Met d t block) (mark d t failFast c key early late start path) :=
    fun he => notes_mark fun _ => ⟨start, _, h, he, rfl⟩
  have spanning : ∀ {key}, Notes (Met d t block) (inputAt d t c >>= fun early =>
      doneAt d t c >>= fun late => mark d t failFast c key early late start path) :=
    fun {_} => notes_inputAt fun he => (notes_closed _).bind (still_reading.doneAt c).notes fun _ => marked he
  have stop : ∀ k : Option Label → Stop, Still (liftM (d.label c) >>= fun l => throw (k l) : FlopWalk Unit) :=
    fun _ => still_closed.bind (.lift _) fun _ => .throw _
  split
  iterate 2 exact notes_inputAt fun he => marked he
  iterate 4 exact spanning
  iterate 2 exact (notes_closed _).pure _
  next hk =>
    apply notes_inputAt
    intro early he
    apply (notes_closed _).bind (still_reading.doneAt c).notes
    intro late
    exact (notes_closed _).bind (marked he) fun _ => notes_dive hv h ho (by rw [hk]; rfl)
  · exact (stop fun l => .notAnalyzable (.taskCall l)).notes
  next ht =>
    split
    next hm => exact notes_dive hv h ho (by simpa [Kind.isInlineModule, hm] using ht)
    split
    · exact (stop fun l => .notAnalyzable (.unexpected l)).notes
    · exact (notes_closed _).pure _

end

theorem notes_visit (failFast : Bool) (n : Nat) (h : Visited d t block c start path) :
    Notes (Met d t block) (flopVisit d t failFast n c start path) := by
  induction n generalizing c start path with
  | zero =>
    constructor
    intro f r g _ h
    cases h
  | succ n ih => exact notes_component (fun c start path h => ih h) failFast h

theorem Walks.met {body : OpId} (h : Walks d body failFast block ended found)
    (ht : (Timing.compute d block .zero).run .relative = .ok (.ok (), t)) :
    ∀ s ∈ found.sightings, Met d t block s := by
  obtain ⟨-, b, x, t', hb, -, -, ht', hw⟩ := h
  cases ht.symm.trans ht'
  have walk : Notes (Met d t block)
      (b.children.forM fun c => flopVisit d t failFast (d.ops.size + 1) c .zero [block]) :=
    (notes_closed _).forM_of_mem fun c hc => notes_visit failFast _ (.child hb hc)
  exact walk.run (by simp) hw

section
variable {t : Timing} (h : Timing.Comparable d block .zero t g) (hc : Visited d t block c start path)
include h hc

theorem Visited.start_sums
    (ho : d.op? c = some o) : ∃ m, g.input? o.owner = some m ∧ m.Sums start .zero ∧ start.Valid := by
  induction hc generalizing o with
  | child hb hc =>
    obtain ⟨k, hk, own⟩ := h.wf.child hb hc
    cases ho.symm.trans hk
    refine ⟨.zero, ?_, ?_, ?_⟩
    · rw [own]
      exact h.timed.input_root h.wf
    · exact .zero_left _
    · decide
  | deeper hm hp inline _ hi hc ih =>
    obtain ⟨k, hk, own⟩ := h.wf.child hp hc
    cases ho.symm.trans hk
    obtain ⟨l, k, outer, hl, hk, houter, sums, valid⟩ := h.input hm.nested hp
    cases hi.symm.trans hk
    obtain ⟨outer', houter', flat, valid'⟩ := ih hp
    cases houter.symm.trans houter'
    rw [own]
    exact ⟨l, hl, sums.flatten valid valid' flat⟩

theorem Visited.early_eq :
    ∃ early l, t.input? c = some early ∧ g.input? c = some l ∧ (early.after start).min = l.min := by
  obtain ⟨o, ho⟩ := hc.nested.exists_op h.wf
  obtain ⟨l, early, m, hl, he, hm, sums, valid⟩ := h.input hc.nested ho
  obtain ⟨m', hm', flat, valid'⟩ := hc.start_sums h ho
  cases hm.symm.trans hm'
  have total := (Latency.Sums.zero_right.mp (sums.flatten valid valid' flat).1).1
  exact ⟨early, l, he, hl, Int64.toInt_inj.mp total.symm⟩

end

end

end Loop

section
open Timing

/-- The interval of every operation and of every bus of the ordinary flow, counted from the start of a module, is
the interval counted in its own module after the start of that one. -/
structure Timing.Splits (d : Design) (mod : OpId) (t g : Timing) : Prop where
  input : ∀ {c o}, Nested d mod c → d.op? c = some o →
    ∃ l k m, g.input? c = some l ∧ t.input? c = some k ∧ g.input? o.owner = some m ∧ l.Sums k m
  bus : ∀ {c o x b}, Nested d mod c → d.op? c = some o → x ∈ d.exitsOf o → x.tag.kind ≠ .sideband →
    b ∈ x.done :: x.buses →
    ∃ l k m, g.bus? b = some l ∧ t.bus? b = some k ∧ g.input? o.owner = some m ∧ l.Sums k m
  timed : ∀ b, t.bus? b = none ↔ g.bus? b = none

theorem comparable_of_computed (hd : WellFormed d) (flows : FlowsLocally d) (hx : ∀ x ∈ d.exits, x.latency.Valid)
    {m : Operation} (hm : d.op? mod = some m) (hb : base.Valid)
    (ht : (compute d mod base).run .relative = .ok (.ok (), t))
    (hg : (compute d mod base).run .absolute = .ok (.ok (), g)) (ot : NoOverflow d mod t)
    (og : NoOverflow d mod g) : Comparable d mod base t g where
  wf := hd
  flows := flows
  valid := hb
  exits flow := hx _ (mem_of_at? (flow.exit hd).2)
  alongside := by
    have h : Abreast (fun _ t _ g => Alongside d mod base t g) _ _ := compute_abreast hd hm
    rw [ht, hg] at h
    cases h with
    | ended h => exact h
  timed := compute_ok hd hg
  noOverflowIn := ot
  noOverflow := og

/-- In a design whose operations are driven from within their modules, it makes no difference for when
things happen whether a timing counts from the outermost start or in every module from its own. A walk
over a loop body that adds up the starts of modules therefore takes an access to be in the first cycle
just if it may start with the block. -/
theorem relative_timing_agrees (hd : WellFormed d) (flows : FlowsLocally d) (hx : ∀ x ∈ d.exits, x.latency.Valid) :
    (∀ mod m base, d.op? mod = some m → base.Valid → ((∃ t, (compute d mod base).run .relative = .ok (.ok (), t)) ↔
        ∃ g, (compute d mod base).run .absolute = .ok (.ok (), g)) ∧
      ∀ t g, (compute d mod base).run .relative = .ok (.ok (), t) →
        (compute d mod base).run .absolute = .ok (.ok (), g) → NoOverflow d mod t → NoOverflow d mod g →
        Splits d mod t g) ∧ ∀ body failFast block ended found t g, Loop.Walks d body failFast block ended found →
      (compute d block .zero).run .relative = .ok (.ok (), t) →
      (compute d block .zero).run .absolute = .ok (.ok (), g) → NoOverflow d block t → NoOverflow d block g →
      (∀ c start path, Loop.Visited d t block c start path →
        ∃ early l, t.input? c = some early ∧ g.input? c = some l ∧ (early.after start).min = l.min) ∧
      ∀ s ∈ found.sightings, Loop.Met d t block s ∧ ∃ l, g.input? s.access = some l ∧ s.first = (l.min == 0) := by
  constructor
  · intro mod m base hm hb
    refine ⟨(compute_abreast hd hm).succeeds_iff, fun t g ht hg ot og => ?_⟩
    have h := comparable_of_computed hd flows hx hm hb ht hg ot og
    constructor
    · intro c o hn ho
      obtain ⟨l, k, m, hl, hk, hm, sums, -⟩ := h.input hn ho
      exact ⟨l, k, m, hl, hk, hm, sums⟩
    · exact h.bus
    · intro b
      rw [bus?_eq_none, bus?_eq_none, h.alongside.reached]
  · intro body failFast block ended found t g walks ht hg ot og
    obtain ⟨-, b, -, -, hb, -⟩ := id walks
    have h := comparable_of_computed hd flows hx hb (by decide) ht hg ot og
    refine ⟨fun c start path hc => hc.early_eq h, fun s hs => ⟨walks.met ht s hs, ?_⟩⟩
    obtain ⟨start, early, hc, he, first⟩ := walks.met ht s hs
    obtain ⟨early', l, he', hl, same⟩ := hc.early_eq h
    cases he.symm.trans he'
    exact ⟨l, hl, by rw [first, same]⟩

/-- A loop whose block runs another block after an operation of one to three clocks. In there an access
waits for an operation without an upper bound. -/
def nestedCommands : List Command :=
  [.newResource .memory "x" false, .newLoop absent "l" 0 0 .zero, .setLatency 11 .one,
   .newPrimitive .op 11 "p" 0 0 ⟨1, 3, 0⟩, .newBlock 11 "n" 0 0 .one, .start 16 13,
   .newPrimitive .op 16 "q" 0 0 ⟨2, unknown, 7⟩, .newAccess .memoryRead 16 "a" 0 .zero, .start 20 16]

/-- The access starts two clocks after its block, which starts one clock after the outer one. -/
theorem nested_access_agrees : ∃ d t g found, runAll nestedCommands { name := "x" } = some d ∧
    (compute d 11 .zero).run .relative = .ok (.ok (), t) ∧ (compute d 11 .zero).run .absolute = .ok (.ok (), g) ∧
    t.input? 20 = some ⟨2, unknown, 7⟩ ∧ g.input? 20 = some ⟨3, unknown, 7⟩ ∧ Splits d 11 t g ∧
    Loop.Walks d 3 false 11 (.ok ()) found ∧ found.sightings = [⟨.resource 0, 20, [11, 16], false, true⟩] ∧
    ∃ start, Loop.Visited d t 11 20 start [11, 16] ∧ ((⟨2, unknown, 7⟩ : Latency).after start).min = 3 := by
  obtain ⟨d, hd, bd, hbd, loop, body, b, hb, x, hx, min, ⟨⟩, t, ht, ⟨⟩, g, hg, ⟨⟩, found, hw, flows, valid, ot, og,
      it, ig, seen⟩ : ∃ d, runAll nestedCommands { name := "x" } = some d ∧
      ∃ bd, d.op? 3 = some bd ∧ bd.kind.isLoopBody = true ∧ bd.body = 11 ∧ ∃ b, d.op? 11 = some b ∧
      ∃ x, d.mainExit? b = some x ∧ ¬ x.latency.min ≤ 0 ∧ ∃ u t,
      (compute d 11 .zero).run .relative = .ok (.ok u, t) ∧ ∃ u g,
      (compute d 11 .zero).run .absolute = .ok (.ok u, g) ∧ ∃ u found,
      (b.children.forM fun c => Loop.flopVisit d t false (d.ops.size + 1) c .zero [11] : Loop.FlopWalk PUnit).run
      {} =
        .ok (.ok u, found) ∧
      FlowsLocally d ∧ (∀ x ∈ d.exits, x.latency.Valid) ∧ isSmall d t = true ∧ isSmall d g = true ∧
      t.input? 20 = some ⟨2, unknown, 7⟩ ∧ g.input? 20 = some ⟨3, unknown, 7⟩ ∧
      found.sightings = [⟨.resource 0, 20, [11, 16], false, true⟩] := by
    set_option synthInstance.maxSize 100000 in decide +kernel
  have wf := ((Built.empty "x").runAll hd).wellFormed
  have ⟨split, walk⟩ := relative_timing_agrees wf flows valid
  have smallt : NoOverflow d 11 t := noOverflow_of_isSmall wf ot
  have smallg : NoOverflow d 11 g := noOverflow_of_isSmall wf og
  have walks : Loop.Walks d 3 false 11 (.ok ()) found :=
    ⟨⟨bd, hbd, loop, by decide, body⟩, b, x, t, hb, hx, min, ht, hw⟩
  obtain ⟨early, met⟩ := walk 3 false 11 (.ok ()) found t g walks ht hg smallt smallg
  obtain ⟨⟨start, _, visited, -⟩, -⟩ := met _ (by rw [seen]; exact mem_singleton_self _)
  obtain ⟨k, l, hk, hl, same⟩ := early 20 start [11, 16] visited
  cases hk.symm.trans it
  cases hl.symm.trans ig
  exact ⟨d, t, g, found, hd, ht, hg, it, ig, (split 11 b .zero hb (by decide)).2 t g ht hg smallt smallg, walks,
    seen, start, visited, same⟩

end

end Datapath
