import Datapath.Proofs.Commands
import Datapath.Proofs.Intervals
import Datapath.Proofs.TimingTrace

/-!
# Runs of a module

In a run every operation starts at one time and every exit takes one delay. A timing computed for a
module says, as far as an interval can, when things happen in the runs of the module: every time of
every run lies in its interval, and both bounds of all intervals are attained at once.
-/

namespace Datapath

open List

structure Run where
  start : OpId → Int
  delay : ExitId → Int

namespace Run

def busTime (r : Run) (d : Design) (b : BusId) : Int :=
  match d.bus? b with
  | none => 0
  | some bus =>
    match d.exit? bus.exit with
    | none => 0
    | some x => r.start x.owner + r.delay bus.exit

def arrival (r : Run) (d : Design) (v : Dependency) : Int := r.busTime d v.source + v.minClocks.toInt

end Run

/-- When an operation can start: with its owner if nothing drives it, with any one of its drivers if
it is a mux and with the last of them otherwise. -/
def CanStart (kind : Kind) (outer : Int) (arrivals : List Int) (s : Int) : Prop :=
  if arrivals = [] then s = outer
  else if kind = .mux then s ∈ arrivals
  else s ∈ arrivals ∧ ∀ a ∈ arrivals, a ≤ s

/-- The runs of a module that starts within `base`. -/
structure IsRun (d : Design) (mod : OpId) (base : Latency) (r : Run) : Prop where
  first : base.Contains (r.start mod)
  delays : ∀ {x}, FlowExit d mod x → x.latency.Contains (r.delay x.id)
  starts : ∀ {c o}, Nested d mod c → d.op? c = some o →
    CanStart o.kind (r.start o.owner) ((Timing.forwardDeps d o).map (r.arrival d)) (r.start c)

/-! ## Starts -/

namespace Timing

section
variable (kind : Kind) (outer : Latency)

theorem startOf_cases (hne : ls ≠ []) : kind = .mux ∧ startOf kind outer ls = .anyOf ls ∨
      kind ≠ .mux ∧ (startOf kind outer ls = .allOf ls ∨ startOf kind outer ls = .allOf (Latency.latest ls)) := by
  simp only [startOf]
  split
  · exact .inl ⟨rfl, rfl⟩
  · exact .inr ⟨nofun, .inl rfl⟩
  next h _ => exact .inr ⟨h, .inr rfl⟩

theorem startOf_ends (hne : ls ≠ []) : Latency.Ends ls (startOf kind outer ls) := by
  rcases startOf_cases kind outer hne with ⟨-, e⟩ | ⟨-, e | e⟩ <;> rw [e]
  · exact Latency.ends_combine hne
  · exact Latency.ends_combine hne
  · exact (Latency.ends_combine (Latency.latest_ne_nil hne)).of_latest

theorem startOf_mux_min (hne : ls ≠ []) : (∃ k ∈ ls, k.min = (startOf .mux outer ls).min) ∧
    ∀ k ∈ ls, (startOf .mux outer ls).min.toInt ≤ k.min.toInt := by
  rcases startOf_cases .mux outer hne with ⟨-, e⟩ | ⟨h, -⟩
  · rw [e]; exact Latency.anyOf_min hne
  · exact absurd rfl h

theorem startOf_min (hk : kind ≠ .mux) (hne : ls ≠ []) : (∃ k ∈ ls, k.min = (startOf kind outer ls).min) ∧
    ∀ k ∈ ls, k.min.toInt ≤ (startOf kind outer ls).min.toInt := by
  rcases startOf_cases kind outer hne with ⟨h, -⟩ | ⟨-, e | e⟩
  · exact absurd h hk
  · rw [e]; exact Latency.allOf_min hne
  · rw [e]; exact Latency.allOf_latest_min hne

theorem startOf_min_attained (hne : ls ≠ []) : ∃ k ∈ ls, k.min = (startOf kind outer ls).min := by
  by_cases hk : kind = .mux
  · subst hk; exact (startOf_mux_min outer hne).1
  · exact (startOf_min kind outer hk hne).1

theorem closed_of_start (hne : ls ≠ []) (closed : (startOf kind outer ls).isOpen = false) (hk : k ∈ ls) :
    k.isOpen = false ∧ k.max.toInt ≤ (startOf kind outer ls).max.toInt := by
  have ends := startOf_ends kind outer hne
  refine ⟨?_, ends.upper closed k hk⟩
  rw [ends.isOpen, any_eq_false] at closed
  simpa using closed k hk

theorem startOf_covers_each (hk : kind ≠ .mux) (mem : k ∈ ls) : (startOf kind outer ls).Covers k := by
  have hne := ne_nil_of_mem mem
  exact Latency.covers_iff.mpr
    ⟨(startOf_min kind outer hk hne).2 k mem, fun closed => closed_of_start kind outer hne closed mem⟩

theorem startOf_valid (ho : outer.Valid) (hls : ∀ l ∈ ls, l.Valid) : (startOf kind outer ls).Valid := by
  by_cases hne : ls = []
  · subst hne; exact ho
  obtain ⟨k, hk, e⟩ := startOf_min_attained kind outer hne
  refine ⟨by rw [← e]; exact (hls k hk).1, fun hc => ?_⟩
  obtain ⟨closed, upper⟩ := closed_of_start kind outer hne hc hk
  have := (hls k hk).2 closed
  rw [← e]
  omega

end

/-! ## Times and intervals -/

section
variable {d : Design}

theorem Timed.bus_of_at (hd : WellFormed d) (ht : Timed d mod base t)
    (h : BusAt d mod t.inputs b l) : t.bus? b = some l := by
  obtain ⟨bus, x, input, hb, hx, hf, hin, rfl⟩ := id h
  obtain ⟨y, hy, carried⟩ := hd.buses.held hb rfl
  cases hx.symm.trans hy
  obtain ⟨l, hl⟩ := ht.bus ⟨x, hf, carried⟩
  rw [hl, (ht.busAt hl).unique ht.trace h]

theorem Timed.input_root (hd : WellFormed d) (ht : Timed d mod base t) : t.input? mod = some base := by
  obtain ⟨l, hl⟩ := ht.input (.inl rfl)
  rcases ht.trace.start_of_mem (mem_of_lookup hl) with ⟨-, rfl⟩ | ⟨_, _, _, hn, -⟩
  · exact hl
  · exact absurd (hn.lt hd) (Int.lt_irrefl _)

theorem Timed.induct (ht : Timed d mod base t) {P : OpId → Prop} (root : P mod)
    (step : ∀ {c o}, Nested d mod c → d.op? c = some o → P o.owner →
      (∀ v ∈ forwardDeps d o, ∀ src, d.busOwner? v.source = some src → P src) → P c)
    (hc : c = mod ∨ Nested d mod c) : P c := by
  have all : ∀ {starts}, Trace d mod base starts → ∀ {c l}, (c, l) ∈ starts → P c := by
    intro starts h
    induction h with
    | root =>
      intro c l hc
      cases mem_singleton.mp hc
      exact root
    | start _ inside ho _ owner driven ih =>
      intro c l hc
      rcases mem_cons.mp hc with e | hc
      · cases e
        refine step inside ho (ih owner) fun v hv src carried => ?_
        obtain ⟨bus, x, input, hb, hx, -, hin, -⟩ := driven v hv
        cases (busOwner?_of_exit hb hx).symm.trans carried
        exact ih hin
      · exact ih hc
  obtain ⟨l, hl⟩ := ht.input hc
  exact all ht.trace (mem_of_lookup hl)

/-- A relation between latencies and times that each step of a computation keeps holds between the
timing and the run. -/
theorem Timed.relate (hd : WellFormed d) (ht : Timed d mod base t) {P : Latency → Int → Prop} (r : Run)
    (root : P base (r.start mod))
    (exit : ∀ {x input}, FlowExit d mod x → t.input? x.owner = some input → P input (r.start x.owner) →
        P (x.latency.after input) (r.start x.owner + r.delay x.id))
    (dep : ∀ {c o v l}, Nested d mod c → d.op? c = some o → v ∈ forwardDeps d o → t.bus? v.source = some l →
        P l (r.busTime d v.source) → P (arrival v l) (r.arrival d v))
    (start : ∀ {c o outer} {f : Dependency → Latency}, Nested d mod c → d.op? c = some o →
        P outer (r.start o.owner) → (∀ v ∈ forwardDeps d o, P (f v) (r.arrival d v)) →
        P (startOf o.kind outer ((forwardDeps d o).map f)) (r.start c)) :
    (∀ {c l}, t.input? c = some l → P l (r.start c)) ∧ ∀ {b l}, t.bus? b = some l → P l (r.busTime d b) := by
  have lookup {c l} (h : (c, l) ∈ t.inputs) : t.input? c = some l := lookup_of_mem ht.trace.nodup h
  have atBus {b l} (h : BusAt d mod t.inputs b l)
      (known : ∀ src, d.busOwner? b = some src → ∀ l, t.input? src = some l → P l (r.start src)) :
        P l (r.busTime d b) := by
    obtain ⟨bus, x, input, hb, hx, hf, hin, rfl⟩ := h
    have time : r.busTime d b = r.start x.owner + r.delay x.id := by
      simp only [Run.busTime, hb, hx, hd.exitIds _ x hx]
    rw [time]
    exact exit hf (lookup hin) (known _ (busOwner?_of_exit hb hx) _ (lookup hin))
  have inputs : ∀ {c l}, t.input? c = some l → P l (r.start c) := by
    intro c l hl
    have place : c = mod ∨ Nested d mod c := by
      rcases ht.trace.start_of_mem (mem_of_lookup hl) with ⟨rfl, -⟩ | ⟨_, _, _, hn, -⟩
      · exact .inl rfl
      · exact .inr hn
    refine ht.induct (P := fun c => ∀ l, t.input? c = some l → P l (r.start c)) (fun l hl => ?_) ?_ place l hl
    · cases (ht.input_root hd).symm.trans hl
      exact root
    · intro c o hn ho outer drivers l hl
      rcases ht.trace.start_of_mem (mem_of_lookup hl) with ⟨rfl, -⟩ | ⟨o', _, times, -, ho', owner, driven, rfl⟩
      · exact absurd (hn.lt hd) (Int.lt_irrefl _)
      cases ho.symm.trans ho'
      refine start hn ho (outer _ (lookup owner)) fun v hv => ?_
      exact dep hn ho hv (ht.bus_of_at hd (driven v hv)) (atBus (driven v hv) (drivers v hv))
  exact ⟨inputs, fun h => atBus (ht.busAt h) fun _ _ _ => inputs⟩

/-- No sum in the computation of a timing is larger than a word. -/
structure NoOverflow (d : Design) (mod : OpId) (t : Timing) : Prop where
  exits : ∀ {x l}, FlowExit d mod x → t.input? x.owner = some l → x.latency.Adds l
  deps : ∀ {c o v l}, Nested d mod c → d.op? c = some o → v ∈ forwardDeps d o → t.bus? v.source = some l →
    (⟨v.minClocks, v.minClocks, 0⟩ : Latency).Adds l

def isSmall (d : Design) (t : Timing) : Bool :=
  let small (l : Latency) : Bool := l.min.toInt < 0x4000000000000000 && l.max.toInt < 0x4000000000000000
  d.exits.all (fun x => small x.latency) && d.deps.all (fun v => v.minClocks.toInt < 0x4000000000000000) &&
    t.inputs.all (fun p => small p.2) && t.buses.all (fun p => small p.2)

theorem noOverflow_of_isSmall (hd : WellFormed d) (h : isSmall d t = true) : NoOverflow d mod t := by
  simp only [isSmall, Bool.and_eq_true, Array.all_eq_true', all_eq_true, decide_eq_true_eq] at h
  obtain ⟨⟨⟨exits, deps⟩, inputs⟩, buses⟩ := h
  constructor
  · intro x l hf hl
    have h1 := exits x (mem_of_at? (hf.exit hd).2)
    have h2 := inputs (x.owner, l) (mem_of_lookup hl)
    dsimp only at h2
    exact ⟨by omega, fun _ _ => by omega⟩
  · intro c o v l _ _ hv hl
    obtain ⟨e, -, hv⟩ := mem_flatMap.mp hv
    obtain ⟨i, -, hi⟩ := mem_filterMap.mp hv
    have h1 := deps v (mem_of_at? hi)
    have h2 := buses (v.source, l) (mem_of_lookup hl)
    dsimp only at h2
    exact ⟨by dsimp only; omega, fun _ _ => by dsimp only; omega⟩

theorem clocks_nonneg (hd : WellFormed d) (hv : v ∈ forwardDeps d o) : 0 ≤ v.minClocks.toInt := by
  obtain ⟨e, -, hv⟩ := mem_flatMap.mp hv
  obtain ⟨i, -, hi⟩ := mem_filterMap.mp hv
  have := hd.aimed.delay hi
  simp only [delayAllowed, Bool.or_eq_true, beq_iff_eq, Bool.and_eq_true, decide_eq_true_eq] at this
  rcases this with h | ⟨h, -⟩
  · rw [h]; decide
  · have := Int64.lt_iff_toInt_lt.mp h
    exact Int.le_of_lt this

theorem arrival_exact (hv : 0 ≤ v.minClocks.toInt) (hl : l.Valid)
    (ha : (⟨v.minClocks, v.minClocks, 0⟩ : Latency).Adds l) :
    (arrival v l).Valid ∧ (arrival v l).isOpen = l.isOpen ∧
    (arrival v l).min.toInt = l.min.toInt + v.minClocks.toInt ∧
    (l.isOpen = false → (arrival v l).max.toInt = l.max.toInt + v.minClocks.toInt) := by
  have closed : (⟨v.minClocks, v.minClocks, 0⟩ : Latency).isOpen = false := Latency.isOpen_of_nonneg hv
  have valid : (⟨v.minClocks, v.minClocks, 0⟩ : Latency).Valid := ⟨hv, fun _ => Int.le_refl _⟩
  unfold arrival
  split
  next =>
    refine ⟨valid.after hl ha, ?_, ?_, fun hc => ?_⟩
    · rw [Latency.after_isOpen valid hl, closed, Bool.false_or]
    · rw [Latency.after_min valid hl ha]; exact Int.add_comm _ _
    · rw [Latency.after_max valid hl ha closed hc]; exact Int.add_comm _ _
  next h =>
    have : v.minClocks.toInt = 0 := by
      have := mt Int64.lt_iff_toInt_lt.mpr h
      have zero : (0 : Int64).toInt = 0 := rfl
      omega
    rw [this]
    exact ⟨hl, rfl, (Int.add_zero _).symm, fun _ => (Int.add_zero _).symm⟩

/-! ## Runs exist -/

theorem Trace.exists_run {R : Kind → Int → List Int → Int → Prop} (h : Trace d mod base starts)
    (delay : ExitId → Int) (s0 : Int) (hR : ∀ kind outer arrivals, ∃ s, R kind outer arrivals s) :
    ∃ r : Run, r.delay = delay ∧ r.start mod = s0 ∧ ∀ {c o}, c ∈ starts.map Prod.fst → c ≠ mod → d.op? c = some o →
      R o.kind (r.start o.owner) ((forwardDeps d o).map (r.arrival d)) (r.start c) := by
  induction h with
  | root =>
    refine ⟨⟨fun _ => s0, delay⟩, rfl, rfl, ?_⟩
    intro c o hc hne
    exact absurd (mem_singleton.mp hc) hne
  | @start starts k o outer times ht inside ho new owner driven ih =>
    obtain ⟨r, rfl, hmod, hr⟩ := ih
    obtain ⟨s, hs⟩ := hR o.kind (r.start o.owner) ((forwardDeps d o).map (r.arrival d))
    -- the new start changes nothing that earlier starts depend on
    let r' : Run := ⟨fun a => if a = k then s else r.start a, r.delay⟩
    have same : ∀ {a l}, (a, l) ∈ starts → r'.start a = r.start a := by
      intro a l ha
      have : a ≠ k := fun e => new (e ▸ mem_map_of_mem ha)
      exact if_neg this
    have arrivals : ∀ {q : Operation} {f : Dependency → Latency},
        (∀ v ∈ forwardDeps d q, BusAt d mod starts v.source (f v)) →
        (forwardDeps d q).map (r'.arrival d) = (forwardDeps d q).map (r.arrival d) := by
      intro q f hq
      refine map_congr_left fun v hv => ?_
      obtain ⟨bus, x, input, hb, hx, -, hin, -⟩ := hq v hv
      simp only [Run.arrival, Run.busTime, hb, hx, same hin]
      rfl
    obtain ⟨l0, hl0⟩ := ht.root_mem
    refine ⟨r', rfl, (same hl0).trans hmod, ?_⟩
    intro c q hc hne hq
    rcases mem_cons.mp hc with rfl | hc
    · rw [ho] at hq; cases hq
      rw [same owner, arrivals driven, show r'.start c = s from if_pos rfl]
      exact hs
    · obtain ⟨⟨_, l⟩, hl, rfl⟩ := mem_map.mp hc
      have old := hr hc hne hq
      rcases ht.start_of_mem hl with ⟨e, -⟩ | ⟨q', outer', times', -, hq', owner', driven', -⟩
      · exact absurd e hne
      · rw [hq] at hq'; cases hq'
        rw [same owner', arrivals driven', same hl]
        exact old

theorem exists_first {as : List Int} (h : as ≠ []) : ∃ s ∈ as, ∀ a ∈ as, s ≤ a := by
  cases hs : as.min? with
  | none => exact absurd (min?_eq_none_iff.mp hs) h
  | some s => exact ⟨s, min?_eq_some_iff.mp hs⟩

theorem exists_last {as : List Int} (h : as ≠ []) : ∃ s ∈ as, ∀ a ∈ as, a ≤ s := by
  cases hs : as.max? with
  | none => exact absurd (max?_eq_none_iff.mp hs) h
  | some s => exact ⟨s, max?_eq_some_iff.mp hs⟩

/-! ## Runs stay within the intervals and attain both bounds -/

theorem canStart_cases {g : Dependency → Int} (hs : CanStart kind s0 (deps.map g) s) :
    (deps = [] ∧ s = s0) ∨ deps ≠ [] ∧ ∃ v ∈ deps, g v = s ∧ (kind ≠ .mux → ∀ w ∈ deps, g w ≤ g v) := by
  by_cases hnil : deps = []
  · subst hnil
    exact .inl ⟨rfl, hs⟩
  unfold CanStart at hs
  rw [if_neg (by simpa using hnil)] at hs
  split at hs
  next hk =>
    obtain ⟨v, hv, rfl⟩ := mem_map.mp hs
    exact .inr ⟨hnil, v, hv, rfl, fun no => absurd hk no⟩
  next =>
    obtain ⟨hs, last⟩ := hs
    obtain ⟨v, hv, rfl⟩ := mem_map.mp hs
    exact .inr ⟨hnil, v, hv, rfl, fun _ w hw => last _ (mem_map_of_mem hw)⟩

theorem startOf_contains {deps : List Dependency} (ho : outer.Contains s0)
    (hfg : ∀ v ∈ deps, (f v).Contains (g v)) (hs : CanStart kind s0 (deps.map g) s) :
    (startOf kind outer (deps.map f)).Contains s := by
  rcases canStart_cases hs with ⟨rfl, rfl⟩ | ⟨hnil, v, hv, rfl, last⟩
  · exact ho
  have hne : deps.map f ≠ [] := by simpa using hnil
  refine ⟨?_, fun hc => ?_⟩
  · by_cases hk : kind = .mux
    · subst hk
      exact Int.le_trans ((startOf_mux_min outer hne).2 _ (mem_map_of_mem hv)) (hfg v hv).1
    · obtain ⟨k, hm, e⟩ := (startOf_min kind outer hk hne).1
      obtain ⟨w, hw, rfl⟩ := mem_map.mp hm
      rw [← e]
      exact Int.le_trans (hfg w hw).1 (last hk w hw)
  · -- the end of the interval is no earlier than that of any driver
    obtain ⟨closed, upper⟩ := closed_of_start kind outer hne hc (mem_map_of_mem hv)
    exact Int.le_trans ((hfg v hv).2 closed) upper

theorem startOf_earliest {deps : List Dependency} (ho : outer.min.toInt = s0)
    (hfg : ∀ v ∈ deps, (f v).min.toInt = g v) (hs : CanStart kind s0 (deps.map g) s)
    (hmux : kind = .mux → ∀ a ∈ deps.map g, s ≤ a) : (startOf kind outer (deps.map f)).min.toInt = s := by
  rcases canStart_cases hs with ⟨rfl, rfl⟩ | ⟨hnil, v, hv, rfl, last⟩
  · exact ho
  have hne : deps.map f ≠ [] := by simpa using hnil
  by_cases hk : kind = .mux
  · subst hk
    obtain ⟨⟨k, hm, e⟩, least⟩ := startOf_mux_min outer hne
    obtain ⟨w, hw, rfl⟩ := mem_map.mp hm
    have h1 := least _ (mem_map_of_mem hv)
    have h2 := hmux rfl _ (mem_map_of_mem hw)
    rw [← e, hfg w hw] at h1 ⊢
    rw [hfg v hv] at h1
    omega
  · obtain ⟨⟨k, hm, e⟩, greatest⟩ := startOf_min kind outer hk hne
    obtain ⟨w, hw, rfl⟩ := mem_map.mp hm
    have h1 := greatest _ (mem_map_of_mem hv)
    have h2 := last hk w hw
    rw [← e, hfg w hw] at h1 ⊢
    rw [hfg v hv] at h1
    omega

/-- A run in which everything is as early as it can be. -/
structure IsEarliest (d : Design) (mod : OpId) (base : Latency) (r : Run) : Prop extends IsRun d mod base r where
  start_eq : r.start mod = base.min.toInt
  delay_eq : ∀ {x}, FlowExit d mod x → r.delay x.id = x.latency.min.toInt
  mux : ∀ {c o}, Nested d mod c → d.op? c = some o → o.kind = .mux →
    ∀ a ∈ (forwardDeps d o).map (r.arrival d), r.start c ≤ a

/-- A time at the end of an interval, or from `n` on if the interval has no end. -/
def AtEnd (n : Int) (l : Latency) (s : Int) : Prop := 0 ≤ s ∧ if l.isOpen then n ≤ s else s = l.max.toInt

/-- The time at the end of an interval that is `n` or later if the interval has no end. -/
def lastOf (n : Int) (l : Latency) : Int := if l.isOpen then max l.min.toInt n else l.max.toInt

theorem lastOf_contained (hl : l.Valid) (n : Int) : l.Contains (lastOf n l) ∧ AtEnd n l (lastOf n l) := by
  have := hl.1
  unfold Latency.Contains AtEnd lastOf
  cases hc : l.isOpen with
  | true => simp; omega
  | false => have := hl.2 hc; simp; omega

theorem AtEnd.after (hl : l.Valid) (hi : input.Valid) (ha : l.Adds input)
    (hs : AtEnd n input s) (he : AtEnd n l e) : AtEnd n (l.after input) (s + e) := by
  obtain ⟨hs0, hs⟩ := hs
  obtain ⟨he0, he⟩ := he
  refine ⟨by omega, ?_⟩
  rw [Latency.after_isOpen hl hi]
  cases hlo : l.isOpen with
  | true => simp only [hlo, if_true] at he; simp only [Bool.true_or, if_true]; omega
  | false =>
    cases hio : input.isOpen with
    | true => simp only [hio, if_true] at hs; simp only [Bool.or_true, if_true]; omega
    | false =>
      simp only [hlo, hio, Bool.false_eq_true, if_false] at hs he
      simp only [Bool.or_false, Bool.false_eq_true, if_false]
      rw [Latency.after_max hl hi ha hlo hio]
      omega

theorem startOf_latest {deps : List Dependency} (ho : AtEnd n outer s0)
    (hfg : ∀ v ∈ deps, AtEnd n (f v) (g v)) (hs : CanStart kind s0 (deps.map g) s)
    (hlast : ∀ a ∈ deps.map g, a ≤ s) : AtEnd n (startOf kind outer (deps.map f)) s := by
  rcases canStart_cases hs with ⟨rfl, rfl⟩ | ⟨hnil, v, hv, rfl, -⟩
  · exact ho
  have hne : deps.map f ≠ [] := by simpa using hnil
  have ends := startOf_ends kind outer hne
  refine ⟨(hfg v hv).1, ?_⟩
  cases hc : (startOf kind outer (deps.map f)).isOpen with
  | true =>
    have hopen := hc
    rw [ends.isOpen, any_eq_true] at hopen
    obtain ⟨k, hk, hko⟩ := hopen
    obtain ⟨w, hw, rfl⟩ := mem_map.mp hk
    have := (hfg w hw).2
    rw [if_pos hko] at this
    exact Int.le_trans this (hlast _ (mem_map_of_mem hw))
  | false =>
    have closed : ∀ w ∈ deps, g w = (f w).max.toInt := by
      intro w hw
      have hclosed := hc
      rw [ends.isOpen, any_eq_false] at hclosed
      have := (hfg w hw).2
      rwa [if_neg (hclosed _ (mem_map_of_mem hw))] at this
    obtain ⟨k, hk, e⟩ := ends.attained hc
    obtain ⟨w, hw, rfl⟩ := mem_map.mp hk
    have h1 := hlast _ (mem_map_of_mem hw)
    have h2 := ends.upper hc _ (mem_map_of_mem hv)
    rw [closed w hw, e] at h1
    rw [← closed v hv] at h2
    exact Int.le_antisymm h2 h1

/-- A run in which everything is as late as it can be, or from `n` on if it can be arbitrarily late. -/
structure IsLatest (n : Int) (d : Design) (mod : OpId) (base : Latency) (r : Run) : Prop
    extends IsRun d mod base r where
  start_eq : r.start mod = lastOf n base
  delay_eq : ∀ {x}, FlowExit d mod x → r.delay x.id = lastOf n x.latency
  last : ∀ {c o}, Nested d mod c → d.op? c = some o → ∀ a ∈ (forwardDeps d o).map (r.arrival d), a ≤ r.start c

section
variable (hd : WellFormed d) (ht : Timed d mod base t) (hb : base.Valid)
  (hx : ∀ {x}, FlowExit d mod x → x.latency.Valid)
include hd ht hb hx

section
variable (ho : NoOverflow d mod t)
include ho

theorem Timed.valid : (∀ {c l}, t.input? c = some l → l.Valid) ∧ ∀ {b l}, t.bus? b = some l → l.Valid := by
  refine ht.relate (P := fun l _ => l.Valid) hd ⟨fun _ => 0, fun _ => 0⟩ hb ?_ ?_ ?_
  · exact fun hf hin hl => (hx hf).after hl (ho.exits hf hin)
  · exact fun hn hc hv hb hl => (arrival_exact (clocks_nonneg hd hv) hl (ho.deps hn hc hv hb)).1
  · intro c o outer f _ _ hl hls
    refine startOf_valid _ _ hl fun l hm => ?_
    obtain ⟨v, hv, rfl⟩ := mem_map.mp hm
    exact hls v hv

theorem Timed.contains (hr : IsRun d mod base r) :
    (∀ {c l}, t.input? c = some l → l.Contains (r.start c)) ∧ ∀ {b l}, t.bus? b = some l →
      l.Contains (r.busTime d b) := by
  obtain ⟨vi, vb⟩ := ht.valid hd hb hx ho
  refine ht.relate hd r hr.first ?_ ?_ ?_
  · exact fun hf hin hl => .after (hx hf) (vi hin) (ho.exits hf hin) (hr.delays hf) hl
  · intro c o v l hn hc hv hbus hl
    obtain ⟨-, hopen, hmin, hmax⟩ := arrival_exact (clocks_nonneg hd hv) (vb hbus) (ho.deps hn hc hv hbus)
    refine ⟨by rw [hmin]; exact Int.add_le_add_right hl.1 _, fun hclosed => ?_⟩
    rw [hopen] at hclosed
    rw [hmax hclosed]
    exact Int.add_le_add_right (hl.2 hclosed) _
  · exact fun hn hc hl hls => startOf_contains hl hls (hr.starts hn hc)

theorem Timed.earliest (hr : IsEarliest d mod base r) :
    (∀ {c l}, t.input? c = some l → l.min.toInt = r.start c) ∧ ∀ {b l}, t.bus? b = some l →
      l.min.toInt = r.busTime d b := by
  obtain ⟨vi, vb⟩ := ht.valid hd hb hx ho
  refine ht.relate (P := fun l s => l.min.toInt = s) hd r hr.start_eq.symm ?_ ?_ ?_
  · intro x input hf hin hl
    rw [Latency.after_min (hx hf) (vi hin) (ho.exits hf hin), hr.delay_eq hf, hl]
    exact Int.add_comm _ _
  · intro c o v l hn hc hv hbus hl
    obtain ⟨-, -, hmin, -⟩ := arrival_exact (clocks_nonneg hd hv) (vb hbus) (ho.deps hn hc hv hbus)
    rw [hmin, hl]; rfl
  · exact fun hn hc hl hls => startOf_earliest hl hls (hr.starts hn hc) (hr.mux hn hc)

end

/-- Times can be picked in all intervals, and starts by any rule that allows one. -/
theorem Timed.exists_run {Q : Kind → List Int → Int → Prop} (pick : Latency → Int)
    (within : ∀ {l : Latency}, l.Valid → l.Contains (pick l))
    (rule : ∀ kind outer as, ∃ s, CanStart kind outer as s ∧ Q kind as s) :
    ∃ r, IsRun d mod base r ∧ r.start mod = pick base ∧ (∀ {x}, FlowExit d mod x → r.delay x.id = pick x.latency) ∧
      ∀ {c o}, Nested d mod c → d.op? c = some o → Q o.kind ((forwardDeps d o).map (r.arrival d)) (r.start c) := by
  obtain ⟨r, hdelay, hmod, hr⟩ := ht.trace.exists_run (fun i => ((d.exit? i).map fun x => pick x.latency).getD 0)
    (pick base) rule
  have delays : ∀ {x}, FlowExit d mod x → r.delay x.id = pick x.latency := by
    intro x hf
    simp only [hdelay, (hf.exit hd).2, Option.map_some, Option.getD_some]
  have starts : ∀ {c o}, Nested d mod c → d.op? c = some o →
      CanStart o.kind (r.start o.owner) ((forwardDeps d o).map (r.arrival d)) (r.start c) ∧
        Q o.kind ((forwardDeps d o).map (r.arrival d)) (r.start c) := by
    intro c o hn hc
    obtain ⟨l, hl⟩ := ht.input (.inr hn)
    exact hr (mem_map_of_mem (mem_of_lookup hl)) (Int.ne_of_gt (hn.lt hd)) hc
  refine ⟨r, ⟨?_, ?_, fun hn hc => (starts hn hc).1⟩, hmod, delays, fun hn hc => (starts hn hc).2⟩
  · rw [hmod]; exact within hb
  · intro x hf
    rw [delays hf]; exact within (hx hf)

theorem Timed.exists_earliest : ∃ r, IsEarliest d mod base r := by
  obtain ⟨r, run, start, delays, mux⟩ :=
    ht.exists_run hd hb hx (Q := fun kind as s => kind = .mux → ∀ a ∈ as, s ≤ a)
      (fun l => l.min.toInt) (fun hl => ⟨Int.le_refl _, hl.2⟩) <| by
    intro kind outer as
    by_cases hne : as = []
    · exact ⟨outer, by simp [CanStart, hne], by simp [hne]⟩
    by_cases hk : kind = .mux
    · obtain ⟨s, hs, least⟩ := exists_first hne
      exact ⟨s, by simp [CanStart, hne, hk, hs], fun _ => least⟩
    · obtain ⟨s, hs, last⟩ := exists_last hne
      exact ⟨s, by simpa [CanStart, hne, hk, hs] using last, fun h => absurd h hk⟩
  exact ⟨r, run, start, delays, mux⟩

theorem Timed.latest (ho : NoOverflow d mod t)
    (hr : IsLatest n d mod base r) : (∀ {c l}, t.input? c = some l → AtEnd n l (r.start c)) ∧
      ∀ {b l}, t.bus? b = some l → AtEnd n l (r.busTime d b) := by
  obtain ⟨vi, vb⟩ := ht.valid hd hb hx ho
  refine ht.relate hd r (by rw [hr.start_eq]; exact (lastOf_contained hb n).2) ?_ ?_ ?_
  · intro x input hf hin hl
    rw [hr.delay_eq hf]
    exact hl.after (hx hf) (vi hin) (ho.exits hf hin) (lastOf_contained (hx hf) n).2
  · intro c o v l hn hc hv hbus hl
    have hclocks := clocks_nonneg hd hv
    obtain ⟨-, hopen, -, hmax⟩ := arrival_exact hclocks (vb hbus) (ho.deps hn hc hv hbus)
    obtain ⟨h0, hend⟩ := hl
    refine ⟨Int.add_nonneg h0 hclocks, ?_⟩
    rw [hopen]
    cases hlo : l.isOpen with
    | true => rw [hlo, if_pos rfl] at hend; rw [if_pos rfl]; unfold Run.arrival; omega
    | false =>
      rw [hlo] at hend
      rw [hmax hlo, ← hend]; rfl
  · exact fun hn hc hl hls => startOf_latest hl hls (hr.starts hn hc) (hr.last hn hc)

theorem Timed.exists_latest (n : Int) : ∃ r, IsLatest n d mod base r := by
  obtain ⟨r, run, start, delays, last⟩ := ht.exists_run hd hb hx (Q := fun _ as s => ∀ a ∈ as, a ≤ s) (lastOf n)
      (fun hl => (lastOf_contained hl n).1) <| by
    intro kind outer as
    by_cases hne : as = []
    · exact ⟨outer, by simp [CanStart, hne], by simp [hne]⟩
    obtain ⟨s, hs, last⟩ := exists_last hne
    exact ⟨s, by simpa [CanStart, hne, hs] using fun _ => last, last⟩
  exact ⟨r, run, start, delays, last⟩

end

/-- A computed timing is exact: it has an interval for every operation and every bus, all times of
all runs lie in their intervals, the earliest runs are at all lower bounds, and the latest runs are
at all upper bounds or, where there is none, as late as one likes. -/
theorem computed_intervals_exact (hd : WellFormed d) (hb : base.Valid)
    (hx : ∀ x, FlowExit d mod x → x.latency.Valid) (h : (compute d mod base).run .absolute = .ok (.ok (), t))
    (ho : NoOverflow d mod t) :
    (∀ c, c = mod ∨ Nested d mod c → ∃ l, t.input? c = some l) ∧ (∀ b, FlowBus d mod b → ∃ l, t.bus? b = some l) ∧
    (∀ r, IsRun d mod base r → (∀ c l, t.input? c = some l → l.Contains (r.start c)) ∧ ∀ b l, t.bus? b = some l →
      l.Contains (r.busTime d b)) ∧ ((∃ r, IsEarliest d mod base r) ∧ ∀ r, IsEarliest d mod base r →
      (∀ c l, t.input? c = some l → l.min.toInt = r.start c) ∧ ∀ b l, t.bus? b = some l →
      l.min.toInt = r.busTime d b) ∧ ∀ n, (∃ r, IsLatest n d mod base r) ∧ ∀ r, IsLatest n d mod base r →
      (∀ c l, t.input? c = some l → AtEnd n l (r.start c)) ∧ ∀ b l, t.bus? b = some l →
    AtEnd n l (r.busTime d b) := by
  have ht := compute_ok hd h
  have hx' : ∀ {x}, FlowExit d mod x → x.latency.Valid := fun h => hx _ h
  refine ⟨fun c hc => ht.input hc, fun b hb => ht.bus hb, fun r hr => ?_,
    ⟨ht.exists_earliest hd hb hx', fun r hr => ?_⟩, fun n => ⟨ht.exists_latest hd hb hx' n, fun r hr => ?_⟩⟩
  · obtain ⟨inputs, buses⟩ := ht.contains hd hb hx' ho hr
    exact ⟨fun _ _ => inputs, fun _ _ => buses⟩
  · obtain ⟨inputs, buses⟩ := ht.earliest hd hb hx' ho hr
    exact ⟨fun _ _ => inputs, fun _ _ => buses⟩
  · obtain ⟨inputs, buses⟩ := ht.latest hd hb hx' ho hr
    exact ⟨fun _ _ => inputs, fun _ _ => buses⟩

/-- Two operations, one of them without an upper bound, a mux that takes the first of them, and an
operation that waits for the mux and for two clocks after the other. -/
def muxCommands : List Command :=
  [.newBlock absent "m" 0 0 .zero, .newPrimitive .op 0 "a" 0 1 ⟨1, 3, 0⟩, .newPrimitive .op 0 "b" 0 1 ⟨2, unknown,
   7⟩, .newPrimitive .mux 0 "x" 1 1 .zero, .newPrimitive .op 0 "s" 1 1 .one, .start 3 0, .start 4 0, .start 5 2,
   .addDependency 5 .control 4 5 0, .start 6 6, .connectResource 6 2 7 2]

theorem mux_intervals_exact : ∃ d t, runAll muxCommands { name := "x" } = some d ∧
    (compute d 0 ⟨0, 4, 0⟩).run .absolute = .ok (.ok (), t) ∧ t.input? 6 = some ⟨3, unknown, 7⟩ ∧
    (∀ r, IsRun d 0 ⟨0, 4, 0⟩ r → 3 ≤ r.start 6) ∧ (∃ r, IsRun d 0 ⟨0, 4, 0⟩ r ∧ r.start 6 = 3) ∧
    ∀ n, ∃ r, IsRun d 0 ⟨0, 4, 0⟩ r ∧ n ≤ r.start 6 := by
  obtain ⟨d, hd, ⟨⟩, t, ht, hs, small, valid⟩ : ∃ d, runAll muxCommands { name := "x" } = some d ∧
      ∃ u t, (compute d 0 ⟨0, 4, 0⟩).run .absolute = .ok (.ok u, t) ∧ t.input? 6 = some ⟨3, unknown, 7⟩ ∧
      isSmall d t = true ∧ ∀ x ∈ d.exits, x.latency.Valid := by
    decide +kernel
  have wf := ((Built.empty "x").runAll hd).wellFormed
  have hx : ∀ x, FlowExit d 0 x → x.latency.Valid := fun x hf => valid x (mem_of_at? (hf.exit wf).2)
  obtain ⟨-, -, contains, ⟨⟨e, he⟩, earliest⟩, latest⟩ :=
    computed_intervals_exact wf (by decide) hx ht (noOverflow_of_isSmall wf small)
  refine ⟨d, t, hd, ht, hs, fun r hr => ((contains r hr).1 6 _ hs).1,
    ⟨e, he.toIsRun, ((earliest e he).1 6 _ hs).symm⟩, ?_⟩
  intro n
  obtain ⟨⟨r, hr⟩, ends⟩ := latest n
  exact ⟨r, hr.toIsRun, ((ends r hr).1 6 _ hs).2⟩

end

end Timing

end Datapath
