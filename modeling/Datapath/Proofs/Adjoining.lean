import Mathlib.Data.List.Basic
import Datapath.Proofs.FlopWalks
import Datapath.Proofs.Untouched

/-!
# One more access

An access that is added to a module, and started by one of its siblings or not at all, is the last
child of the module. Nothing reads its buses, so all that was there keeps what drives it, what it
drives and its place in the schedule order; the access comes at the end of the order of its module.
-/

namespace Datapath

open List

variable {d d' e : Design}

def Resource.traits (r : Resource) : ResId × ResourceKind × Bool := (r.id, r.kind, r.parallelReads)

/-! ## Steps that only concern one operation -/

structure Fills (c : OpId) (d d' : Design) : Prop where
  size : d'.ops.size = d.ops.size
  op : ∀ {i o}, i ≠ c → at? d.ops i = some o → at? d'.ops i = some o
  exit : ∀ {i x}, at? d.exits i = some x → at? d'.exits i = some x
  bus : ∀ {b x}, view d.buses Bus.exit b = some x → view d'.buses Bus.exit b = some x
  entry : ∀ {i e}, e.owner ≠ c → at? d.entries i = some e → at? d'.entries i = some e
  dep : ∀ {i v}, at? d.deps i = some v → at? d'.deps i = some v
  resource : view d'.resources Resource.traits = view d.resources Resource.traits
  tasks : d'.tasks = d.tasks

section
variable {count : Int}

theorem Fills.trans (h : Fills c d e) (h' : Fills c e d') : Fills c d d' where
  size := h'.size.trans h.size
  op hi ho := h'.op hi (h.op hi ho)
  exit hx := h'.exit (h.exit hx)
  bus hb := h'.bus (h.bus hb)
  entry hi he := h'.entry hi (h.entry hi he)
  dep hv := h'.dep (h.dep hv)
  resource := h'.resource.trans h.resource
  tasks := h'.tasks.trans h.tasks

theorem fills_addPorts (h : addPorts c count d = .ok (u, d')) : Fills c d d' := by
  rw [addPorts_ok h]
  exact ⟨size_editAt .., fun ne ho => by rwa [at?_edit_ne ne], fun h => h, fun h => h, fun _ h => h,
    fun h => h, rfl, rfl⟩

theorem fills_addEntry {id : EntryId} (h : addEntry c drive d = .ok (id, d')) : Fills c d d' := by
  obtain ⟨-, -, rfl⟩ := addEntry_ok h
  exact ⟨size_editAt .., fun ne ho => by rwa [at?_edit_ne ne], fun h => h, fun h => h,
    fun _ h => at?_push_of _ h, fun h => h, rfl, rfl⟩

theorem fills_addExit {id : ExitId} (h : addExit c tag latency count d = .ok (id, d')) : Fills c d d' := by
  have g : Gains (fun i => i = c) d d' [] := gains_addExit rfl h
  obtain ⟨-, -, rfl⟩ := addExit_ok h
  exact ⟨size_editAt .., fun ne ho => by rwa [at?_edit_ne ne], g.exit, g.bus, fun _ h => h, fun h => h, rfl, rfl⟩

theorem fills_start (hd : WellFormed d) (h : start c source d = .ok (i, d')) : Fills c d d' := by
  obtain ⟨o, ho, h⟩ := ask_bind_ok.mp h
  obtain ⟨entry, he, h⟩ := ask_bind_ok.mp h
  obtain ⟨b, face⟩ := first_face hd ho he
  obtain ⟨-, -, n, p, s, hn, -, -, -, rfl⟩ := addDependency_ok h
  refine ⟨rfl, fun _ h => h, fun h => h, view_edit_of fun _ => rfl, ?_, at?_push_of _, rfl, rfl⟩
  intro j m own hm
  have ne : j ≠ entry := by
    rintro rfl
    rw [view_of _ hm, Option.some.injEq] at face
    exact own (congrArg Prod.fst face)
  rwa [at?_edit_ne ne]

end

/-! ## One more operation -/

/-- The second design is the first one with one more operation, the last child of its owner. -/
structure Adjoins (d d' : Design) (owner c : OpId) : Prop where
  new : c = d.ops.size
  size : d'.ops.size = d.ops.size + 1
  op : ∀ {i o}, at? d.ops i = some o →
    at? d'.ops i = some { o with children := o.children ++ if i = owner then [c] else [] }
  exit : ∀ {i x}, at? d.exits i = some x → at? d'.exits i = some x
  bus : ∀ {b x}, view d.buses Bus.exit b = some x → view d'.buses Bus.exit b = some x
  entry : ∀ {i e}, at? d.entries i = some e → at? d'.entries i = some e
  dep : ∀ {i v}, at? d.deps i = some v → at? d'.deps i = some v
  resource : view d'.resources Resource.traits = view d.resources Resource.traits
  tasks : d'.tasks = d.tasks

theorem adjoins_addOp (h : addOp kind owner name d = .ok (c, d')) : Adjoins d d' owner c := by
  obtain ⟨rfl, -, rfl⟩ := addOp_ok h
  refine ⟨rfl, ?_, ?_, fun h => h, fun h => h, fun h => h, fun h => h, rfl, rfl⟩
  · simp only [size_editAt, Array.size_push]
  · intro i o ho
    rw [at?_editAt, at?_push_of _ ho]
    split
    · rfl
    · rw [append_nil]

theorem Adjoins.ne_new (h : Adjoins d d' owner c) (ho : d.op? i = some o) : i ≠ c := by
  rw [h.new]
  exact Int.ne_of_lt (at?_lt ho).2

theorem entry_owner_lt (hd : WellFormed d) (hn : at? d.entries i = some n) : n.owner < d.ops.size := by
  obtain ⟨_, ho, -⟩ := hd.entries.held hn rfl
  exact (at?_lt ho).2

theorem Adjoins.fill (hd : WellFormed d) (h : Adjoins d e owner c) (h' : Fills c e d') : Adjoins d d' owner c where
  new := h.new
  size := h'.size.trans h.size
  op ho := h'.op (h.ne_new ho) (h.op ho)
  exit hx := h'.exit (h.exit hx)
  bus hb := h'.bus (h.bus hb)
  entry he := h'.entry (by rw [h.new]; exact Int.ne_of_lt (entry_owner_lt hd he)) (h.entry he)
  dep hv := h'.dep (h.dep hv)
  resource := h'.resource.trans h.resource
  tasks := h'.tasks.trans h.tasks

theorem adjoins_newPrimitive (hd : WellFormed d)
    (h : newPrimitive kind owner name inputs outputs latency d = .ok (c, d')) : Adjoins d d' owner c := by
  obtain ⟨-, d1, d2, d3, _, _, h1, h2, h3, h4⟩ := newPrimitive_ok h
  have filled := ((fills_addPorts h2).trans (fills_addEntry h3)).trans (fills_addExit h4)
  exact (adjoins_addOp h1).fill hd filled

/-! ### What stays -/

section
variable (hd : WellFormed d) (h : Adjoins d d' owner c)
include hd h

theorem Adjoins.exitsOf (ho : d.op? i = some o) : d'.exitsOf o = d.exitsOf o := by
  apply filterMap_congr
  intro x hx
  obtain ⟨y, hy, -⟩ := hd.exits.holds ho x hx
  exact (h.exit hy).trans hy.symm

theorem Adjoins.entriesOf (ho : d.op? i = some o) : d'.entriesOf o = d.entriesOf o := by
  apply filterMap_congr
  intro n hn
  obtain ⟨m, hm, -⟩ := hd.entries.holds ho n hn
  exact (h.entry hm).trans hm.symm

theorem Adjoins.depsOf (hn : at? d.entries i = some n) : d'.depsOf n = d.depsOf n := by
  apply filterMap_congr
  intro k hk
  obtain ⟨v, hv, -⟩ := dep_of_mem hd hn k hk
  exact (h.dep hv).trans hv.symm

theorem Adjoins.forwardDeps (ho : d.op? i = some o) : Timing.forwardDeps d' o = Timing.forwardDeps d o := by
  unfold Timing.forwardDeps
  rw [h.entriesOf hd ho]
  apply flatMap_congr
  intro n hn
  obtain ⟨j, -, hj⟩ := mem_filterMap.mp (mem_filter.mp hn).1
  exact h.depsOf hd hj

theorem Adjoins.mainExit? (ho : d.op? i = some o) : d'.mainExit? o = d.mainExit? o := by
  simp only [Design.mainExit?, Design.exitWith?, h.exitsOf hd ho]

omit hd in
theorem Adjoins.children (ho : d.op? i = some o) : ∃ cs, d'.op? i = some { o with children := cs } := ⟨_, h.op ho⟩

theorem Adjoins.isIterative {b : Bool} (hb : d.isIterative i = .ok b) : d'.isIterative i = .ok b := by
  unfold Design.isIterative at hb ⊢
  obtain ⟨o, ho, hb⟩ := bind_ok.mp hb
  obtain ⟨cs, ho'⟩ := h.children (op_ok ho)
  rw [run_op ho', ok_bind]
  split at hb
  next plain => rw [if_pos plain]; exact hb
  next loop =>
    rw [if_neg loop]
    obtain ⟨q, hq, hb⟩ := bind_ok.mp hb
    obtain ⟨cs', hq'⟩ := h.children (op_ok hq)
    have exits : d'.exitWith? { q with children := cs' } .feedback = d.exitWith? q .feedback := by
      rw [Design.exitWith?, show d'.exitsOf { q with children := cs' } = d'.exitsOf q from rfl,
        h.exitsOf hd (op_ok hq)]
      rfl
    rw [run_op hq', ok_bind, exits]
    split at hb
    next => exact hb
    next x hx =>
      split at hb
      next alone => rw [if_pos alone]; exact hb
      next completed =>
        rw [if_neg completed]
        obtain ⟨k, hk, hb⟩ := bind_ok.mp hb
        obtain ⟨cs'', hk'⟩ := h.children (op_ok hk)
        rw [run_op hk', ok_bind,
          show d'.entriesOf { k with children := cs'' } = d'.entriesOf k from rfl, h.entriesOf hd (op_ok hk)]
        exact hb

theorem Adjoins.busOwner? (hb : ∃ x, at? d.buses b = some x) : d'.busOwner? b = d.busOwner? b := by
  obtain ⟨x, hx⟩ := hb
  obtain ⟨y, hy, -⟩ := hd.buses.held hx rfl
  rw [busOwner?_eq, busOwner?_eq, h.bus (view_of _ hx), view_of _ hx]
  exact (view_of _ (h.exit hy)).trans (view_of _ hy).symm

omit h in
theorem source_exists {v : Dependency} (hv : v ∈ Timing.forwardDeps d o) : ∃ x, at? d.buses v.source = some x := by
  obtain ⟨n, -, hv⟩ := mem_flatMap.mp hv
  obtain ⟨k, -, hk⟩ := mem_filterMap.mp hv
  exact (hd.readers.held hk rfl).imp fun _ => And.left

theorem Adjoins.drivers (ho : d.op? i = some o) (m : OpId) : d'.drivers m i = d.drivers m i := by
  obtain ⟨cs, ho'⟩ := h.children ho
  have owners : (Timing.forwardDeps d o).filterMap (fun v => d'.busOwner? v.source) =
      (Timing.forwardDeps d o).filterMap fun v => d.busOwner? v.source :=
    filterMap_congr fun v hv => h.busOwner? hd (source_exists hd hv)
  have forward : Timing.forwardDeps d' { o with children := cs } = Timing.forwardDeps d o :=
    (h.forwardDeps hd ho : Timing.forwardDeps d' o = _)
  unfold Design.drivers
  rw [ho, ho']
  change ((Timing.forwardDeps d' { o with children := cs }).filterMap _).filter _ =
    ((Timing.forwardDeps d o).filterMap _).filter _
  rw [forward, owners]
  apply filter_congr
  intro s hs
  obtain ⟨v, -, hv⟩ := mem_filterMap.mp hs
  obtain ⟨q, hq⟩ := hd.op_of_busOwner? hv
  obtain ⟨cs', hq'⟩ := h.children hq
  rw [hq, hq']
  rfl

end

/-! ### Order -/

theorem arrange_snoc (same : ∀ k ∈ pending, g k = f k)
    (new : c ∉ pending) (driven : ∀ k ∈ g c, k ∈ placed ∨ k ∈ pending) (h : arrange f n placed pending = some ids) :
    arrange g (n + 1) placed (pending ++ [c]) = some (ids ++ [c]) := by
  induction n generalizing placed pending ids with
  | zero =>
    cases pending with
    | cons a pending => cases h
    | nil =>
      cases h
      have ready : (g c).all placed.contains = true := by simpa using driven
      simp [arrange, ready]
  | succ n ih =>
    cases pending with
    | nil =>
      cases h
      have ready : (g c).all placed.contains = true := by simpa using driven
      simp [arrange, ready]
    | cons a pending =>
      simp only [arrange] at h
      split at h
      next => cases h
      next b hb =>
        obtain ⟨rest, hrest, rfl⟩ := Option.map_eq_some_iff.mp h
        have mem := mem_of_find?_eq_some hb
        have found : (a :: pending ++ [c]).find? (fun k => (g k).all placed.contains) = some b := by
          rw [find?_append, find?_congr fun k hk => by rw [same k hk], hb]
          rfl
        have next := ih (fun k hk => same k (mem_of_mem_erase hk)) (fun hk => new (mem_of_mem_erase hk))
          (fun k hk => ?_) hrest
        · rw [cons_append] at found ⊢
          simp only [arrange, found]
          rw [← cons_append, erase_append_left _ mem, next]
          rfl
        · by_cases e : k = b
          · exact .inl (e ▸ mem_cons_self)
          · exact (driven k hk).imp (mem_cons_of_mem _) (mem_erase_of_ne e).mpr

theorem Adjoins.order (hd : WellFormed d) (h : Adjoins d d' owner c)
    (driven : ∀ {p}, d.op? owner = some p → ∀ k ∈ d'.drivers owner c, k ∈ p.children)
    (hq : (d.order m).run = .ok (.ok ids)) :
    (d'.order m).run = .ok (.ok (ids ++ if m = owner then [c] else [])) := by
  obtain ⟨p, hp, nodup, arranged⟩ := order_ok_iff.mp hq
  have same : ∀ k ∈ p.children, d'.drivers m k = d.drivers m k := by
    intro k hk
    obtain ⟨q, hq, -⟩ := hd.child hp hk
    exact h.drivers hd hq m
  refine order_ok_iff.mpr ⟨_, h.op hp, ?_⟩
  split
  next e =>
    subst e
    have new : c ∉ p.children := by
      intro hc
      obtain ⟨q, hq, -⟩ := hd.child hp hc
      exact h.ne_new hq rfl
    refine ⟨nodup_append_comm.mp (nodup.cons new), ?_⟩
    rw [length_append]
    exact arrange_snoc same new (fun k hk => .inr (driven hp k hk)) arranged
  next =>
    rw [append_nil, append_nil]
    exact ⟨nodup, arranged ▸ arrange_congr fun k hk j => by rw [same k hk]⟩

/-! ## One more access -/

structure AddsAccess (d d' : Design) (owner c : OpId) : Prop extends Adjoins d d' owner c where
  before : WellFormed d
  after : WellFormed d'
  access : ∃ o r, d'.op? c = some o ∧ o.owner = owner ∧ o.kind.isAccess = true ∧ d'.resource? o.resource = some r
  driven : ∀ {o v}, d'.op? c = some o → v ∈ Timing.forwardDeps d' o → v.minClocks = 0 ∧
    ∃ k q x, d.op? k = some q ∧ q.owner = owner ∧ x ∈ d.exitsOf q ∧ x.tag.kind ≠ .sideband ∧
    v.source ∈ x.done :: x.buses

theorem Kind.isAccess_plain {k : Kind} (h : k.isAccess = true) :
    k.isInlineModule = false ∧ k ≠ .loop ∧ k ≠ .taskCall := by
  cases k <;> simp_all [Kind.isAccess, Kind.isRead, Kind.isWrite, Kind.isInlineModule, Kind.isModule]

namespace AddsAccess

variable (h : AddsAccess d d' owner c)
include h

theorem plain (hc : d'.op? c = some o) : o.kind.isInlineModule = false ∧ o.kind ≠ .loop := by
  obtain ⟨p, -, hp, -, access, -⟩ := h.access
  cases hc.symm.trans hp
  obtain ⟨inline, loop, -⟩ := Kind.isAccess_plain access
  exact ⟨inline, loop⟩

theorem drivers_children (hp : d.op? owner = some p) : ∀ k ∈ d'.drivers owner c, k ∈ p.children := by
  intro k hk
  obtain ⟨o, -, ho, -⟩ := h.access
  unfold Design.drivers at hk
  rw [ho] at hk
  obtain ⟨hk, -⟩ := mem_filter.mp hk
  obtain ⟨v, hv, hs⟩ := mem_filterMap.mp hk
  obtain ⟨-, j, q, x, hq, own, hx, -, hb⟩ := h.driven ho hv
  obtain ⟨rfl, hx⟩ := h.before.exitsOf hq hx
  obtain ⟨b, hb, exit⟩ := h.before.bus_of_exit hx hb
  have carried : d.busOwner? v.source = some x.owner := by
    rw [busOwner?_eq, view_of _ (show at? d.buses v.source = some b from hb), exit]
    exact view_of _ hx
  rw [h.busOwner? h.before ⟨b, hb⟩, carried] at hs
  cases hs
  obtain ⟨p', hp', mem⟩ := h.before.mem_children hq (own ▸ ne_absent hp)
  rw [own] at hp'
  cases hp.symm.trans hp'
  exact mem

theorem order (hq : (d.order m).run = .ok (.ok ids)) :
    (d'.order m).run = .ok (.ok (ids ++ if m = owner then [c] else [])) :=
  h.toAdjoins.order h.before h.drivers_children hq

/-! ### Nesting -/

theorem nested (hx : Nested d mod x) : Nested d' mod x := by
  induction hx with
  | child hm hc => exact .child (h.op hm) (mem_append_left _ hc)
  | deeper _ ho hk hc ih => exact .deeper ih (h.op ho) hk (mem_append_left _ hc)

end AddsAccess

theorem newAccess_adds (hd : WellFormed d) (hm : d.op? owner = some o)
    (h : newAccess kind owner name resource latency d = .ok (c, d')) :
    AddsAccess d d' owner c ∧ ∀ {q}, d'.op? c = some q → Timing.forwardDeps d' q = [] := by
  have lt := (at?_lt hm).2
  have wf := (makes_newAccess lt).kept hd h
  obtain ⟨r, inputs, outputs, d1, hr, access, h1, rfl⟩ := newAccess_ok h
  have joined := adjoins_newPrimitive hd h1
  have filled : Fills c d1 { d1 with
      ops := editAt d1.ops c fun o => { o with resource }
      resources := editAt d1.resources resource fun r => { r with accesses := r.accesses ++ [c] } } :=
    ⟨size_editAt .., fun ne ho => by rwa [at?_edit_ne ne], fun h => h, fun h => h, fun _ h => h,
      fun h => h, view_edit_same _ _ fun _ => rfl, rfl⟩
  have all := joined.fill hd filled
  obtain ⟨-, q, e, x, y, hq, place, -, entries, deps, -⟩ := newPrimitive_makes h1
  have hq' : at? (editAt d1.ops c fun o => { o with resource }) c = some { q with resource } := by
    rw [at?_editAt, if_pos rfl, hq]
    rfl
  have bare : ∀ {p}, at? (editAt d1.ops c fun o => { o with resource }) c = some p → ∀ v,
    v ∉ Timing.forwardDeps d1 p := by
    intro p hp v hv
    cases hq'.symm.trans hp
    obtain ⟨n, hn, hv⟩ := mem_flatMap.mp hv
    obtain ⟨i, hi, hin⟩ := mem_filterMap.mp (mem_filter.mp hn).1
    rw [show ({ q with resource } : Operation).entries = [e] from entries, mem_singleton] at hi
    rw [hi] at hin
    rw [depsIn_of hin] at deps
    rw [deps] at hv
    cases hv
  obtain ⟨r', hr', -⟩ := view_some.mp (all.resource ▸ view_of Resource.traits hr)
  refine ⟨⟨all, hd, wf, ⟨_, r', hq', ?_, ?_, hr'⟩, fun hp hv => (bare hp _ hv).elim⟩,
    fun hp => eq_nil_iff_forall_not_mem.mpr (bare hp)⟩
  · exact congrArg Prod.snd place
  · have kind' : q.kind = kind := congrArg Prod.fst place
    rw [← kind'] at access
    exact access

theorem AddsAccess.start (h : AddsAccess d e owner c) (bare : ∀ {q}, e.op? c = some q → Timing.forwardDeps e q = [])
    (hk : d.op? k = some q) (own : q.owner = owner) (hx : x ∈ d.exitsOf q) (flows : x.tag.kind ≠ .sideband)
    (hb : b ∈ x.done :: x.buses) (hs : start c b e = .ok (i, d')) : AddsAccess d d' owner c := by
  have wf := ((keeps_start (n := 0) c b).run h.after (Int.natCast_nonneg _) hs).1
  have all := h.toAdjoins.fill h.before (fills_start h.after hs)
  obtain ⟨p, r, hp, own', access, hr⟩ := h.access
  obtain ⟨p', entry, hp', -, g⟩ := start_gains (T := fun _ => False) h.after hs
  cases hp.symm.trans hp'
  obtain ⟨cs, hc⟩ := g.op (fun h => h) hp
  obtain ⟨r', hr', -⟩ := view_some.mp (all.resource ▸ h.resource ▸ view_of Resource.traits hr)
  refine ⟨all, h.before, wf, ⟨_, r', hc, own', access, hr'⟩, fun hp'' hv => ?_⟩
  obtain ⟨j, face, hv⟩ := (forward_iff wf hp'').mp hv
  rw [g.deps, mem_append] at hv
  rcases hv with old | new
  · have intact : Intact e d' c := g.intact fun h => h
    have face := intact.entryBack h.after wf hp face
    have none := (forward_iff h.after hp).mpr ⟨j, face, old⟩
    rw [bare hp] at none
    cases none
  · cases mem_singleton.mp (mem_filter.mp new).1
    exact ⟨rfl, k, q, x, hk, own, hx, flows, hb⟩

end Datapath
