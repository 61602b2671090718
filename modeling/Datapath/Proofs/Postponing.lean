import Datapath.Proofs.Resolution

/-!
# Delays make nothing earlier

A dependency more lets an operation wait longer, and what waits for it in turn. Only an operation that
nothing has driven before gets another start than its module, and this start is no earlier, as its driver
lies in the same module.
-/

namespace Datapath

open List

/-! ## Bounds -/

namespace Latency

theorem Covers.after {x : Latency} (hx : x.Valid) (hk : k.Valid) (hl : l.Valid) (xk : x.Adds k) (xl : x.Adds l)
  (h : k.Covers l) :
    (x.after k).Covers (x.after l) := by
  obtain ⟨min, max⟩ := covers_iff.mp h
  refine covers_iff.mpr ⟨?_, fun closed => ?_⟩
  · rw [after_min hx hk xk, after_min hx hl xl]
    exact Int.add_le_add_left min _
  · rw [after_isOpen hx hk, Bool.or_eq_false_iff] at closed
    obtain ⟨closed', max⟩ := max closed.2
    rw [after_isOpen hx hl, closed.1, closed', after_max hx hk xk closed.1 closed.2,
      after_max hx hl xl closed.1 closed']
    exact ⟨rfl, Int.add_le_add_left max _⟩

theorem after_covers {x : Latency} (hx : x.Valid) (hl : l.Valid) (xl : x.Adds l) : (x.after l).Covers l := by
  refine covers_iff.mpr ⟨?_, fun closed => ?_⟩
  · rw [after_min hx hl xl]
    exact Int.le_add_of_nonneg_left hx.1
  · rw [after_isOpen hx hl, Bool.or_eq_false_iff] at closed
    rw [after_max hx hl xl closed.1 closed.2]
    exact ⟨closed.2, Int.le_add_of_nonneg_left (hx.max_nonneg closed.1)⟩

end Latency

namespace Timing

open Latency

theorem arrival_mono (hv : 0 ≤ v.minClocks.toInt) (hk : k.Valid) (hl : l.Valid)
    (vk : (⟨v.minClocks, v.minClocks, 0⟩ : Latency).Adds k) (vl : (⟨v.minClocks, v.minClocks, 0⟩ : Latency).Adds l)
    (h : k.Covers l) : (arrival v k).Covers (arrival v l) := by
  obtain ⟨-, ko, kmin, kmax⟩ := arrival_exact hv hk vk
  obtain ⟨-, lo, lmin, lmax⟩ := arrival_exact hv hl vl
  obtain ⟨min, max⟩ := covers_iff.mp h
  refine covers_iff.mpr ⟨by omega, fun closed => ?_⟩
  obtain ⟨closed', max⟩ := max (ko ▸ closed)
  rw [kmax (ko ▸ closed), lmax closed']
  exact ⟨lo.trans closed', Int.add_le_add_right max _⟩

theorem arrival_covers (hv : 0 ≤ v.minClocks.toInt) (hl : l.Valid)
    (vl : (⟨v.minClocks, v.minClocks, 0⟩ : Latency).Adds l) : (arrival v l).Covers l := by
  obtain ⟨-, lo, lmin, lmax⟩ := arrival_exact hv hl vl
  refine covers_iff.mpr ⟨by omega, fun closed => ⟨lo ▸ closed, ?_⟩⟩
  rw [lmax (lo ▸ closed)]
  omega

theorem startOf_covers (hne : ls ≠ []) (h : ∀ k ∈ ls, k.Covers m) : (startOf kind outer ls).Covers m := by
  obtain ⟨k, hk, attained⟩ := startOf_min_attained kind outer hne
  obtain ⟨min, max⟩ := covers_iff.mp (h k hk)
  refine covers_iff.mpr ⟨attained ▸ min, fun closed => ?_⟩
  obtain ⟨closed', upper⟩ := closed_of_start kind _ hne closed hk
  exact ⟨(max closed').1, Int.le_trans (max closed').2 upper⟩

/-- A start is no earlier if each arrival has become later, and of a mux none has been added. -/
theorem startOf_mono (hne : ls ≠ []) (later : ∀ k ∈ ls, ∃ k' ∈ ls', k'.Covers k)
    (mux : kind = .mux → ∀ k' ∈ ls', ∃ k ∈ ls, k'.Covers k) :
    (startOf kind outer' ls').Covers (startOf kind outer ls) := by
  obtain ⟨_, some⟩ := exists_mem_of_ne_nil ls hne
  have hne' : ls' ≠ [] := by
    obtain ⟨_, hk', -⟩ := later _ some
    exact ne_nil_of_mem hk'
  refine covers_iff.mpr ⟨?_, fun closed => ?_⟩
  · by_cases hk : kind = .mux
    · subst hk
      obtain ⟨k', hk', attained⟩ := (startOf_mux_min outer' hne').1
      obtain ⟨k, hk, covers⟩ := mux rfl k' hk'
      exact Int.le_trans ((startOf_mux_min outer hne).2 k hk) (attained ▸ covers.1)
    · obtain ⟨k, hmem, attained⟩ := (startOf_min kind outer hk hne).1
      obtain ⟨k', hk', covers⟩ := later k hmem
      exact attained ▸ Int.le_trans covers.1 ((startOf_min kind outer' hk hne').2 k' hk')
  · have ends := startOf_ends kind outer hne
    have bounded : (startOf kind outer ls).isOpen = false := by
      rw [ends.isOpen, any_eq_false]
      intro k hk
      obtain ⟨k', hk', covers⟩ := later k hk
      simpa using ((covers_iff.mp covers).2 (closed_of_start kind _ hne' closed hk').1).1
    obtain ⟨k, hk, attained⟩ := ends.attained bounded
    obtain ⟨k', hk', covers⟩ := later k hk
    obtain ⟨closed', upper⟩ := closed_of_start kind _ hne' closed hk'
    exact ⟨bounded, attained ▸ Int.le_trans ((covers_iff.mp covers).2 closed').2 upper⟩

/-! ## Timings of two designs -/

section
variable {d d' : Design}

theorem option_rel {α : Type} {R : α → α → Prop} {x y : Option α} (both : (∃ a, x = some a) ↔ ∃ b, y = some b)
    (rel : ∀ {a b}, x = some a → y = some b → R a b) : Option.Rel R x y := by
  cases x with
  | none =>
    cases y with
    | none => exact .none
    | some b =>
      obtain ⟨_, e⟩ := both.mpr ⟨b, rfl⟩
      cases e
  | some a =>
    obtain ⟨b, rfl⟩ := both.mp ⟨a, rfl⟩
    exact .some (rel rfl rfl)

structure Reliable (d : Design) (mod : OpId) (base : Latency) (own : Bool) (t : Timing) : Prop extends
    Settled d mod base own t where
  wf : WellFormed d
  flows : FlowsLocally d
  exits : ∀ {x}, FlowExit d mod x → x.latency.Valid
  starts : base.Valid
  small : NoOverflow d mod t

namespace Reliable

variable (h : Reliable d mod base own t)
include h

theorem inputs (hn : Nested d mod c) (hl : t.input? c = some l) : l.Valid :=
  (h.valid h.wf (fun _ => h.starts) h.exits h.small).1 hn hl

theorem buses (hl : t.bus? b = some l) : l.Valid := (h.valid h.wf (fun _ => h.starts) h.exits h.small).2 hl

theorem input_iff : (∃ l, t.input? c = some l) ↔ c = mod ∨ Nested d mod c := by
  refine ⟨fun ⟨_, hl⟩ => h.inside hl, ?_⟩
  rintro (rfl | hn)
  · exact ⟨base, h.root⟩
  · obtain ⟨o, ho⟩ := hn.exists_op h.wf
    obtain ⟨_, _, -, -, hl⟩ := h.start hn ho
    exact ⟨_, hl⟩

theorem bus_iff : (∃ l, t.bus? b = some l) ↔ FlowBus d mod b := by
  refine ⟨fun ⟨_, hl⟩ => ?_, h.carries⟩
  obtain ⟨bus, x, _, hb, hx, flow, -⟩ := h.bus hl
  obtain ⟨y, hy, carried⟩ := h.wf.buses.held hb rfl
  cases hx.symm.trans hy
  exact ⟨x, flow, carried⟩

/-- An operation starts no earlier than its module: where it is driven, its drivers are of the same module. -/
theorem covers_opening (hn : Nested d mod c) (ho : d.op? c = some o) (hl : t.input? c = some l)
    (hm : t.opening? own o.owner = some m) : l.Covers m := by
  obtain ⟨g, timed⟩ := h.order
  refine timed.induct (P := fun c => Nested d mod c → ∀ o l, d.op? c = some o → t.input? c = some l →
    t.opening? own o.owner = some m → l.Covers m) ?_ ?_ (.inr hn) hn o l ho hl hm
  · exact fun hn => absurd (hn.lt h.wf) (Int.lt_irrefl _)
  intro c o hn ho _ drivers _ _ l same hl hm
  cases ho.symm.trans same
  obtain ⟨outer, times, opens, driven, hin⟩ := h.start hn ho
  cases hin.symm.trans hl
  cases opens.symm.trans hm
  by_cases none : forwardDeps d o = []
  · rw [none]
    exact .refl _
  refine startOf_covers (by simpa using none) fun k hk => ?_
  obtain ⟨v, hv, rfl⟩ := mem_map.mp hk
  obtain ⟨bus, x, input, hb, hx, flow, hi, e⟩ := h.bus (driven v hv)
  obtain ⟨nested, there⟩ := flow.exit h.wf
  have drives := busOwner?_of_exit hb hx
  obtain ⟨s, hs, owner⟩ : ∃ s, d.op? x.owner = some s ∧ s.owner = o.owner := by
    have sibling := h.flows o (mem_of_at? ho) v hv
    rw [drives] at sibling
    exact Option.map_eq_some_iff.mp sibling
  have before := drivers v hv _ drives nested s input hs hi (owner ▸ hm)
  have carried :=
    arrival_covers (clocks_nonneg h.wf hv) (h.buses (driven v hv)) (h.small.deps hn ho hv (driven v hv))
  rw [e] at carried ⊢
  exact (carried.trans (after_covers (h.exits flow) (h.inputs nested hi) (h.small.exits flow hi))).trans before

end Reliable

/-- The second design has the dependencies of the first and no other ones into a mux. -/
structure Postpones (d d' : Design) : Prop where
  same : SameButDeps d d'
  more : ∀ {c o v}, d.op? c = some o → v ∈ forwardDeps d o → v ∈ forwardDeps d' o
  mux : ∀ {c o v}, d.op? c = some o → o.kind = .mux → v ∈ forwardDeps d' o → v ∈ forwardDeps d o

namespace Postpones

variable (p : Postpones d d') (h : Reliable d mod base own t) (h' : Reliable d' mod base own t')
include p h h'

theorem bus_covers (hl : t.bus? b = some l) (hl' : t'.bus? b = some l')
    (known : ∀ src, d'.busOwner? b = some src → ∀ k k', t.input? src = some k → t'.input? src = some k' →
        k'.Covers k) : l'.Covers l := by
  obtain ⟨bus, x, input, hb, hx, flow, hi, rfl⟩ := h.bus hl
  obtain ⟨bus', x', input', hb', hx', flow', hi', rfl⟩ := h'.bus hl'
  have line : bus'.exit = bus.exit := by
    have := congrFun p.same.lines b
    rw [view_of _ hb, view_of _ hb', Option.some.injEq] at this
    exact this
  have : x' = x := by
    rw [line, Design.exit?, p.same.exits] at hx'
    exact Option.some.inj (hx'.symm.trans hx)
  subst this
  have covers := known _ (busOwner?_of_exit hb' hx') _ _ hi hi'
  exact covers.after (h.exits flow) (h'.inputs (flow'.exit h'.wf).1 hi') (h.inputs (flow.exit h.wf).1 hi)
    (h'.small.exits flow' hi') (h.small.exits flow hi)

theorem input_covers (hl : t.input? c = some l) (hl' : t'.input? c = some l') : l'.Covers l := by
  obtain ⟨g, timed⟩ := h'.order
  refine timed.induct (P := fun c => ∀ l l', t.input? c = some l → t'.input? c = some l' → l'.Covers l) ?_ ?_
    (h'.inside hl') l l' hl hl'
  · intro l l' hl hl'
    cases h.root.symm.trans hl
    cases h'.root.symm.trans hl'
    exact .refl _
  intro c o nested' there' owner drivers l l' hl hl'
  have nested := p.same.nested nested'
  have there : d.op? c = some o := p.same.op? ▸ there'
  obtain ⟨outer, times, opens, driven, hin⟩ := h.start nested there
  obtain ⟨outer', times', opens', driven', hin'⟩ := h'.start nested' there'
  cases hin.symm.trans hl
  by_cases none : forwardDeps d o = []
  · -- what nothing has driven starts with its module
    have opening : outer'.Covers outer := by
      cases own with
      | false => exact owner _ _ opens opens'
      | true =>
        cases opens
        cases opens'
        exact .refl _
    rw [none]
    exact (h'.covers_opening nested' there' hl' opens').trans opening
  cases hin'.symm.trans hl'
  have each {v} (hv : v ∈ forwardDeps d o) (hv' : v ∈ forwardDeps d' o) :
      (arrival v (times' v)).Covers (arrival v (times v)) :=
    arrival_mono (clocks_nonneg h.wf hv) (h'.buses (driven' v hv')) (h.buses (driven v hv))
      (h'.small.deps nested' there' hv' (driven' v hv')) (h.small.deps nested there hv (driven v hv))
      (p.bus_covers h h' (driven v hv) (driven' v hv') (drivers v hv'))
  refine startOf_mono (by simpa using none) (fun k hk => ?_) fun mux k hk => ?_
  · obtain ⟨v, hv, rfl⟩ := mem_map.mp hk
    exact ⟨_, mem_map_of_mem (p.more there hv), each hv (p.more there hv)⟩
  · obtain ⟨v, hv, rfl⟩ := mem_map.mp hk
    exact ⟨_, mem_map_of_mem (p.mux there mux hv), each (p.mux there mux hv) hv⟩

theorem all : (∀ c, Option.Rel (fun l l' => l'.Covers l) (t.input? c) (t'.input? c)) ∧
    ∀ b, Option.Rel (fun l l' => l'.Covers l) (t.bus? b) (t'.bus? b) := by
  constructor
  · intro c
    have both : (∃ l, t.input? c = some l) ↔ ∃ l, t'.input? c = some l := by
      rw [h.input_iff, h'.input_iff]
      exact or_congr_right ⟨p.same.symm.nested, p.same.nested⟩
    exact option_rel both fun hl hl' => p.input_covers h h' hl hl'
  · intro b
    have both : (∃ l, t.bus? b = some l) ↔ ∃ l, t'.bus? b = some l := by
      rw [h.bus_iff, h'.bus_iff]
      exact exists_congr fun x => and_congr_left fun _ => ⟨p.same.symm.flowExit, p.same.flowExit⟩
    exact option_rel both fun hl hl' =>
      p.bus_covers h h' hl hl' fun _ _ _ _ hk hk' => p.input_covers h h' hk hk'

end Postpones

/-! ## One more dependency -/

section
variable {id : DepId}

theorem connectResource_forward (hd : WellFormed d)
    (ran : connectResource entry source target clocks d = .ok (id, d')) (he : at? d.entries entry = some e)
    (ho : d.op? e.owner = some o) :
    SameButDeps d d' ∧ WellFormed d' ∧ ∀ {c p v}, d.op? c = some p → (v ∈ forwardDeps d p → v ∈ forwardDeps d' p) ∧
    (v ∈ forwardDeps d' p → v ∈ forwardDeps d p ∨ p = o ∧ v.source = source) := by
  have wf : WellFormed d' := (keeps_addDependency ..).kept hd ran
  obtain ⟨rfl, gains⟩ := connectResource_attaches hd ran
  have same := attachAll_same d [{ id, kind := .resource, entry, source, target, minClocks := clocks }]
  refine ⟨same, wf, fun {c p v} hp => ?_⟩
  have forward := same.forward_iff (v := v) hd wf gains.deps hp
  refine ⟨fun hv => forward.mpr (.inl hv), fun hv => (forward.mp hv).imp_right ?_⟩
  rintro ⟨added, face⟩
  cases mem_singleton.mp added
  rw [view_of _ he, Option.some.injEq] at face
  have owner : e.owner = c := congrArg Prod.fst face
  exact ⟨Option.some.inj (hp.symm.trans (owner ▸ ho)), rfl⟩

/-- A further dependency of an operation on one beside it makes nothing start and no value arrive earlier, unless it
is a mux that gets the dependency. -/
theorem delay_makes_nothing_earlier (hd : WellFormed d) (flows : FlowsLocally d)
    (ran : connectResource entry source target clocks d = .ok (id, d')) (he : at? d.entries entry = some e)
    (ho : d.op? e.owner = some o) (kind : o.kind ≠ .mux)
    (sibling : ((d.busOwner? source).bind d.op?).map Operation.owner = some o.owner)
    (starts : base.Valid) (exits : ∀ x, FlowExit d mod x → x.latency.Valid)
    (first : (compute d mod base).run { perModule := own } = .ok (.ok (), t))
    (second : (compute d' mod base).run { perModule := own } = .ok (.ok (), t'))
    (small : NoOverflow d mod t) (small' : NoOverflow d' mod t') :
    (∀ c, Option.Rel (fun l l' => l'.Covers l) (t.input? c) (t'.input? c)) ∧
      ∀ b, Option.Rel (fun l l' => l'.Covers l) (t.bus? b) (t'.bus? b) := by
  obtain ⟨same, wf, forward⟩ := connectResource_forward hd ran he ho
  have flows' : FlowsLocally d' := by
    intro p hp v hv
    rw [same.ops] at hp
    rw [same.busOwner?, same.op?]
    rcases (forward (hd.nesting.ids.at?_of_mem (Array.mem_toList_iff.mpr hp))).2 hv with old | ⟨rfl, source⟩
    · exact flows p hp v old
    · exact source ▸ sibling
  have postpones : Postpones d d' := by
    refine ⟨same, fun hp => (forward hp).1, fun hp mux hv => ((forward hp).2 hv).resolve_right ?_⟩
    rintro ⟨rfl, -⟩
    exact kind mux
  exact postpones.all ⟨compute_settled hd first, hd, flows, fun h => exits _ h, starts, small⟩
    ⟨compute_settled wf second, wf, flows', fun h => exits _ (same.flowExit h), starts, small'⟩

/-- An operation that waited for a mux starts later once it also waits two clocks for another operation. -/
theorem second_driver_postpones : ∃ d d' id t t', runAll (muxCommands.take 10) { name := "x" } = some d ∧
    connectResource 6 2 7 2 d = .ok (id, d') ∧ (compute d 0 ⟨0, 4, 0⟩).run .absolute = .ok (.ok (), t) ∧
    (compute d' 0 ⟨0, 4, 0⟩).run .absolute = .ok (.ok (), t') ∧ t.input? 6 = some ⟨1, unknown, 7⟩ ∧
    t'.input? 6 = some ⟨3, unknown, 7⟩ ∧ Option.Rel (fun l l' => l'.Covers l) (t.input? 6) (t'.input? 6) ∧
    Option.Rel (fun l l' => l'.Covers l) (t.bus? 8) (t'.bus? 8) := by
  obtain ⟨d, hd, id, d', ran, _, t, ht, _, t', ht', e, he, o, ho, kind, sibling, flows, before, after, small,
    small', valid⟩ :
      ∃ d, runAll (muxCommands.take 10) { name := "x" } = some d ∧ ∃ id d',
      connectResource 6 2 7 2 d = .ok (id, d') ∧ ∃ u t, (compute d 0 ⟨0, 4, 0⟩).run .absolute = .ok (.ok u, t) ∧
      ∃ u t', (compute d' 0 ⟨0, 4, 0⟩).run .absolute = .ok (.ok u, t') ∧ ∃ e, at? d.entries 6 = some e ∧
      ∃ o, d.op? e.owner = some o ∧ o.kind = .op ∧ ((d.busOwner? 2).bind d.op?).map Operation.owner = some o.owner ∧
      FlowsLocally d ∧ t.input? 6 = some ⟨1, unknown, 7⟩ ∧ t'.input? 6 = some ⟨3, unknown, 7⟩ ∧ isSmall d t = true ∧
      isSmall d' t' = true ∧ ∀ x ∈ d.exits, x.latency.Valid := by
    set_option synthInstance.maxSize 100000 in decide +kernel
  have wf := ((Built.empty "x").runAll hd).wellFormed
  have wf' : WellFormed d' := (keeps_addDependency ..).kept wf ran
  obtain ⟨inputs, buses⟩ := delay_makes_nothing_earlier wf flows ran he ho (by rw [kind]; nofun) sibling (by decide)
    (fun x hx => valid x (mem_of_at? (hx.exit wf).2)) ht ht' (noOverflow_of_isSmall wf small)
      (noOverflow_of_isSmall wf' small')
  exact ⟨d, d', id, t, t', hd, ran, ht, ht', before, after, inputs 6, buses 8⟩

end

end

end Timing

end Datapath
