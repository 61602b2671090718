import Datapath.Timing
import Datapath.Proofs.Nested

/-!
# How a timing comes about

The starts in a timing follow from each other: an operation starts by its owner and by the buses that
drive it, all of which belong to operations that were started before. A computation that ends well
starts every operation inside the module once and leaves the times of all their buses.
-/

namespace Datapath.Timing

open List

variable {α β : Type}

section
variable {d : Design}

def BusAt (d : Design) (mod : OpId) (starts : List (OpId × Latency)) (b : BusId) (l : Latency) : Prop :=
  ∃ bus x input, d.bus? b = some bus ∧ d.exit? bus.exit = some x ∧ FlowExit d mod x ∧ (x.owner, input) ∈ starts ∧
    l = x.latency.after input

inductive Trace (d : Design) (mod : OpId) (base : Latency) : List (OpId × Latency) → Prop where
  | root : Trace d mod base [(mod, base)]
  | start {starts : List (OpId × Latency)} {c : OpId} {o : Operation} {outer : Latency}
      {times : Dependency → Latency} (h : Trace d mod base starts) (inside : Nested d mod c) (hc : d.op? c = some o)
      (new : c ∉ starts.map Prod.fst) (owner : (o.owner, outer) ∈ starts)
      (driven : ∀ v ∈ forwardDeps d o, BusAt d mod starts v.source (times v)) :
      Trace d mod base ((c, startOf o.kind outer ((forwardDeps d o).map fun v => arrival v (times v))) :: starts)

theorem BusAt.mono (h : BusAt d mod starts b l) (sub : ∀ p ∈ starts, p ∈ more) : BusAt d mod more b l := by
  obtain ⟨bus, x, input, hb, hx, hs, hin, rfl⟩ := h
  exact ⟨bus, x, input, hb, hx, hs, sub _ hin, rfl⟩

theorem Trace.nodup (h : Trace d mod base starts) : (starts.map Prod.fst).Nodup := by
  induction h with
  | root => simp
  | start _ _ _ new _ _ ih => exact nodup_cons.mpr ⟨new, ih⟩

theorem Trace.root_mem (h : Trace d mod base starts) : ∃ l, (mod, l) ∈ starts := by
  induction h with
  | root => exact ⟨base, mem_singleton_self _⟩
  | start _ _ _ _ _ _ ih => exact ih.imp fun _ h => mem_cons_of_mem _ h

theorem lookup_of_mem [BEq α] [LawfulBEq α] {l : List (α × β)} (hn : (l.map Prod.fst).Nodup)
    {a : α} {b : β} (h : (a, b) ∈ l) : l.lookup a = some b := by
  induction l with
  | nil => cases h
  | cons p l ih =>
    obtain ⟨hp, hl⟩ := nodup_cons.mp hn
    rcases mem_cons.mp h with rfl | h
    · simp
    · have hne : a ≠ p.1 := fun e => hp (e ▸ mem_map_of_mem h)
      rw [lookup_cons, beq_false_of_ne hne]
      exact ih hl h

theorem mem_of_lookup [BEq α] [LawfulBEq α] {l : List (α × β)} {a : α} {b : β}
    (h : l.lookup a = some b) : (a, b) ∈ l := by
  obtain ⟨l1, l2, rfl, -⟩ := lookup_eq_some_iff.mp h
  simp

theorem lookup_of_mem_keys [BEq α] [LawfulBEq α] {l : List (α × β)} {a : α}
    (h : a ∈ l.map Prod.fst) : ∃ b, l.lookup a = some b := by
  obtain ⟨p, hp, rfl⟩ := mem_map.mp h
  cases hl : l.lookup p.1 with
  | none => simpa using lookup_eq_none_iff.mp hl p hp
  | some b => exact ⟨b, rfl⟩

theorem Trace.unique (h : Trace d mod base starts) (hl : (c, l) ∈ starts) (hl' : (c, l') ∈ starts) : l = l' := by
  have := lookup_of_mem h.nodup hl
  rw [lookup_of_mem h.nodup hl'] at this
  exact (Option.some.inj this).symm

theorem Trace.start_of_mem (h : Trace d mod base starts) (hc : (c, l) ∈ starts) :
    c = mod ∧ l = base ∨ ∃ (o : Operation) (outer : Latency) (times : Dependency → Latency),
      Nested d mod c ∧ d.op? c = some o ∧ (o.owner, outer) ∈ starts ∧
      (∀ v ∈ forwardDeps d o, BusAt d mod starts v.source (times v)) ∧
      l = startOf o.kind outer ((forwardDeps d o).map fun v => arrival v (times v)) := by
  induction h with
  | root =>
    obtain ⟨rfl, rfl⟩ := Prod.mk.inj (mem_singleton.mp hc)
    exact .inl ⟨rfl, rfl⟩
  | @start starts k o outer times _ inside ho _ owner driven ih =>
    have sub : ∀ {l}, ∀ p ∈ starts, p ∈ (k, l) :: starts := fun p hp => mem_cons_of_mem _ hp
    rcases mem_cons.mp hc with e | hc
    · obtain ⟨rfl, rfl⟩ := Prod.mk.inj e
      exact .inr ⟨o, outer, times, inside, ho, sub _ owner, fun v hv => (driven v hv).mono sub, rfl⟩
    · rcases ih hc with h | ⟨o, outer, times, inside, ho, owner, driven, rfl⟩
      · exact .inl h
      · exact .inr ⟨o, outer, times, inside, ho, sub _ owner, fun v hv => (driven v hv).mono sub, rfl⟩

theorem BusAt.unique (ht : Trace d mod base starts) (h : BusAt d mod starts b l) (h' : BusAt d mod starts b l') :
    l = l' := by
  obtain ⟨bus, x, input, hb, hx, -, hin, rfl⟩ := h
  obtain ⟨bus', x', input', hb', hx', -, hin', rfl⟩ := h'
  rw [hb] at hb'; cases hb'
  rw [hx] at hx'; cases hx'
  rw [ht.unique hin hin']

/-! ## One operation -/

theorem inputOf_ok {t : Timing} (h : (t.inputOf d o outer).run = .ok (.ok l)) :
    ∃ times : Dependency → Latency, (∀ v ∈ forwardDeps d o, t.bus? v.source = some (times v)) ∧
      l = startOf o.kind outer ((forwardDeps d o).map fun v => arrival v (times v)) := by
  obtain ⟨ls, hls, h⟩ := query_bind_ok.mp h
  have each := query_mapM_ok (P := fun v => ∃ l, t.bus? v.source = some l)
    (g := fun v => arrival v ((t.bus? v.source).getD .zero)) ?_ hls
  · obtain ⟨known, rfl⟩ := each
    refine ⟨fun v => (t.bus? v.source).getD .zero, ?_, query_pure_ok.mp h⟩
    intro v hv
    obtain ⟨l, hl⟩ := known v hv
    simp only [hl, Option.getD_some]
  · intro v _ l h
    split at h
    next k hk => rw [hk]; exact ⟨⟨k, rfl⟩, query_pure_ok.mp h⟩
    next =>
      obtain ⟨b, -, h⟩ := query_bind_ok.mp h
      exact (reject_ok.mp h).elim

theorem inside_succ (n : Nat) (m : OpId) (outer : Latency) :
    inside d (n + 1) m outer = (do let ids ← fromQuery (d.order m); ids.forM (timeOne d (inside d n) outer)) := rfl

theorem fromQuery_ok {q : Query α} {a : α} :
    (fromQuery q).run t = .ok (.ok a, t') ↔ q.run = .ok (.ok a) ∧ t' = t := by
  change (q.run >>= fun r => pure (r, t)) = _ ↔ _
  rw [bind_ok]
  constructor
  · rintro ⟨r, hr, h⟩; cases h; exact ⟨hr, rfl⟩
  · rintro ⟨h, rfl⟩; exact ⟨_, h, rfl⟩

theorem timeOne_ok (h : (timeOne d (inside d n) outer c).run t = .ok (.ok (), t')) :
    ∃ o input u, d.op? c = some o ∧ (t.inputOf d o outer).run = .ok (.ok input) ∧ (if o.kind.isInlineModule then
        (inside d n c (if t.perModule then .zero else input)).run { t with inputs := (c, input) :: t.inputs } =
          .ok (.ok (), u)
      else u = { t with inputs := (c, input) :: t.inputs }) ∧
      t' = { u with buses := busesOf d o input ++ u.buses } := by
  simp only [timeOne, step_bind_ok, step_lift_ok, fromQuery_ok, step_modify_ok] at h
  obtain ⟨o, _, ⟨ho, rfl⟩, _, _, ⟨rfl, rfl⟩, input, t, ⟨hq, rfl⟩, _, _, rfl, h⟩ := h
  refine ⟨o, input, ?_⟩
  split at h
  next hi =>
    obtain ⟨_, u, hu, h⟩ := step_bind_ok.mp h
    exact ⟨u, op_ok ho, hq, by rw [if_pos hi]; exact hu, step_modify_ok.mp h⟩
  next hi => exact ⟨_, op_ok ho, hq, by rw [if_neg hi], step_modify_ok.mp h⟩

theorem busesOf_at (hd : WellFormed d) (hn : Nested d mod c) (hc : d.op? c = some o)
    (hin : (c, input) ∈ starts) (h : (b, l) ∈ busesOf d o input) : BusAt d mod starts b l := by
  simp only [busesOf, mem_flatMap, mem_filter, bne_iff_ne, mem_map] at h
  obtain ⟨x, ⟨hx, hs⟩, _, hb, rfl, rfl⟩ := h
  obtain ⟨rfl, he⟩ := hd.exitsOf hc hx
  obtain ⟨bus, hbus, hex⟩ := hd.bus_of_exit he hb
  exact ⟨bus, x, input, hbus, by rw [hex]; exact he, ⟨hs, _, o, hn, hc, hx⟩, hin, rfl⟩

/-! ## A module -/

def started (t : Timing) : List OpId := t.inputs.map Prod.fst

def reached (t : Timing) : List BusId := t.buses.map Prod.fst

structure Underway (d : Design) (mod : OpId) (base : Latency) (t : Timing) : Prop where
  absolute : t.perModule = false
  trace : Trace d mod base t.inputs
  buses : ∀ {b l}, (b, l) ∈ t.buses → BusAt d mod t.inputs b l

structure Grown (d : Design) (ids : List OpId) (t t' : Timing) : Prop where
  inputs : ∀ p ∈ t.inputs, p ∈ t'.inputs
  buses : ∀ p ∈ t.buses, p ∈ t'.buses
  only : ∀ c ∈ t'.started, c ∈ t.started ∨ Within d ids c
  all : ∀ {c}, Within d ids c → c ∈ t'.started
  allBuses : ∀ {c o x b}, Within d ids c → d.op? c = some o → x ∈ d.exitsOf o → x.tag.kind ≠ .sideband →
    b ∈ x.done :: x.buses → b ∈ t'.reached

theorem Grown.nil (t : Timing) : Grown d [] t t where
  inputs _ h := h
  buses _ h := h
  only _ h := .inl h
  all := by rintro c ⟨k, hk, -⟩; cases hk
  allBuses := by rintro c o x b ⟨k, hk, -⟩; cases hk

theorem Grown.cons (h : Grown d [a] t u) (h' : Grown d ids u t') : Grown d (a :: ids) t t' := by
  have split : ∀ {c}, Within d (a :: ids) c → Within d [a] c ∨ Within d ids c := by
    rintro c ⟨k, hk, hc⟩
    rcases mem_cons.mp hk with rfl | hk
    · exact .inl ⟨k, mem_singleton_self k, hc⟩
    · exact .inr ⟨k, hk, hc⟩
  refine ⟨fun p hp => h'.inputs p (h.inputs p hp), fun p hp => h'.buses p (h.buses p hp), ?_, ?_, ?_⟩
  · intro c hc
    rcases h'.only c hc with hc | ⟨k, hk, hc⟩
    · refine (h.only c hc).imp_right ?_
      rintro ⟨k, hk, hc⟩
      exact ⟨k, by rw [mem_singleton.mp hk]; exact mem_cons_self, hc⟩
    · exact .inr ⟨k, mem_cons_of_mem _ hk, hc⟩
  · intro c hc
    rcases split hc with hc | hc
    · obtain ⟨p, hp, rfl⟩ := mem_map.mp (h.all hc)
      exact mem_map_of_mem (h'.inputs p hp)
    · exact h'.all hc
  · intro c o x b hc ho hx hs hb
    rcases split hc with hc | hc
    · obtain ⟨p, hp, rfl⟩ := mem_map.mp (h.allBuses hc ho hx hs hb)
      exact mem_map_of_mem (h'.buses p hp)
    · exact h'.allBuses hc ho hx hs hb

theorem Grown.congr (h : ∀ a, a ∈ ids ↔ a ∈ ids') (hg : Grown d ids t t') : Grown d ids' t t' where
  inputs := hg.inputs
  buses := hg.buses
  only c hc := (hg.only c hc).imp_right (Within.congr h).mp
  all hc := hg.all ((Within.congr h).mpr hc)
  allBuses hc := hg.allBuses ((Within.congr h).mpr hc)

theorem Underway.owner_started (ht : Underway d mod base t)
    (hc : d.op? c = some o) (hne : c ≠ mod) (hs : c ∈ t.started) : o.owner ∈ t.started := by
  obtain ⟨⟨_, l⟩, hp, rfl⟩ := mem_map.mp hs
  rcases ht.trace.start_of_mem hp with ⟨e, -⟩ | ⟨o', outer, times, -, ho', owner, -, -⟩
  · exact absurd e hne
  · rw [hc] at ho'; cases ho'
    exact mem_map_of_mem owner

structure Entered (d : Design) (mod : OpId) (t : Timing) (m : OpId) (p : Operation) (outer : Latency) : Prop where
  op : d.op? m = some p
  place : m = mod ∨ Nested d mod m ∧ p.kind.isInlineModule = true
  start : (m, outer) ∈ t.inputs

theorem Entered.nested (h : Entered d mod t m p outer) (hc : c ∈ p.children) : Nested d mod c := by
  rcases h.place with rfl | ⟨hn, hi⟩
  · exact .child h.op hc
  · exact .deeper hn h.op hi hc

theorem Underway.start (hd : WellFormed d) (ht : Underway d mod base t)
     (hm : Entered d mod t m p outer) (hc : c ∈ p.children)
    (ho : d.op? c = some o) (new : c ∉ t.started) (hq : (t.inputOf d o outer).run = .ok (.ok input)) :
    Underway d mod base { t with inputs := (c, input) :: t.inputs } := by
  obtain ⟨times, known, rfl⟩ := inputOf_ok hq
  obtain ⟨k, hk, hown⟩ := hd.child hm.op hc
  rw [ho] at hk; cases hk
  refine ⟨ht.absolute, .start ht.trace (hm.nested hc) ho new (by rw [hown]; exact hm.start) ?_, ?_⟩
  · exact fun v hv => ht.buses (mem_of_lookup (known v hv))
  · exact fun hb => (ht.buses hb).mono fun p hp => mem_cons_of_mem _ hp

theorem mem_busesOf (hx : x ∈ d.exitsOf o) (hs : x.tag.kind ≠ .sideband) (hb : b ∈ x.done :: x.buses) :
    (b, x.latency.after input) ∈ busesOf d o input := by
  simp only [busesOf, mem_flatMap, mem_filter, bne_iff_ne, mem_map, Prod.mk.injEq]
  exact ⟨x, ⟨hx, hs⟩, b, hb, rfl, rfl⟩

theorem Underway.finish (hd : WellFormed d) (hu : Underway d mod base u) (hn : Nested d mod c)
    (ho : d.op? c = some o) (hg : Grown d o.inner { t with inputs := (c, input) :: t.inputs } u) :
    Underway d mod base { u with buses := busesOf d o input ++ u.buses } ∧
    Grown d [c] t { u with buses := busesOf d o input ++ u.buses } := by
  have here : (c, input) ∈ u.inputs := hg.inputs _ mem_cons_self
  have more : ∀ {b}, b ∈ u.reached → b ∈ ({ u with buses := busesOf d o input ++ u.buses } : Timing).reached := by
    intro b hb
    simp only [reached, map_append, mem_append]
    exact .inr hb
  refine ⟨⟨hu.absolute, hu.trace, ?_⟩, ⟨?_, ?_, ?_, ?_, ?_⟩⟩
  · intro b l hb
    rcases mem_append.mp hb with hb | hb
    · exact busesOf_at hd hn ho here hb
    · exact hu.buses hb
  · exact fun p hp => hg.inputs p (mem_cons_of_mem _ hp)
  · exact fun p hp => mem_append_right _ (hg.buses p hp)
  · intro a ha
    rcases hg.only a ha with ha | ha
    · rcases mem_cons.mp ha with rfl | ha
      · exact .inr ((within_one ho).mpr (.inl rfl))
      · exact .inl ha
    · exact .inr ((within_one ho).mpr (.inr ha))
  · intro a ha
    rcases (within_one ho).mp ha with rfl | ha
    · exact mem_map_of_mem here
    · exact hg.all ha
  · intro a q x b ha hq hx hs hb
    rcases (within_one ho).mp ha with rfl | ha
    · rw [ho] at hq; cases hq
      exact mem_map_of_mem (mem_append_left _ (mem_busesOf hx hs hb))
    · exact more (hg.allBuses ha hq hx hs hb)

def InsideGrows (d : Design) (mod : OpId) (base : Latency) (n : Nat) : Prop :=
  ∀ ⦃m p outer t t'⦄, Underway d mod base t → Entered d mod t m p outer → (∀ c ∈ p.children, c ∉ t.started) →
    (inside d n m outer).run t = .ok (.ok (), t') → Underway d mod base t' ∧ Grown d p.children t t'

theorem children_not_started (hd : WellFormed d)
    (ht : Underway d mod base t) (hn : Nested d mod c) (ho : d.op? c = some o) (new : c ∉ t.started) :
    ∀ e ∈ o.children, e ∉ ({ t with inputs := (c, input) :: t.inputs } : Timing).started := by
  -- had a child been started, so would its owner have been
  intro e he hst
  obtain ⟨q, hq, hown⟩ := hd.child ho he
  have hlt : c < e := hown ▸ hd.nesting.older hq
  rcases mem_cons.mp hst with rfl | hst
  · exact absurd hlt (Int.lt_irrefl _)
  · have hne : e ≠ mod := Int.ne_of_gt (Int.lt_trans (hn.lt hd) hlt)
    exact new (hown ▸ ht.owner_started hq hne hst)

section
variable (hd : WellFormed d) (ih : InsideGrows d mod base n) (ht : Underway d mod base t)
  (hm : Entered d mod t m p outer)
include hd ih ht hm

theorem timeOne_grown (hc : c ∈ p.children) (new : c ∉ t.started)
    (h : (timeOne d (inside d n) outer c).run t = .ok (.ok (), t')) :
    Underway d mod base t' ∧ Grown d [c] t t' := by
  obtain ⟨o, input, w, ho, hq, hw, rfl⟩ := timeOne_ok h
  have hs := ht.start hd hm hc ho new hq
  suffices hg : Underway d mod base w ∧ Grown d o.inner { t with inputs := (c, input) :: t.inputs } w from
    hg.1.finish hd (hm.nested hc) ho hg.2
  unfold Operation.inner
  split at hw
  next hi =>
    have same : (if t.perModule then .zero else input) = input := by rw [ht.absolute]; rfl
    rw [same] at hw
    rw [if_pos hi]
    refine ih hs ⟨ho, .inr ⟨hm.nested hc, hi⟩, mem_cons_self⟩ ?_ hw
    exact children_not_started hd ht (hm.nested hc) ho new
  next hi =>
    rw [if_neg hi]
    rw [hw]
    exact ⟨hs, .nil _⟩

theorem timeAll_grown (sub : ∀ c ∈ ids, c ∈ p.children) (nodup : ids.Nodup) (new : ∀ c ∈ ids, c ∉ t.started)
    (h : (ids.forM (timeOne d (inside d n) outer)).run t = .ok (.ok (), t')) :
    Underway d mod base t' ∧ Grown d ids t t' := by
  induction ids generalizing t with
  | nil =>
    cases h
    exact ⟨ht, .nil _⟩
  | cons c ids ihl =>
    obtain ⟨_, w, hw, rest⟩ := step_bind_ok.mp h
    obtain ⟨hc, nodup⟩ := nodup_cons.mp nodup
    have hcm := sub c mem_cons_self
    obtain ⟨uw, gw⟩ := timeOne_grown hd ih ht hm hcm (new c mem_cons_self) hw
    have hm' : Entered d mod w m p outer := ⟨hm.op, hm.place, gw.inputs _ hm.start⟩
    -- no sibling runs inside the one that was timed
    have fresh : ∀ a ∈ ids, a ∉ w.started := by
      intro a ha hst
      rcases gw.only a hst with hst | ⟨k, hk, hin⟩
      · exact new a (mem_cons_of_mem _ ha) hst
      · rw [mem_singleton.mp hk] at hin
        rcases hin with rfl | ⟨hin, -⟩
        · exact hc ha
        · exact Nested.not_sibling hd hm.op hcm (sub a (mem_cons_of_mem _ ha)) hin
    obtain ⟨ut, gt⟩ := ihl uw hm' (fun a ha => sub a (mem_cons_of_mem _ ha)) nodup fresh rest
    exact ⟨ut, gw.cons gt⟩

end

theorem inside_grown (hd : WellFormed d) (n : Nat) : InsideGrows d mod base n := by
  induction n with
  | zero =>
    intro m p outer t t' _ _ _ h
    cases h
  | succ n ih =>
    intro m p outer t t' ht hm new h
    simp only [inside_succ, step_bind_ok, fromQuery_ok] at h
    obtain ⟨ids, _, ⟨hq, rfl⟩, h⟩ := h
    obtain ⟨p', hp', perm⟩ := order_ok hq
    rw [hm.op] at hp'; cases hp'
    have mem := fun a => perm.mem_iff (a := a)
    have nodup := perm.nodup_iff.mpr (hd.children_nodup hm.op)
    obtain ⟨ht', hg⟩ := timeAll_grown hd ih ht hm (fun c hc => (mem c).mp hc) nodup
      (fun c hc => new c ((mem c).mp hc)) h
    exact ⟨ht', hg.congr mem⟩

/-! ## The whole computation -/

def Placed (d : Design) (t : Timing) : Prop := ∀ e ∈ t.inputs, ∃ o, d.op? e.1 = some o

theorem timeAll_placed {ids : List OpId}
    (deep : ∀ {m outer t u}, (inside d n m outer).run t = .ok (.ok (), u) → Placed d t → Placed d u)
    (h : (ids.forM (timeOne d (inside d n) outer)).run t = .ok (.ok (), u)) (ht : Placed d t) : Placed d u := by
  induction ids generalizing t with
  | nil =>
    cases h
    exact ht
  | cons c ids ih =>
    obtain ⟨_, v, one, rest⟩ := step_bind_ok.mp h
    obtain ⟨o, input, w, ho, -, inner, rfl⟩ := timeOne_ok one
    have started : Placed d { t with inputs := (c, input) :: t.inputs } := forall_mem_cons.mpr ⟨⟨o, ho⟩, ht⟩
    refine ih rest (show Placed d w from ?_)
    split at inner
    next => exact deep inner started
    next => exact inner ▸ started

theorem inside_placed (n : Nat) :
    ∀ {m outer t u}, (inside d n m outer).run t = .ok (.ok (), u) → Placed d t → Placed d u := by
  induction n with
  | zero => exact fun h => by cases h
  | succ n ih =>
    intro m outer t u h
    simp only [inside_succ, step_bind_ok, fromQuery_ok] at h
    obtain ⟨ids, _, ⟨-, rfl⟩, h⟩ := h
    exact timeAll_placed ih h

theorem compute_placed (h : (compute d mod base).run t = .ok (.ok (), u)) (ht : Placed d t)
    (hp : d.op? mod = some p) (hl : u.input? c = some l) : ∃ o, d.op? c = some o := by
  simp only [compute, step_bind_ok, step_modify_ok] at h
  obtain ⟨_, _, rfl, _, _, ⟨rfl, rfl⟩, h⟩ := h
  exact inside_placed _ h (forall_mem_cons.mpr ⟨⟨p, hp⟩, ht⟩) _ (mem_of_lookup hl)

structure Timed (d : Design) (mod : OpId) (base : Latency) (t : Timing) : Prop where
  trace : Trace d mod base t.inputs
  input : ∀ {c}, c = mod ∨ Nested d mod c → ∃ l, t.input? c = some l
  bus : ∀ {b}, FlowBus d mod b → ∃ l, t.bus? b = some l
  busAt : ∀ {b l}, t.bus? b = some l → BusAt d mod t.inputs b l

theorem compute_there (h : (compute d mod base).run init = .ok (.ok (), t)) : ∃ p, d.op? mod = some p := by
  simp only [compute, inside_succ, step_bind_ok, fromQuery_ok] at h
  obtain ⟨_, _, _, _, _, _, ids, _, ⟨hq, -⟩, -⟩ := h
  exact (order_ok hq).imp fun _ => And.left

theorem compute_ok (hd : WellFormed d) (h : (compute d mod base).run .absolute = .ok (.ok (), t)) :
    Timed d mod base t := by
  obtain ⟨p, hp⟩ := compute_there h
  simp only [compute, step_bind_ok, step_modify_ok] at h
  obtain ⟨_, _, rfl, _, _, ⟨rfl, rfl⟩, h⟩ := h
  have ht : Underway d mod base { perModule := false, inputs := [(mod, base)] } := ⟨rfl, .root, nofun⟩
  have first : ∀ c ∈ p.children, c ∉ [mod] := by
    intro c hc hm
    obtain ⟨k, hk, hown⟩ := hd.child hp hc
    have := hd.nesting.older hk
    rw [hown, mem_singleton.mp hm] at this
    exact absurd this (Int.lt_irrefl _)
  obtain ⟨hu, hg⟩ := inside_grown hd _ ht ⟨hp, .inl rfl, mem_singleton_self _⟩ first h
  refine ⟨hu.trace, ?_, ?_, fun hb => hu.buses (mem_of_lookup hb)⟩
  · intro c hc
    have : c ∈ t.started := by
      rcases hc with rfl | hc
      · exact mem_map_of_mem (hg.inputs _ (mem_singleton_self _))
      · exact hg.all ((nested_iff_within hp).mp hc)
    obtain ⟨⟨_, l⟩, hl, rfl⟩ := mem_map.mp this
    exact ⟨l, lookup_of_mem hu.trace.nodup hl⟩
  · rintro b ⟨x, ⟨hs, c, o, hn, hc, hx⟩, hb⟩
    have := hg.allBuses ((nested_iff_within hp).mp hn) hc hx hs hb
    exact lookup_of_mem_keys this

end

end Datapath.Timing
