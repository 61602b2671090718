import Datapath.Proofs.TidyWiring
import Datapath.Proofs.WiredLoops

/-!
# How often the body of a loop is started

A new loop has a body with two ways in, and one dependency on its go port along each. The go port is a
port of the body, so feeds may lead to it like to any other. Each then adds to the dependencies that
start the body, and the check of the drivers does not see it.
-/

namespace Datapath.Loop

open List

variable {d e : Design}

def leadingTo (l : List Dependency) (i : EntryId) (p : PortId) : Nat :=
  l.countP fun v => v.entry == i && v.target == p

/-- The design grows, and the port gets `n` more dependencies along the way `i` and `m` more along `j`. -/
structure Loads (i j : EntryId) (p : PortId) (n m : Nat) (d e : Design) : Prop where
  wellFormed : WellFormed e
  gains : ∃ l, Gains (fun _ => False) d e l ∧ leadingTo l i p = n ∧ leadingTo l j p = m

/-- The entries `i` and `j` are two ways into the body `b` of a loop. -/
structure TwoWays (loop b : OpId) (i j : EntryId) (d : Design) : Prop where
  wellFormed : WellFormed d
  loop : loop < d.ops.size
  body : b < d.ops.size
  apart : i ≠ j
  initial : ∃ x, view d.entries Entry.face i = some (b, x)
  feedback : ∃ x, view d.entries Entry.face j = some (b, x)

section
variable {f : Design}

theorem Loads.refl (w : WellFormed d) : Loads i j p 0 0 d d := ⟨w, [], .refl _ d, rfl, rfl⟩

theorem Loads.trans (h : Loads i j p n m d e) (h' : Loads i j p n' m' e f) : Loads i j p (n + n') (m + m') d f := by
  obtain ⟨l, g, rfl, rfl⟩ := h.gains
  obtain ⟨l', g', rfl, rfl⟩ := h'.gains
  exact ⟨h'.wellFormed, l ++ l', g.trans g', countP_append, countP_append⟩

theorem Loads.length (h : Loads i j p n m d e) : (e.driving i p).length = (d.driving i p).length + n ∧
    (e.driving j p).length = (d.driving j p).length + m := by
  obtain ⟨l, g, rfl, rfl⟩ := h.gains
  simp [g.driving, leadingTo, countP_eq_length_filter]

theorem TwoWays.loads {loop : OpId} (t : TwoWays loop b i j d) (h : Loads i j p n m d e) :
  TwoWays loop b i j e := by
  obtain ⟨l, g, -⟩ := h.gains
  have size : (d.ops.size : Int) ≤ e.ops.size := by exact_mod_cast g.size
  exact ⟨h.wellFormed, Int.lt_of_lt_of_le t.loop size, Int.lt_of_lt_of_le t.body size, t.apart,
    t.initial.imp fun _ => g.entry, t.feedback.imp fun _ => g.entry⟩

theorem Attaches.loads (h : Attaches k bus q d e) (w : WellFormed d) :
    Loads i j p (if k = i ∧ q = p then 1 else 0) (if k = j ∧ q = p then 1 else 0) d e := by
  obtain ⟨kind, clocks, id, h⟩ := h
  refine ⟨w.addDependency h, _, gains_addDependency w h, ?_, ?_⟩
  · simp [leadingTo]
  · simp [leadingTo]

theorem Installed.loads (h : Installed kind loop inputs c o k d e) (t : TwoWays loop b i j d) :
    Loads i j p 0 0 d e ∧ k ≠ i ∧ k ≠ j := by
  obtain ⟨made, op, first, driven⟩ := h
  obtain ⟨hid, o, entry, -, -, ho, -, -, entries, -, -, -, -, -, -, face, -⟩ := newPrimitive_makes made
  cases (op_ok op).symm.trans ho
  rw [Operation.firstEntry, entries] at first
  cases first
  have w := (makes_newPrimitive t.loop).kept t.wellFormed made
  have g : Augments _ _ [] := gains_newPrimitive made
  have g' : Augments _ e [] := gains_changeEntry (fun _ => by exact ⟨rfl, rfl⟩) driven
  -- the entry belongs to an operation that is new
  have new : ∀ {y : EntryId}, (∃ x, view d.entries Entry.face y = some (b, x)) → k ≠ y := by
    rintro y ⟨x, old⟩ rfl
    cases face.symm.trans (g.entry old)
    exact absurd t.body (by rw [hid]; exact Int.lt_irrefl _)
  exact ⟨⟨(keeps_changeEntry _ fun _ => by exact ⟨rfl, rfl, rfl⟩).kept w driven, [], g.trans g', rfl, rfl⟩,
    new t.initial, new t.feedback⟩

/-! ## The steps -/

variable {start : BusId}

theorem wireInitial_loads {lp : Operation} (t : TwoWays lp.id b i j d)
    (h : wireInitial lp ⟨i, j, start⟩ fb port bus d = .ok (r, e)) :
    Loads i j p (if port = p then 1 else 0) (if port = p ∧ fb.has p = false then 1 else 0) d e := by
  rcases wireInitial_steps h with ⟨known, one⟩ | ⟨alone, _, _, k, p0, p1, _, e1, e2, e3, e4, latch, go, value, -,
    again, initial⟩
  · have l := one.loads (i := i) (j := j) (p := p) t.wellFormed
    by_cases hp : port = p
    · subst hp
      simpa [t.apart, known] using l
    · simpa [hp] using l
  · obtain ⟨l1, ni, nj⟩ := latch.loads (p := p) t
    have l2 := go.loads (i := i) (j := j) (p := p) l1.wellFormed
    have l3 := value.loads (i := i) (j := j) (p := p) l2.wellFormed
    have l4 := again.loads (i := i) (j := j) (p := p) l3.wellFormed
    have l5 := initial.loads (i := i) (j := j) (p := p) l4.wellFormed
    have all := l1.trans (l2.trans (l3.trans (l4.trans l5)))
    by_cases hp : port = p
    · subst hp
      simpa [ni, nj, t.apart, t.apart.symm, alone] using all
    · simpa [ni, nj, hp] using all

theorem wireFeedback_loads {lp : Operation} (t : TwoWays lp.id b i j d)
  (h : wireFeedback lp ⟨i, j, start⟩ port bus d = .ok (r, e)) :
    Loads i j p 0 (if port = p then 1 else 0) d e := by
  obtain ⟨_, _, k, p0, _, e1, e2, register, value, again⟩ := wireFeedback_steps h
  obtain ⟨l1, ni, nj⟩ := register.loads (p := p) t
  have l2 := value.loads (i := i) (j := j) (p := p) l1.wellFormed
  have l3 := again.loads (i := i) (j := j) (p := p) l2.wellFormed
  simpa [ni, nj, t.apart.symm] using l1.trans (l2.trans l3)

theorem mapM_loads {i j : EntryId} {b : OpId} {p : PortId} {α β : Type} {g : α → Build β} {xs : List α}
    {ys : List β} {A B : α → Prop} [DecidablePred A] [DecidablePred B]
    (step : ∀ {x y d e}, TwoWays loop b i j d → g x d = .ok (y, e) →
        Loads i j p (if A x then 1 else 0) (if B x then 1 else 0) d e) (t : TwoWays loop b i j d)
    (h : xs.mapM g d = .ok (ys, e)) : Loads i j p (xs.countP (A ·)) (xs.countP (B ·)) d e := by
  induction xs generalizing d ys with
  | nil =>
    cases h
    exact .refl t.wellFormed
  | cons x xs ih =>
    rw [mapM_cons] at h
    obtain ⟨y, d1, h1, h⟩ := build_bind_ok.mp h
    obtain ⟨ys', d2, h2, h⟩ := build_bind_ok.mp h
    cases h
    have one := step t h1
    simpa [countP_cons, Nat.add_comm] using one.trans (ih (t.loads one) h2)

theorem wireOutput_loads {loop : OpId} {lp : Operation} {id : DepId} (t : TwoWays lp.id b i j d) (other : ob ≠ b)
    (h : (wireOutput loop ob port bus).run d = .ok (.ok id, e)) : Loads i j p 0 0 d e := by
  obtain ⟨_, -, h⟩ := look_bind_ok.mp h
  obtain ⟨-, h⟩ := guard_ok h
  obtain ⟨k, hk, h⟩ := look_bind_ok.mp h
  obtain ⟨o, ho, first⟩ := bind_ok.mp hk
  -- the entry of the output buffer is none of the two ways
  obtain ⟨x, face⟩ := first_face t.wellFormed ho first
  have new : ∀ {y : EntryId}, (∃ x, view d.entries Entry.face y = some (b, x)) → k ≠ y := by
    rintro y ⟨x, old⟩ rfl
    cases face.symm.trans old
    exact other rfl
  have one := (attaches_connect (ofBuild_ok.mp h)).loads (i := i) (j := j) (p := p) t.wellFormed
  simpa [new t.initial, new t.feedback] using one

theorem wireOutputs_loads {loop : OpId} {lp : Operation} {ls : Links} (t : TwoWays lp.id b i j d) (other : ob ≠ b)
    (h : (ls.mapM fun l => wireOutput loop ob l.1 l.2).run d = .ok (.ok ids, e)) :
    Loads i j p 0 0 d e ∧ ∀ q ∈ ls.map Prod.fst, view d.ports Port.owner q ≠ some b := by
  induction ls generalizing d ids with
  | nil =>
    cases h
    exact ⟨.refl t.wellFormed, nofun⟩
  | cons l ls ih =>
    rw [mapM_cons] at h
    obtain ⟨id, d1, h1, h⟩ := step_bind_ok.mp h
    obtain ⟨ids', d2, h2, h⟩ := step_bind_ok.mp h
    cases h
    have one : Loads i j p 0 0 d d1 := wireOutput_loads t other h1
    obtain ⟨rest, outside⟩ := ih (t.loads one) h2
    refine ⟨one.trans rest, forall_mem_cons.mpr ⟨?_, fun q hq own => outside q hq ?_⟩⟩
    · rw [wireOutput_owner h1]
      exact fun same => other (Option.some.inj same)
    · obtain ⟨_, g, -⟩ := one.gains
      obtain ⟨x, hx, rfl⟩ := view_some.mp own
      obtain ⟨_, hx'⟩ := g.port hx
      rw [view_of _ hx']

end

/-! ## The loop -/

theorem waysOf_ways (h : (waysOf d bd).run = .ok (.ok ways)) :
    bd.entries.head? = some ways.initial ∧ feedbackWay? d bd = some ways.feedback := by
  obtain ⟨initial, first, h⟩ := query_bind_ok.mp h
  split at h
  · exact (reject_ok.mp h).elim
  next feedback again =>
    obtain ⟨vs, -, h⟩ := query_bind_ok.mp h
    split at h
    · obtain ⟨_, -, h⟩ := query_bind_ok.mp h
      cases h
      exact ⟨require_ok.mp (query_lift_ok.mp first), again⟩
    · exact (reject_ok.mp h).elim

theorem feedbackWay_mem (w : WellFormed d) (h : feedbackWay? d bd = some j) : j ∈ bd.entries := by
  obtain ⟨n, hn, rfl⟩ := Option.map_eq_some_iff.mp h
  obtain ⟨k, hk, hn'⟩ := mem_filterMap.mp (mem_of_find?_eq_some hn)
  rw [w.entryIds k n hn']
  exact hk

theorem countP_key {ls : Links} (keys : (ls.map Prod.fst).Nodup) :
    ls.countP (fun l => l.1 = p) = if p ∈ ls.map Prod.fst then 1 else 0 := by
  rw [← keys.count, count, countP_map]
  exact countP_congr fun l _ => by simp

theorem wireBody_loads {lp : Operation} (t : TwoWays lp.id b i j d)
    (first : bd.entries.head? = some i) (again : feedbackWay? d bd = some j)
    (h : (wireBody lp bd c).run d = .ok (.ok made, e)) : Loads i j p (c.initial.countP fun l => l.1 = p)
      ((c.initial.countP fun l => l.1 = p ∧ c.feedback.has p = false) + c.feedback.countP fun l => l.1 = p)
          d e := by
  obtain ⟨⟨i', j', start⟩, hways, h⟩ := passQuery_bind_ok.mp h
  obtain ⟨first', again'⟩ := waysOf_ways hways
  obtain rfl : i = i' := Option.some.inj (first.symm.trans first')
  obtain rfl : j = j' := Option.some.inj (again.symm.trans again')
  obtain ⟨-, -, h⟩ := passQuery_bind_ok.mp h
  obtain ⟨latches, d1, h1, h⟩ := step_bind_ok.mp h
  obtain ⟨registers, _, h2, h⟩ := step_bind_ok.mp h
  cases h
  have l1 : Loads i j p (c.initial.countP fun l => l.1 = p) (c.initial.countP fun l => l.1 = p ∧
    c.feedback.has p = false) d d1 :=
    mapM_loads (fun t h => wireInitial_loads t (show wireInitial _ _ _ _ _ _ = _ from h)) t (ofBuild_ok.mp h1)
  have l2 : Loads i j p (c.feedback.countP fun _ => False) (c.feedback.countP fun l => l.1 = p) d1 e :=
    mapM_loads (fun t h => by simpa using wireFeedback_loads t (show wireFeedback _ _ _ _ _ = _ from h))
      (t.loads l1)
      (ofBuild_ok.mp h2)
  simpa using l1.trans l2

/-- The body of a loop has two ways in, the first entry and the one that feeds back, and each of them starts it
once. -/
structure StartedOnce (d : Design) (loop : OpId) (lp bd : Operation) (i j : EntryId) : Prop where
  loop : d.op? loop = some lp
  body : d.op? lp.body = some bd
  first : bd.entries.head? = some i
  again : feedbackWay? d bd = some j
  apart : i ≠ j
  initial : (d.driving i bd.go).length = 1
  feedback : (d.driving j bd.go).length = 1

theorem StartedOnce.twoWays {loop : OpId} {lp : Operation} (h : StartedOnce d loop lp bd i j) (w : WellFormed d) :
    TwoWays lp.id lp.body i j d where
  wellFormed := w
  loop := by
    rw [w.nesting.ids _ _ h.loop]
    exact (at?_lt h.loop).2
  body := (at?_lt h.body).2
  apart := h.apart
  initial := entry_face w h.body (mem_of_mem_head? h.first)
  feedback := entry_face w h.body (feedbackWay_mem w h.again)

theorem use?_owner {lp : Operation} {s : Parts} (w : WellFormed d) (hexits : (exitsOf d lp).run = .ok (.ok exits))
    (hs : exits = ⟨s.again, s.leave, s.input⟩) (hu : s.use? d f = some u) :
    d.busOwner? f.source = some (if u = .initial then lp.inBuf else lp.body) := by
  obtain ⟨front, again, leave⟩ := exitsOf_owner w (Unfolds.chains.refl d) w hexits
  have exit := use?_exit hu
  subst hs
  cases u with
  | initial => exact Carried.busOwner? (front exit)
  | feedback => exact Carried.busOwner? (again exit)
  | output => exact Carried.busOwner? (leave exit)

theorem mem_targets {s : Parts} : p ∈ targets (s.feeds d u fs) ↔ ∃ f ∈ fs, f.target = p ∧ s.use? d f = some u := by
  simp only [targets, Parts.feeds, mem_map, mem_filter, beq_iff_eq]
  exact exists_congr fun f => and_assoc.trans (and_congr_right fun _ => and_comm)

theorem wire_loads {lp : Operation} (hd : Built d) (started : StartedOnce d loop lp bd i j)
    (h : (wire loop fs).run d = .ok (.ok r, e)) :
    Loads i j bd.go (if ∃ f ∈ fs, f.target = bd.go ∧ d.busOwner? f.source = some lp.inBuf then 1 else 0)
      (if bd.go ∈ targets fs then 1 else 0) d e := by
  have w := hd.wellFormed
  have t := started.twoWays w
  obtain ⟨_, hlp, h⟩ := look_bind_ok.mp h
  cases (op_ok hlp).symm.trans started.loop
  obtain ⟨shape, h⟩ := guard_ok h
  obtain ⟨_, hbd, h⟩ := look_bind_ok.mp h
  cases (op_ok hbd).symm.trans started.body
  obtain ⟨exits, hexits, h⟩ := passQuery_bind_ok.mp h
  obtain ⟨c, hc, h⟩ := passQuery_bind_ok.mp h
  obtain ⟨made, d2, inside, h⟩ := step_bind_ok.mp h
  obtain ⟨ids, e', outside, h⟩ := step_bind_ok.mp h
  obtain ⟨-, -, h⟩ := passQuery_bind_ok.mp h
  cases h
  have kind : lp.kind = .loop := by
    by_contra other
    exact shape (by simp [other])
  have there : lp.body ≠ absent := ne_absent started.body
  have body : d.place? lp.body = some (.whileBody, loop) :=
    (hd.shaped.ops (view_of _ started.loop)).loops kind there
  have l1 := wireBody_loads (p := bd.go) t started.first started.again (within_ok.mp inside)
  -- the results
  obtain ⟨ob, hob, outside⟩ := look_bind_ok.mp outside
  obtain ⟨present, outside⟩ := guard_ok outside
  have t1 := t.loads l1
  obtain ⟨_, g1, -⟩ := l1.gains
  have other : ob ≠ lp.body := by
    rintro rfl
    cases ((Unfolds.chains.refl _).outBuf t1.wellFormed hob (by simpa using present)).symm.trans (g1.place body)
  obtain ⟨l2, foreign⟩ := wireOutputs_loads (p := bd.go) t1 other outside
  obtain ⟨s, hs, sortable, rfl⟩ := classes_sorted hc
  have owner : ∀ {f u}, s.use? d f = some u → _ := use?_owner w hexits hs
  have known : ∀ f ∈ fs, f.target = bd.go → s.use? d f = some .initial ∨ s.use? d f = some .feedback := by
    intro f hf target
    obtain ⟨u, hu⟩ := Option.isSome_iff_exists.mp (sortable.known f hf)
    cases u with
    | initial => exact .inl hu
    | feedback => exact .inr hu
    | output =>
      refine absurd ?_ (foreign bd.go ?_)
      · obtain ⟨x, hx, face⟩ := view_some.mp (g1.face (hd.laid.go started.body))
        exact view_some.mpr ⟨x, hx, congrArg Prod.fst face⟩
      · rw [keys_output, mem_targets]
        exact ⟨f, hf, target, hu⟩
  have front : lp.inBuf ≠ lp.body := by
    intro same
    obtain ⟨q, _, _, _, hq, place, -⟩ := (hd.equipped started.loop).front (.inl (by rw [kind]; rfl))
    rw [same] at hq
    cases place.symm.trans (Option.some.inj ((view_of _ hq).symm.trans body))
  have initial : (∃ f ∈ fs, f.target = bd.go ∧ d.busOwner? f.source = some lp.inBuf) ↔
      bd.go ∈ (s.sorted d fs).initial.map Prod.fst := by
    rw [keys_initial, mem_targets]
    refine exists_congr fun f => and_congr_right fun hf => and_congr_right fun target =>
      ⟨fun own => ?_, fun hu => by simpa using owner hu⟩
    refine (known f hf target).resolve_right fun hu => front ?_
    simpa [owner hu] using own.symm
  have any : bd.go ∈ targets fs ↔
      bd.go ∈ (s.sorted d fs).initial.map Prod.fst ∨ bd.go ∈ (s.sorted d fs).feedback.map Prod.fst := by
    rw [keys_initial, keys_feedback, mem_targets, mem_targets]
    constructor
    · intro h
      obtain ⟨f, hf, target⟩ := mem_map.mp h
      exact (known f hf target).imp (⟨f, hf, target, ·⟩) (⟨f, hf, target, ·⟩)
    · rintro (⟨f, hf, target, -⟩ | ⟨f, hf, target, -⟩) <;> exact mem_map.mpr ⟨f, hf, target⟩
  have starts : ((s.sorted d fs).initial.map Prod.fst).Nodup := links_nodup
  have hands : ((s.sorted d fs).feedback.map Prod.fst).Nodup := keys_feedback ▸ sortable.feedback
  have all := l1.trans l2
  simp only [initial, any]
  by_cases fed : bd.go ∈ (s.sorted d fs).feedback.map Prod.fst
  · simpa [countP_key starts, countP_key hands, has_iff.mpr fed, fed] using all
  · have free : (s.sorted d fs).feedback.has bd.go = false := by simpa using mt has_iff.mp fed
    simp only [fed, or_false]
    simpa [countP_key starts, countP_key hands, free, fed] using all

theorem newLoop_startedOnce {owner : OpId} (hd : WellFormed d)
    (placed : owner < d.ops.size) (made : newLoop owner name inputs outputs latency d = .ok (loop, e)) :
    ∃ lp bd i j, StartedOnce e loop lp bd i j := by
  obtain ⟨s, ctl, of, unfed, restarts⟩ := newLoop_made hd placed made
  have w := (makes_newLoop placed).kept hd made
  obtain ⟨lp, hlp, body⟩ := of.runs
  obtain ⟨bd, hbd, -, go, entries, -⟩ := of.inside.op
  obtain ⟨v, hv, -, target⟩ := unfed.initial
  obtain ⟨_, _, _, _, _, _, _, _, _, -, -, -, -, -, -, -, -, -, hu⟩ := restarts.register
  refine ⟨lp, bd, s.initial, s.feedback, hlp, body ▸ hbd,
    by simp [entries], feedbackWay_eq w of entries, ?_, ?_, ?_⟩
  · intro same
    cases of.inside.initial.symm.trans (same ▸ of.inside.feedback)
  · simp [Design.driving, hv, target, go]
  · simp [Design.driving, hu, go]

/-- The body of a new loop is started once along each of its two ways. Wiring starts it once more along both ways
for a value of the input buffer that is fed to its go port, and once more along the feedback way for a value that is
fed back to it. So each way still starts the body once if and only if no feed leads to the go port. -/
theorem wiring_adds_starts {d₀ d₁ : Design} {owner : OpId} {name : String} {inputs outputs : Int}
    {latency : Latency} (hd₀ : Built d₀) (placed : owner < d₀.ops.size)
    (made : newLoop owner name inputs outputs latency d₀ = .ok (loop, d₁)) :
    ∃ lp bd i j, StartedOnce d₁ loop lp bd i j ∧ ∀ {d e lp bd fs r}, Built d → StartedOnce d loop lp bd i j →
      (wire loop fs).run d = .ok (.ok r, e) → (e.driving i bd.go).length = 1 + (if ∃ f ∈ fs, f.target = bd.go ∧
        d.busOwner? f.source = some lp.inBuf then 1 else 0) ∧
        (e.driving j bd.go).length = 1 + (if bd.go ∈ targets fs then 1 else 0) ∧
      ((e.driving i bd.go).length = 1 ∧ (e.driving j bd.go).length = 1 ↔ bd.go ∉ targets fs) := by
  obtain ⟨lp, bd, i, j, started⟩ := newLoop_startedOnce hd₀.wellFormed placed made
  refine ⟨lp, bd, i, j, started, fun {d e lp bd fs r} hd again h => ?_⟩
  obtain ⟨initial, feedback⟩ := (wire_loads hd again h).length
  rw [again.initial] at initial
  rw [again.feedback] at feedback
  rw [initial, feedback]
  by_cases any : bd.go ∈ targets fs
  · simp [any]
  · have none : ¬ ∃ f ∈ fs, f.target = bd.go ∧ d.busOwner? f.source = some lp.inBuf :=
      fun ⟨f, hf, target, _⟩ => any (mem_map.mpr ⟨f, hf, target⟩)
    simp [any, none]

/-- A value that is fed back to port 6 and starts from the input buffer. -/
theorem fed_back_body_starts_once : ∃ d e r bd i j, newLoop (-1) "l" 1 1 .zero { name := "x" } = .ok (0, d) ∧
    (wire 0 [⟨1, 6⟩, ⟨7, 6⟩]).run d = .ok (.ok r, e) ∧ d.op? 3 = some bd ∧ (d.driving i bd.go).length = 1 ∧
    (d.driving j bd.go).length = 1 ∧ (e.driving i bd.go).length = 1 ∧ (e.driving j bd.go).length = 1 := by
  obtain ⟨_, d, made, rfl, r, e, run, lp, hl, body, bd, hb, go⟩ :
      ∃ id d, newLoop (-1) "l" 1 1 .zero { name := "x" } = .ok (id, d) ∧ id = 0 ∧
      ∃ r e, (wire 0 [⟨1, 6⟩, ⟨7, 6⟩]).run d = .ok (.ok r, e) ∧ ∃ lp, d.op? 0 = some lp ∧ lp.body = 3 ∧
      ∃ bd, d.op? 3 = some bd ∧ bd.go = 5 := by
    decide +kernel
  obtain ⟨_, _, i, j, started, counts⟩ := wiring_adds_starts (.empty "x") (by decide) made
  cases hl.symm.trans started.loop
  cases hb.symm.trans (body ▸ started.body)
  have built : Built d := (Built.empty "x").step (.newLoop (-1) "l" 1 1 .zero) rfl (discard_run made)
  obtain ⟨once, again⟩ := (counts built started run).2.2.mpr (by simp [targets, go])
  exact ⟨d, e, r, bd, i, j, made, run, hb, started.initial, started.feedback, once, again⟩

/-- The completion of the input buffer is fed to the go port of the body, port 5, which it starts already. -/
theorem restarted_body_starts_twice : ∃ d e r, newLoop (-1) "l" 1 1 .zero { name := "x" } = .ok (0, d) ∧
    (wire 0 [⟨0, 5⟩]).run d = .ok (.ok r, e) ∧ (d.driving 3 5).length = 1 ∧ (d.driving 7 5).length = 1 ∧
    (e.driving 3 5).length = 2 ∧ (e.driving 7 5).length = 2 := by
  obtain ⟨_, d, made, rfl, r, e, run, counts⟩ : ∃ id d, newLoop (-1) "l" 1 1 .zero { name := "x" } = .ok (id, d) ∧
      id = 0 ∧ ∃ r e, (wire 0 [⟨0, 5⟩]).run d = .ok (.ok r, e) ∧ (d.driving 3 5).length = 1 ∧
      (d.driving 7 5).length = 1 ∧ (e.driving 3 5).length = 2 ∧ (e.driving 7 5).length = 2 := by
    decide +kernel
  exact ⟨d, e, r, made, run, counts⟩

end Datapath.Loop
