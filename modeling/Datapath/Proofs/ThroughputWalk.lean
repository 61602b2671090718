import Datapath.Proofs.Nested
import Datapath.Proofs.Spacings

/-!
# What a walk over a task finds

The walk over a task meets all that runs inside the task. It notes every loop that iterates, and for
every access the outermost loop around it that iterates.
-/

namespace Datapath

open List

variable {d : Design}

/-! ## Loops around an operation -/

def LoopAround (d : Design) (mod c l : OpId) : Prop := Nested d mod l ∧ d.isIterative l = .ok true ∧ Nested d l c

def LoopAt (d : Design) (mod m l : OpId) : Prop :=
  Nested d mod l ∧ d.isIterative l = .ok true ∧ (l = m ∨ Nested d l m)

def Outermost (d : Design) (S : OpId → Prop) : Option OpId → Prop
  | none => ∀ l, ¬ S l
  | some l => S l ∧ ∀ k, S k → k = l ∨ Nested d l k

def Inside (d : Design) (mod m : OpId) (p : Operation) : Prop :=
  m = mod ∨ Nested d mod m ∧ p.kind.isInlineModule = true

theorem Inside.nested (hm : d.op? m = some p) (h : Inside d mod m p) (hc : c ∈ p.children) : Nested d mod c := by
  rcases h with rfl | ⟨h, hi⟩
  · exact .child hm hc
  · exact .deeper h hm hi hc

theorem isIterative_loop (h : d.isIterative c = .ok true) : ∃ o, d.op? c = some o ∧ o.kind = .loop := by
  simp only [Design.isIterative, bind_ok] at h
  obtain ⟨o, ho, h⟩ := h
  refine ⟨o, op_ok ho, ?_⟩
  by_cases hk : o.kind = .loop
  · exact hk
  · simp [hk] at h
    cases h

theorem Outermost.congr (h : ∀ l, S l ↔ T l) (ho : Outermost d S outer) : Outermost d T outer := by
  have : S = T := funext fun l => propext (h l)
  exact this ▸ ho

theorem Outermost.unique (hd : WellFormed d) (h : Outermost d S outer) (h' : Outermost d S outer') :
    outer = outer' := by
  cases outer with
  | none =>
    cases outer' with
    | none => rfl
    | some k => exact absurd h'.1 (h k)
  | some l =>
    cases outer' with
    | none => exact absurd h.1 (h' l)
    | some k =>
      rcases h.2 k h'.1 with e | hlk
      · rw [e]
      rcases h'.2 l h.1 with e | hkl
      · rw [e]
      exact absurd (Int.lt_trans (hlk.lt hd) (hkl.lt hd)) (Int.lt_irrefl _)

theorem loopAround_iff (hd : WellFormed d) (hm : d.op? m = some p) (hp : Inside d mod m p) (hc : c ∈ p.children) :
    LoopAt d mod m l ↔ LoopAround d mod c l := by
  obtain ⟨o, ho, hown⟩ := hd.child hm hc
  refine and_congr_right fun hl => and_congr_right fun _ => ⟨?_, fun h => ?_⟩
  · rintro (rfl | h)
    · exact .child hm hc
    · rcases hp with rfl | ⟨-, hi⟩
      · exact absurd (Int.lt_trans (hl.lt hd) (h.lt hd)) (Int.lt_irrefl _)
      · exact .deeper h hm hi hc
  · rcases h.owner hd ho with e | ⟨h, -⟩
    · exact .inl (e.symm.trans hown)
    · exact .inr (hown ▸ h)

theorem Outermost.enter (hc : d.isIterative c ≠ .ok true) (h : Outermost d (LoopAround d mod c) outer) :
    Outermost d (LoopAt d mod c) outer := by
  refine h.congr fun l => and_congr_right fun _ => ⟨fun ⟨hi, hn⟩ => ⟨hi, .inr hn⟩, ?_⟩
  rintro ⟨hi, rfl | hn⟩
  · exact absurd hi hc
  · exact ⟨hi, hn⟩

theorem Outermost.enterLoop (hn : Nested d mod c) (hc : d.isIterative c = .ok true)
    (h : Outermost d (LoopAround d mod c) outer) : Outermost d (LoopAt d mod c) (some (outer.getD c)) := by
  cases outer with
  | none =>
    refine ⟨⟨hn, hc, .inl rfl⟩, ?_⟩
    rintro k ⟨hk, hi, rfl | hkc⟩
    · exact .inl rfl
    · exact absurd ⟨hk, hi, hkc⟩ (h k)
  | some l =>
    obtain ⟨⟨hl, hi, hlc⟩, out⟩ := h
    refine ⟨⟨hl, hi, .inr hlc⟩, ?_⟩
    rintro k ⟨hk, hi, rfl | hkc⟩
    · exact .inr hlc
    · exact out k ⟨hk, hi, hkc⟩

namespace Throughput

def Spans (d : Design) (t : Timing) (op : OpId) (head tail : Latency) : Option OpId → Prop
  | none => t.input? op = some head ∧ tail = head
  | some l => t.input? l = some head ∧
      ∃ o x, d.op? l = some o ∧ d.mainExit? o = some x ∧ t.bus? x.done = some tail

theorem span_ok {head tail : Latency} (h : (span d t op outer).run = .ok (.ok (head, tail))) :
  Spans d t op head tail outer := by
  cases outer with
  | none =>
    simp only [span] at h
    split at h
    next l hl => cases h; exact ⟨hl, rfl⟩
    next => exact (reject_ok.mp h).elim
  | some outer =>
    simp only [span] at h
    split at h
    next => exact (reject_ok.mp h).elim
    next l hl =>
      obtain ⟨done, hdone, h⟩ := query_bind_ok.mp h
      rw [query_lift_ok, Timing.done?, bind_ok] at hdone
      obtain ⟨o, ho, hdone⟩ := hdone
      cases hdone
      split at h
      next tail' ht =>
        cases h
        obtain ⟨x, hx, ht⟩ := Option.bind_eq_some_iff.mp ht
        exact ⟨hl, o, x, op_ok ho, hx, ht⟩
      next => exact (reject_ok.mp h).elim

theorem span_run {head tail : Latency} (h : Spans d t op head tail outer) :
  (span d t op outer).run = .ok (.ok (head, tail)) := by
  cases outer with
  | none =>
    obtain ⟨hh, rfl⟩ := h
    rw [span, hh]
    rfl
  | some l =>
    obtain ⟨hh, o, x, ho, hx, ht⟩ := h
    have done : t.done? d l = .ok (some tail) := by
      rw [Timing.done?, bind_ok]
      refine ⟨o, require_ok.mpr ho, ?_⟩
      rw [hx]
      exact congrArg Except.ok ht
    rw [span, hh]
    exact query_bind_ok.mpr ⟨some tail, query_lift_ok.mpr done, rfl⟩

theorem visit_succ (n : Nat) (m : OpId) (outer : Option OpId) :
    visit d t (n + 1) m outer = (do (← d.order m).forM (visitOne d t (visit d t n) outer)) := rfl

/-- How the inside of a module is entered: a loop that iterates is noted first. -/
def Enters (d : Design) (c : OpId) (o : Operation) (outer : Option OpId) (f : Found) (outer' : Option OpId)
    (g : Found) : Prop :=
  d.isIterative c ≠ .ok true ∧ outer' = outer ∧ g = f ∨
    d.isIterative c = .ok true ∧ outer' = some (outer.getD c) ∧
      ∃ x, d.mainExit? o = some x ∧ g = { f with loops := f.loops ++ [.loop o.name x.latency] }

theorem loop_ok {visit : Visit} (hid : o.id = c) (h : ((loop d visit o outer).run f).run = .ok (.ok ((), f'))) :
    ∃ outer' g, Enters d c o outer f outer' g ∧ ((visit c outer').run g).run = .ok (.ok ((), f')) := by
  simp only [loop, walk_bind_ok, walk_lift_ok, hid] at h
  obtain ⟨b, g, ⟨hb, e⟩, h⟩ := h
  rw [e] at h
  cases b with
  | false =>
    exact ⟨outer, f, .inl ⟨by simp [hb], rfl, rfl⟩, h⟩
  | true =>
    rw [if_pos rfl] at h
    split at h
    next => exact (reject_ok.mp (walk_query_ok.mp h).1).elim
    next x hx =>
      simp only [walk_bind_ok, walk_modify_ok] at h
      obtain ⟨_, _, rfl, h⟩ := h
      exact ⟨_, _, .inr ⟨hb, rfl, x, hx, rfl⟩, h⟩

theorem access_ok (h : ((access d t o outer).run f).run = .ok (.ok ((), f'))) :
    ∃ r head tail, Spans d t o.id head tail outer ∧ d.resource? o.resource = some r ∧
      f' = f.addAccess r o.kind.isWrite head tail := by
  simp only [access, walk_bind_ok, walk_query_ok, walk_lift_ok, walk_modify_ok] at h
  obtain ⟨⟨head, tail⟩, _, ⟨hs, rfl⟩, r, _, ⟨hr, rfl⟩, rfl⟩ := h
  exact ⟨r, head, tail, span_ok hs, require_ok.mp hr, rfl⟩

theorem visitOne_ok (hd : WellFormed d)
    (h : ((visitOne d t (visit d t n) outer c).run f).run = .ok (.ok ((), f'))) :
    ∃ o, d.op? c = some o ∧
      ((o.kind.isInlineModule = true ∧ ∃ outer' g, Enters d c o outer f outer' g ∧
          ((visit d t n c outer').run g).run = .ok (.ok ((), f'))) ∨
        (o.kind.isInlineModule = false ∧ o.kind.isAccess = true ∧
          ((access d t o outer).run f).run = .ok (.ok ((), f'))) ∨
        (o.kind.isInlineModule = false ∧ o.kind.isAccess = false ∧ f' = f)) := by
  simp only [visitOne, walk_bind_ok, walk_lift_ok] at h
  obtain ⟨o, g, ⟨ho, e⟩, h⟩ := h
  rw [e] at h
  have ho : d.op? c = some o := op_ok ho
  refine ⟨o, ho, ?_⟩
  by_cases hl : o.kind = .loop
  · simp only [hl] at h
    exact .inl ⟨by rw [hl]; rfl, loop_ok (hd.nesting.ids _ _ ho) h⟩
  by_cases ht : o.kind = .taskCall
  · simp only [ht] at h
    exact .inr (.inr ⟨by rw [ht]; rfl, by rw [ht]; rfl, (walk_pure_ok.mp h).2⟩)
  have rest : (((if o.kind.isModule then visit d t n c outer
      else if o.kind.isAccess then access d t o outer else pure ()) : Walk Unit).run
        f).run = .ok (.ok ((), f')) := by
    split at h
    next e => exact absurd e hl
    next e => exact absurd e ht
    next => exact h
  have plain : d.isIterative c ≠ .ok true := by
    intro e
    obtain ⟨o', ho', hk⟩ := isIterative_loop e
    rw [ho] at ho'
    cases ho'
    exact hl hk
  cases hm : o.kind.isModule with
  | true =>
    rw [hm] at rest
    exact .inl ⟨by simp [Kind.isInlineModule, hm, ht], outer, f, .inl ⟨plain, rfl, rfl⟩, rest⟩
  | false =>
    rw [hm] at rest
    have inline : o.kind.isInlineModule = false := by simp [Kind.isInlineModule, hm]
    cases ha : o.kind.isAccess with
    | true => rw [ha] at rest; exact .inr (.inl ⟨inline, rfl, rest⟩)
    | false =>
      rw [ha] at rest
      exact .inr (.inr ⟨inline, rfl, (walk_pure_ok.mp rest).2⟩)

/-! ## What was found -/

structure IsSeen (d : Design) (t : Timing) (mod : OpId) (a : Seen) : Prop where
  access : ∃ o, d.op? a.op = some o ∧ o.kind.isAccess = true ∧ d.resource? o.resource = some a.resource ∧
    a.isWrite = o.kind.isWrite
  spans : ∃ outer, Outermost d (LoopAround d mod a.op) outer ∧ Spans d t a.op a.head a.tail outer

def IsLoopLimit (d : Design) (c : OpId) (l : Limit) : Prop :=
  d.isIterative c = .ok true ∧ ∃ o x, d.op? c = some o ∧ d.mainExit? o = some x ∧ l = .loop o.name x.latency

structure Logged (d : Design) (t : Timing) (mod : OpId) (ids : List OpId) (f f' : Found) (as : List Seen) :
    Prop where
  usages : ∀ {bs}, Accounts bs f.usages → Accounts (bs ++ as) f'.usages
  loops : ∀ l, l ∈ f'.loops ↔ l ∈ f.loops ∨ ∃ c, Within d ids c ∧ IsLoopLimit d c l
  seen : ∀ a ∈ as, Within d ids a.op ∧ IsSeen d t mod a
  all : ∀ {c o}, Within d ids c → d.op? c = some o → o.kind.isAccess = true → ∃ a ∈ as, a.op = c

theorem Logged.nil (f : Found) : Logged d t mod [] f f [] where
  usages h := by simpa using h
  loops l := by simp [Within]
  seen := by simp
  all h := by simp [Within] at h

theorem Logged.cons (h : Logged d t mod [c] f g as) (h' : Logged d t mod ids g f' bs) :
    Logged d t mod (c :: ids) f f' (as ++ bs) where
  usages hu := by rw [← append_assoc]; exact h'.usages (h.usages hu)
  loops l := by
    rw [h'.loops, h.loops, or_assoc, ← exists_or]
    exact or_congr_right (exists_congr fun a => by rw [← or_and_right, ← within_cons])
  seen a ha := by
    rcases mem_append.mp ha with ha | ha
    · exact ⟨within_cons.mpr (.inl (h.seen a ha).1), (h.seen a ha).2⟩
    · exact ⟨within_cons.mpr (.inr (h'.seen a ha).1), (h'.seen a ha).2⟩
  all hw ho ha := by
    rcases within_cons.mp hw with hw | hw
    · obtain ⟨a, hm, e⟩ := h.all hw ho ha
      exact ⟨a, mem_append_left _ hm, e⟩
    · obtain ⟨a, hm, e⟩ := h'.all hw ho ha
      exact ⟨a, mem_append_right _ hm, e⟩

theorem Logged.congr (hi : ∀ a, a ∈ ids ↔ a ∈ ids')
    (h : Logged d t mod ids f f' as) : Logged d t mod ids' f f' as where
  usages := h.usages
  loops l := by simp only [h.loops, Within.congr hi]
  seen a ha := ⟨(Within.congr hi).mp (h.seen a ha).1, (h.seen a ha).2⟩
  all hw := h.all ((Within.congr hi).mpr hw)

theorem Logged.enter (hc : d.op? c = some o) (hi : o.kind.isInlineModule = true)
    (he : Enters d c o outer f outer' g) (h : Logged d t mod o.children g f' as) : Logged d t mod [c] f f' as := by
  have within : ∀ {a}, Within d [c] a ↔ a = c ∨ Within d o.children a := by
    intro a
    rw [within_one hc, Operation.inner, if_pos hi]
  refine ⟨fun hu => ?_, fun l => ?_, fun a ha => ?_, fun {a k} hw hk ha => ?_⟩
  · rcases he with ⟨-, -, rfl⟩ | ⟨-, -, x, -, rfl⟩
    · exact h.usages hu
    · exact h.usages hu
  · -- the loop itself is the only one that is noted before its inside is entered
    have here : l ∈ g.loops ↔ l ∈ f.loops ∨ IsLoopLimit d c l := by
      rcases he with ⟨hn, -, rfl⟩ | ⟨hc', -, x, hx, rfl⟩
      · exact ⟨.inl, fun h => h.resolve_right fun h => hn h.1⟩
      · simp only [mem_append, mem_singleton]
        refine or_congr_right ⟨fun e => ⟨hc', o, x, hc, hx, e⟩, ?_⟩
        rintro ⟨-, o', x', ho', hx', e⟩
        rw [hc] at ho'; cases ho'
        rw [hx] at hx'; cases hx'
        exact e
    rw [h.loops, here, or_assoc]
    refine or_congr_right ⟨?_, ?_⟩
    · rintro (hl | ⟨a, hw, hl⟩)
      · exact ⟨c, within.mpr (.inl rfl), hl⟩
      · exact ⟨a, within.mpr (.inr hw), hl⟩
    · rintro ⟨a, hw, hl⟩
      rcases within.mp hw with rfl | hw
      · exact .inl hl
      · exact .inr ⟨a, hw, hl⟩
  · exact ⟨within.mpr (.inr (h.seen a ha).1), (h.seen a ha).2⟩
  · rcases within.mp hw with rfl | hw
    · cases hkind : o.kind <;> simp_all [Kind.isInlineModule, Kind.isModule, Kind.isAccess, Kind.isRead,
        Kind.isWrite]
    · exact h.all hw hk ha

section
variable (hc : d.op? c = some o) (hi : o.kind.isInlineModule = false)
include hc hi

theorem Logged.access {head tail : Latency} (ha : o.kind.isAccess = true)
  (ho : Outermost d (LoopAround d mod c) outer)
    (hs : Spans d t c head tail outer) (hr : d.resource? o.resource = some r) :
    Logged d t mod [c] f (f.addAccess r o.kind.isWrite head tail) [⟨c, r, o.kind.isWrite, head, tail⟩] := by
  have within : ∀ {a}, Within d [c] a ↔ a = c := by
    intro a
    rw [within_one hc, Operation.inner, hi]
    simp [Within]
  have plain : ∀ l, ¬ IsLoopLimit d c l := by
    rintro l ⟨h, -⟩
    obtain ⟨o', ho', hk⟩ := isIterative_loop h
    rw [hc] at ho'; cases ho'
    rw [hk] at ha; cases ha
  refine ⟨fun hu => hu.add ⟨c, r, o.kind.isWrite, head, tail⟩, fun l => ?_, ?_, ?_⟩
  · have same : (f.addAccess r o.kind.isWrite head tail).loops = f.loops := by
      unfold Found.addAccess
      split <;> rfl
    rw [same]
    refine ⟨.inl, fun h => h.resolve_right ?_⟩
    rintro ⟨a, hw, hl⟩
    exact plain l (within.mp hw ▸ hl)
  · intro a ha'
    obtain rfl := mem_singleton.mp ha'
    exact ⟨within.mpr rfl, ⟨o, hc, ha, hr, rfl⟩, outer, ho, hs⟩
  · intro a k hw _ _
    exact ⟨_, mem_singleton_self _, (within.mp hw).symm⟩

theorem Logged.skip (ha : o.kind.isAccess = false) : Logged d t mod [c] f f [] := by
  have within : ∀ {a}, Within d [c] a ↔ a = c := by
    intro a
    rw [within_one hc, Operation.inner, hi]
    simp [Within]
  refine ⟨fun hu => by simpa using hu, fun l => ⟨.inl, fun h => h.resolve_right ?_⟩, by simp, ?_⟩
  · rintro ⟨a, hw, h, -⟩
    obtain ⟨o', ho', hk⟩ := isIterative_loop h
    rw [within.mp hw, hc] at ho'; cases ho'
    rw [hk] at hi; cases hi
  · intro a k hw hk hka
    rw [within.mp hw, hc] at hk; cases hk
    rw [ha] at hka; cases hka

end

/-! ## The whole walk -/

def VisitLogs (d : Design) (t : Timing) (mod : OpId) (n : Nat) : Prop :=
  ∀ {m p outer f f'}, d.op? m = some p → Inside d mod m p → Outermost d (LoopAt d mod m) outer →
    ((visit d t n m outer).run f).run = .ok (.ok ((), f')) → ∃ as, Logged d t mod p.children f f' as

theorem VisitLogs.one (hd : WellFormed d) (inner : VisitLogs d t mod n) (hn : Nested d mod c)
    (ho : Outermost d (LoopAround d mod c) outer)
    (h : ((visitOne d t (visit d t n) outer c).run f).run = .ok (.ok ((), f'))) :
    ∃ as, Logged d t mod [c] f f' as := by
  obtain ⟨o, hc, ⟨hi, outer', g, he, h⟩ | ⟨hi, ha, h⟩ | ⟨hi, ha, rfl⟩⟩ := visitOne_ok hd h
  · have ho' : Outermost d (LoopAt d mod c) outer' := by
      rcases he with ⟨hp, rfl, -⟩ | ⟨hl, rfl, -⟩
      · exact ho.enter hp
      · exact ho.enterLoop hn hl
    obtain ⟨as, hl⟩ := inner hc (.inr ⟨hn, hi⟩) ho' h
    exact ⟨as, hl.enter hc hi he⟩
  · obtain ⟨r, head, tail, hs, hr, rfl⟩ := access_ok h
    rw [hd.nesting.ids c o hc] at hs
    exact ⟨_, .access hc hi ha ho hs hr⟩
  · exact ⟨[], .skip hc hi ha⟩

theorem VisitLogs.forM (hd : WellFormed d) (inner : VisitLogs d t mod n)
     (hids : ∀ c ∈ ids, Nested d mod c ∧ Outermost d (LoopAround d mod c) outer)
    (h : ((ids.forM (visitOne d t (visit d t n) outer)).run f).run = .ok (.ok ((), f'))) :
    ∃ as, Logged d t mod ids f f' as := by
  induction ids generalizing f with
  | nil =>
    cases h
    exact ⟨[], .nil _⟩
  | cons c ids ih =>
    rw [forall_mem_cons] at hids
    obtain ⟨_, g, hg, h⟩ := walk_bind_ok.mp h
    obtain ⟨as, hc⟩ := inner.one hd hids.1.1 hids.1.2 hg
    obtain ⟨bs, hrest⟩ := ih hids.2 h
    exact ⟨as ++ bs, hc.cons hrest⟩

theorem visitLogs (hd : WellFormed d) (n : Nat) : VisitLogs d t mod n := by
  induction n with
  | zero =>
    intro m p outer f f' _ _ _ h
    cases h
  | succ n ih =>
    intro m p outer f f' hm hp ho h
    simp only [visit_succ, walk_bind_ok, walk_query_ok] at h
    obtain ⟨ids, g, ⟨hq, e⟩, h⟩ := h
    rw [e] at h
    obtain ⟨p', hp', perm⟩ := order_ok hq
    rw [hm] at hp'; cases hp'
    have mem := fun a => perm.mem_iff (a := a)
    obtain ⟨as, hl⟩ := VisitLogs.forM hd ih (fun c hc => by
      have hc := (mem c).mp hc
      exact ⟨hp.nested hm hc, ho.congr fun l => loopAround_iff hd hm hp hc⟩) h
    exact ⟨as, hl.congr mem⟩

structure Walked (d : Design) (t : Timing) (mod : OpId) (f : Found) (as : List Seen) : Prop where
  accounts : Accounts as f.usages
  loops : ∀ l, l ∈ f.loops ↔ ∃ c, Nested d mod c ∧ IsLoopLimit d c l
  seen : ∀ a ∈ as, Nested d mod a.op ∧ IsSeen d t mod a
  all : ∀ {c o}, Nested d mod c → d.op? c = some o → o.kind.isAccess = true → ∃ a ∈ as, a.op = c

theorem visit_walked (hd : WellFormed d)
    (h : ((visit d t (n + 1) mod none).run {}).run = .ok (.ok ((), f))) : ∃ as, Walked d t mod f as := by
  obtain ⟨p, hp⟩ : ∃ p, d.op? mod = some p := by
    simp only [visit_succ, walk_bind_ok, walk_query_ok] at h
    obtain ⟨ids, _, ⟨hq, -⟩, -⟩ := h
    exact (order_ok hq).imp fun _ => And.left
  have none : Outermost d (LoopAt d mod mod) none := by
    rintro l ⟨hl, -, rfl | h⟩
    · exact absurd (hl.lt hd) (Int.lt_irrefl _)
    · exact absurd (Int.lt_trans (hl.lt hd) (h.lt hd)) (Int.lt_irrefl _)
  obtain ⟨as, hl⟩ := visitLogs hd (n + 1) hp (.inl rfl) none h
  refine ⟨as, hl.usages .nil, fun l => ?_, fun a ha => ?_, fun hn => hl.all ((nested_iff_within hp).mp hn)⟩
  · simp only [hl.loops, nested_iff_within hp]
    exact ⟨fun h => h.resolve_left (by simp), .inr⟩
  · exact ⟨(nested_iff_within hp).mpr (hl.seen a ha).1, (hl.seen a ha).2⟩

end Throughput

end Datapath
