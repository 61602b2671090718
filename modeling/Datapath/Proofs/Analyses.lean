import Datapath.Proofs.FlopWalks
import Datapath.Proofs.Sturdy

/-!
# Analyses that give an answer

On a sturdy design the analysis of the throughput finds a spacing for every task and the analysis of a
loop body reports what keeps the registers of the loop, or they reject the design. A tidy design is not
rejected.
-/

namespace Datapath

variable {d : Design} {E : Prop}

section

theorem exitsOf_single (hx : o.exits = [x]) (hy : d.exit? x = some y) : d.exitsOf o = [y] := by
  simp [Design.exitsOf, hx, hy]

theorem mainExit?_single (hx : o.exits = [x]) (hy : d.exit? x = some y) : d.mainExit? o = some y := by
  unfold Design.mainExit? Design.exitWith?
  rw [exitsOf_single hx hy]
  by_cases tag : y.tag = .done
  · simp [tag]
  · simp [tag]

variable (hd : Orderly d)
include hd

theorem Orderly.mainExit? (ho : d.op? i = some o) (hk : o.kind.exitsOnce = true) :
    ∃ x y, o.exits = [x] ∧ d.exit? x = some y ∧ d.mainExit? o = some y := by
  obtain ⟨x, y, hx, hy, -⟩ := (hd.tidy.sits ho).exit hk
  exact ⟨x, y, hx, hy, mainExit?_single hx hy⟩

omit hd

theorem Sturdy.isIterative (hd : Sturdy E d) (ho : d.op? i = some o) :
    ∃ b, d.isIterative i = .ok b ∧ (b = true → o.body ≠ absent) := by
  unfold Design.isIterative
  rw [run_op ho, ok_bind]
  split
  · exact ⟨false, rfl, nofun⟩
  next h =>
    obtain ⟨loop, ne⟩ : o.kind = .loop ∧ o.body ≠ absent := by simpa using h
    obtain ⟨b, hb⟩ := hd.looped ho loop ne
    rw [run_op hb, ok_bind]
    split
    · exact ⟨false, rfl, nofun⟩
    next fb hx =>
      split
      · exact ⟨false, rfl, nofun⟩
      next known =>
        obtain ⟨q, hq, -⟩ := hd.wf.peer hb (List.mem_of_find?_eq_some hx) (by simpa using known)
        rw [run_op hq]
        exact ⟨_, rfl, fun _ => ne⟩

end

/-! ## Throughput -/

namespace Throughput

section

def Around (d : Design) (call : OpId) (outer : Option OpId) : Prop :=
  ∀ l ∈ outer, Nested d call l ∧ ∃ o, d.op? l = some o ∧ o.kind = .loop

def LoopsEnd (d : Design) : Prop :=
  ∀ {i o}, d.op? i = some o → o.kind = .loop → ∃ x, d.mainExit? o = some x ∧ x.tag.kind ≠ .sideband

theorem span_total (ends : LoopsEnd d) (ht : Timing.Timed d call .zero t) (hc : Nested d call c)
    (ha : Around d call outer) : ∃ head tail, Spans d t c head tail outer := by
  cases outer with
  | none =>
    obtain ⟨l, hl⟩ := ht.input (.inr hc)
    exact ⟨l, l, hl, rfl⟩
  | some l =>
    obtain ⟨hl, lp, hlp, kind⟩ := ha l rfl
    obtain ⟨head, hhead⟩ := ht.input (.inr hl)
    obtain ⟨x, main, flows⟩ := ends hlp kind
    obtain ⟨tail, htail⟩ := ht.bus ⟨x, ⟨flows, l, lp, hl, hlp, mainExit?_mem main⟩, List.mem_cons_self⟩
    exact ⟨head, tail, hhead, lp, x, hlp, main, htail⟩

theorem Orderly.loopsEnd (hd : Orderly d) : LoopsEnd d := by
  intro i o ho kind
  obtain ⟨x, y, hx, hy, main⟩ := hd.mainExit? ho (by rw [kind]; rfl)
  obtain ⟨z, hz, done, -⟩ := (hd.tidy.sits ho).leaves x (hx ▸ List.mem_singleton_self x)
  cases hy.symm.trans hz
  exact ⟨y, main, by rw [done]; decide⟩

variable (hd : Sturdy E d) (ht : Timing.Timed d call .zero t)
include hd ht

theorem span_replies (hc : Nested d call c) (ha : Around d call outer) :
    Replies E (span d t c outer) fun _ => True := by
  rcases hd.orderly with allowed | orderly
  · cases outer with
    | none =>
      obtain ⟨l, hl⟩ := ht.input (.inr hc)
      rw [span, hl]
      exact .pure trivial
    | some l =>
      obtain ⟨hl, lp, hlp, -⟩ := ha l rfl
      obtain ⟨head, hhead⟩ := ht.input (.inr hl)
      rw [span, hhead]
      refine .lift_bind (bind_ok.mpr ⟨lp, run_op hlp, rfl⟩) ?_
      split
      · exact .pure trivial
      · exact reject_replies hd.wf hlp allowed _
  · obtain ⟨head, tail, spans⟩ := span_total (Orderly.loopsEnd orderly) ht hc ha
    exact .inl ⟨_, span_run spans, trivial⟩

theorem access_returns (hc : Nested d call c) (ho : d.op? c = some o) (named : o.resource ≠ absent)
    (ha : Around d call outer) : Returns E (access d t o outer) := by
  obtain ⟨r, hr⟩ := hd.wf.accessed ho named
  unfold access
  rw [hd.wf.nesting.ids c o ho]
  refine .query_bind (span_replies hd ht hc ha) fun _ _ _ => .lift_bind (require_ok.mpr hr) (.modify _)

omit ht in
theorem loop_returns {visit : Visit} (hc : Nested d call c) (ho : d.op? c = some o) (hk : o.kind = .loop)
    (ha : Around d call outer) (hv : ∀ outer, Around d call outer → Returns E (visit c outer)) :
    Returns E (loop d visit o outer) := by
  obtain ⟨b, hb, -⟩ := hd.isIterative ho
  unfold loop
  rw [hd.wf.nesting.ids c o ho]
  refine .lift_bind hb ?_
  split
  · split
    next none =>
      have allowed : E := hd.orderly.resolve_right fun orderly => by
        obtain ⟨x, y, -, -, main⟩ := orderly.mainExit? ho (by rw [hk]; rfl)
        rw [main] at none
        cases none
      exact .query (reject_replies (Q := fun _ => True) hd.wf ho allowed _)
    next =>
      refine (returns_closed E).bind (.modify _) fun _ => hv _ ?_
      intro l hl
      cases outer with
      | none =>
        cases hl
        exact ⟨hc, o, ho, hk⟩
      | some l' =>
        cases hl
        exact ha l' rfl
  · exact hv outer ha

theorem visit_returns
    (named : ∀ {i o}, Nested d call i → d.op? i = some o → o.kind.isAccess = true → o.resource ≠ absent) (n : Nat) :
    ∀ {m o outer}, d.op? m = some o → Inside d call m o → d.room m < n → Around d call outer →
    Returns E (visit d t n m outer) := by
  induction n with
  | zero => exact fun _ _ h => absurd h (Nat.not_lt_zero _)
  | succ n ih =>
    intro m o outer hm inside room ha
    refine .query_bind (hd.order hm) fun ids order _ => (returns_closed E).forM_of_mem fun c hc => ?_
    obtain ⟨_, hm', perm⟩ := order_ok order
    cases hm.symm.trans hm'
    have hc := perm.mem_iff.mp hc
    obtain ⟨q, hq, -⟩ := hd.wf.child hm hc
    have nested := inside.nested hm hc
    have lower := hd.child_lt hm hc
    have deeper : q.kind.isInlineModule = true → ∀ outer, Around d call outer → Returns E (visit d t n c outer) :=
      fun inline outer ha => ih hq (.inr ⟨nested, inline⟩) (by omega) ha
    refine .lift_bind (run_op hq) ?_
    split
    next hk => exact loop_returns hd nested hq hk ha (deeper (by rw [hk]; rfl))
    next => exact (returns_closed E).pure _
    next notLoop notCall =>
      split
      next hk => exact deeper (by simpa [Kind.isInlineModule, hk] using notCall) outer ha
      next =>
        split
        next hk => exact access_returns hd ht nested hq (named nested hq hk) ha
        next => exact (returns_closed E).pure _

end

theorem analyzeTask_replies (hd : Sturdy E d) (hcall : d.op? task.call = some call) (kind : call.kind = .call)
    (named : task.balanced = true → ∀ {i o}, Nested d task.call i → d.op? i = some o → o.kind.isAccess = true →
        o.resource ≠ absent) : Replies E (analyzeTask d task) fun _ => True := by
  unfold analyzeTask
  split
  · rcases Timing.compute_concludes hd hcall .zero .absolute with ⟨⟨⟩, t, timed, -⟩ | ⟨allowed, e, t, failed⟩
    · have all := Timing.compute_ok hd.wf timed
      have walk : Returns E (visit d t (d.ops.size + 1) task.call none) :=
        visit_returns hd all (named ‹_›) _ hcall (.inl rfl) (room_le d _) nofun
      exact .lift_bind timed ((walk {}).bind fun _ _ _ => .pure trivial)
    · exact .lift_bind failed (.inr ⟨allowed, e, rfl⟩)
  · refine .lift_bind (run_op hcall) ?_
    split
    next none =>
      refine reject_replies hd.wf hcall (hd.orderly.resolve_right fun orderly => ?_) _
      obtain ⟨x, y, -, -, main⟩ := orderly.mainExit? hcall (by rw [kind]; rfl)
      rw [main] at none
      cases none
    next => exact .pure trivial

end Throughput

theorem Built.loopsEnd (h : Built d) : Throughput.LoopsEnd d := by
  intro i o ho kind
  obtain ⟨x, listed, -, done⟩ := h.completed ho (by rw [kind]; rfl)
  cases hz : d.exitWith? o .done with
  | none =>
    have none := List.find?_eq_none.mp hz x listed
    simp [done kind] at none
  | some z =>
    have done : z.tag = .done := by simpa using List.find?_some hz
    exact ⟨z, by rw [Design.mainExit?, hz], by rw [done]; decide⟩

/-! ## Loop registers -/

namespace Loop

section
variable (hd : Sturdy E d)
include hd

def Enclosed (d : Design) (a : OpId) : Prop :=
  ∀ ⦃o p x⦄, d.op? a = some o → d.op? o.owner = some p → x ∈ flowExits d p → x.peer ≠ absent

theorem analyze_replies (ho : d.op? c = some o) (hk : E ∨ o.kind = .whileBody) (failFast : Bool) :
    Replies E (analyze d c failFast) fun report =>
      ∀ k ∈ report.all, ∀ a ∈ [k.headAccess, k.tailAccess], Delayable d a ∧ Enclosed d a := by
  refine .lift_bind (run_op ho) ?_
  split
  next out =>
    have allowed : E := hd.orderly.elim id fun orderly => hk.resolve_right fun hk => by
      simp [hk, Kind.isLoopBody, (orderly.tidy.whole ho).again hk] at out
    exact (reject_replies hd.wf ho allowed _).bind (Q := fun _ => False) fun _ _ no => no.elim
  next body =>
    obtain ⟨loop, ne⟩ : o.kind.isLoopBody = true ∧ o.body ≠ absent := by simpa using body
    obtain ⟨b, hb, kind, own⟩ := op_of_place (hd.laid.body ho loop ne)
    refine .lift_bind (run_op hb) ?_
    split
    next none =>
      refine reject_replies hd.wf hb (hd.orderly.resolve_right fun orderly => ?_) _
      obtain ⟨-, x, -, -, main⟩ := orderly.mainExit? hb (by rw [kind]; rfl)
      rw [main] at none
      cases none
    next x main =>
      split
      · exact .pure nofun
      rcases Timing.compute_concludes hd hb .zero .relative with ⟨⟨⟩, t, timed, -⟩ | ⟨allowed, e, t, failed⟩
      · have unfound : Named d t {} := ⟨nofun, nofun⟩
        obtain ⟨ended, found, walked, named⟩ := walk_responds hd.wf hb t failFast unfound
        have enclosed : ∀ {a}, Bounded d t a → Enclosed d a := by
          intro a bounded o p x ho hp hx
          obtain ⟨l, hl⟩ := bounded ho hp hx
          obtain ⟨q, hq⟩ := Timing.compute_placed timed nofun hb hl
          exact ne_absent hq
        have all : ∀ k ∈ found.conflicts.flatMap Prod.snd, ∀ a ∈ [k.headAccess, k.tailAccess], Delayable d a ∧
          Enclosed d a := by
          intro k hk
          obtain ⟨p, hp, hk⟩ := List.mem_flatMap.mp hk
          obtain ⟨head, tail⟩ := named.conflicts p hp k hk
          simpa using ⟨head.imp_right enclosed, tail.imp_right enclosed⟩
        refine .lift_bind timed (.lift_bind walked (.pure ?_))
        unfold reportOf
        split <;> exact all
      · exact .lift_bind failed (.inr ⟨allowed, e, rfl⟩)

end

end Loop

end Datapath
