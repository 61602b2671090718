import Datapath.Proofs.Keeps
import Datapath.Proofs.Nested

/-!
# Runs that end

A step settles under an invariant if from every state with the invariant it gives a result and leaves
the invariant, or ends with an error where errors are allowed, but never with a fault. Steps that do so
can be put one after the other, so a loop settles if its body does for the elements that it meets.
-/

namespace Datapath

open List

variable {d : Design} {o : Operation} {E : Prop}

section
variable {m : Type → Type} [Monad m] {K : {α : Type} → m α → Prop} {α β : Type}

theorem Closed.forM_of_mem (h : Closed m K) {f : α → m PUnit} {l : List α} (hf : ∀ a ∈ l, K (f a)) :
    K (l.forM f) := by
  induction l with
  | nil => exact h.pure _
  | cons a l ih =>
    apply h.bind (hf a mem_cons_self)
    exact fun _ => ih fun b hb => hf b (mem_cons_of_mem _ hb)

theorem Closed.mapM_of_mem [LawfulMonad m] (h : Closed m K) {f : α → m β} {l : List α} (hf : ∀ a ∈ l, K (f a)) :
    K (l.mapM f) := by
  induction l with
  | nil =>
    exact h.pure _
  | cons a l ih =>
    rw [mapM_cons]
    apply h.bind (hf a mem_cons_self)
    intro b
    apply h.bind (ih fun c hc => hf c (mem_cons_of_mem _ hc))
    exact fun _ => h.pure _

theorem Closed.foldlM_of_mem [LawfulMonad m] (h : Closed m K) {f : β → α → m β} {l : List α}
    (hf : ∀ b, ∀ a ∈ l, K (f b a)) (b : β) : K (l.foldlM f b) := by
  induction l generalizing b with
  | nil =>
    exact h.pure _
  | cons a l ih =>
    apply h.bind (hf b a mem_cons_self)
    exact fun _ => ih (fun b c hc => hf b c (mem_cons_of_mem _ hc)) _

end

section
variable {ε σ τ α β : Type} {I : τ → Prop}

theorem ok_bind {a : α} {f : α → Except ε β} : (Except.ok a >>= f) = f a := rfl

theorem run_op {i : OpId} (h : d.op? i = some o) : d.op i = .ok o := require_ok.mpr h

def Gives (p : Steps ε τ σ α) (t : τ) (Q : α → τ → Prop) : Prop :=
  ∃ a t', p.run t = .ok (.ok a, t') ∧ Q a t'

theorem Gives.bind {p : Steps ε τ σ α} {f : α → Steps ε τ σ β} {t : τ}
    {Q : α → τ → Prop} {R : β → τ → Prop} (h : Gives p t Q) (hf : ∀ a t', Q a t' → Gives (f a) t' R) :
    Gives (p >>= f) t R := by
  obtain ⟨a, u, ha, hu⟩ := h
  obtain ⟨b, t', hb, ht'⟩ := hf a u hu
  exact ⟨b, t', step_bind_ok.mpr ⟨a, u, ha, hb⟩, ht'⟩

theorem Gives.pure {a : α} {t : τ} {Q : α → τ → Prop} (h : Q a t) : Gives (pure a : Steps ε τ σ α) t Q :=
  ⟨a, t, rfl, h⟩

def Responds (I : τ → Prop) (p : Steps ε τ σ α) : Prop :=
  ∀ ⦃t⦄, I t → ∃ r t', p.run t = .ok (r, t') ∧ I t'

theorem Responds.learn_bind {p : Steps ε τ σ α} {k : α → Steps ε τ σ β}
    (hp : Responds I p) (hk : ∀ ⦃a t u⦄, p.run t = .ok (.ok a, u) → Responds I (k a)) : Responds I (p >>= k) := by
  intro t ht
  obtain ⟨r, u, hr, hu⟩ := hp ht
  cases r with
  | error e => exact ⟨.error e, u, step_bind_run.mpr (.inl ⟨e, hr, rfl⟩), hu⟩
  | ok a =>
    obtain ⟨r', t', hr', ht'⟩ := hk hr hu
    exact ⟨r', t', step_bind_run.mpr (.inr ⟨a, u, hr, hr'⟩), ht'⟩

theorem Responds.pure (a : α) : Responds I (pure a : Steps ε τ σ α) := fun t ht => ⟨.ok a, t, rfl, ht⟩

theorem Responds.bind {p : Steps ε τ σ α} {k : α → Steps ε τ σ β}
    (hp : Responds I p) (hk : ∀ a, Responds I (k a)) : Responds I (p >>= k) := hp.learn_bind fun a _ _ _ => hk a

theorem responds_closed : Closed (Steps ε τ σ) fun {_} p => Responds I p := ⟨.pure, .bind⟩

theorem Responds.lift_bind {x : Except σ α} {a : α} {k : α → Steps ε τ σ β} (hx : x = .ok a)
    (hk : Responds I (k a)) : Responds I (liftM x >>= k) := by
  intro t ht
  obtain ⟨r, t', hr, ht'⟩ := hk ht
  exact ⟨r, t', step_bind_run.mpr (.inr ⟨a, t, step_lift_ok.mpr ⟨hx, rfl⟩, hr⟩), ht'⟩

theorem Responds.throw (e : ε) : Responds I (throw e : Steps ε τ σ α) := fun t ht => ⟨.error e, t, rfl, ht⟩

theorem Responds.modify {f : τ → τ} (hf : ∀ ⦃t⦄, I t → I (f t)) :
    Responds I (modify f : Steps ε τ σ PUnit) := fun t ht => ⟨.ok ⟨⟩, f t, rfl, hf ht⟩

theorem query_bind_exists {P : β → Prop} {q : ExceptT ε (Except σ) α} {f : α → ExceptT ε (Except σ) β} {a : α}
    (hq : q.run = .ok (.ok a)) (hf : ∃ b, (f a).run = .ok (.ok b) ∧ P b) : ∃ b, (q >>= f).run = .ok (.ok b) ∧ P b :=
  hf.imp fun _ hb => hb.imp_left fun hb => query_bind_ok.mpr ⟨a, hq, hb⟩

def Replies (E : Prop) (q : ExceptT ε (Except σ) α) (Q : α → Prop) : Prop :=
  (∃ a, q.run = .ok (.ok a) ∧ Q a) ∨ E ∧ ∃ e, q.run = .ok (.error e)

section
variable {q : ExceptT ε (Except σ) α} {f : α → ExceptT ε (Except σ) β} {Q : α → Prop} {R : β → Prop}

theorem Replies.pure {a : α} (h : Q a) : Replies E (pure a : ExceptT ε (Except σ) α) Q := .inl ⟨a, rfl, h⟩

theorem Replies.bind (h : Replies E q Q) (hf : ∀ a, q.run = .ok (.ok a) → Q a → Replies E (f a) R) :
    Replies E (q >>= f) R := by
  rcases h with ⟨a, ha, hQ⟩ | ⟨allowed, e, he⟩
  · rcases hf a ha hQ with ⟨b, hb, hR⟩ | ⟨allowed, e, he⟩
    · exact .inl ⟨b, query_bind_ok.mpr ⟨a, ha, hb⟩, hR⟩
    · refine .inr ⟨allowed, e, ?_⟩
      show (q.run >>= ExceptT.bindCont f) = _
      rw [ha]
      exact he
  · refine .inr ⟨allowed, e, ?_⟩
    show (q.run >>= ExceptT.bindCont f) = _
    rw [he]
    rfl

theorem Replies.lift_bind {x : Except σ α} {a : α} (hx : x = .ok a) (hf : Replies E (f a) R) :
    Replies E (liftM x >>= f) R := by
  rw [hx]
  exact hf

theorem Replies.learn {Q' : α → Prop} (h : Replies E q Q) (hQ : ∀ a, q.run = .ok (.ok a) → Q a → Q' a) :
    Replies E q Q' :=
  h.imp_left fun ⟨a, ha, h⟩ => ⟨a, ha, hQ a ha h⟩

end

theorem replies_closed (E : Prop) : Closed (ExceptT ε (Except σ)) fun {_} q => Replies E q fun _ => True where
  pure _ := .pure trivial
  bind hq hf := hq.bind fun a _ _ => hf a

def Returns (E : Prop) (w : StateT τ (ExceptT ε (Except σ)) α) : Prop := ∀ t, Replies E (w.run t) fun _ => True

theorem returns_closed (E : Prop) : Closed (StateT τ (ExceptT ε (Except σ))) fun {_} w => Returns E w where
  pure _ _ := .pure trivial
  bind hw hf t := (hw t).bind fun p _ _ => hf p.1 p.2

theorem Returns.query_bind {q : ExceptT ε (Except σ) α} {k : α → StateT τ (ExceptT ε (Except σ)) β}
    {Q : α → Prop} (hq : Replies E q Q) (hk : ∀ a, q.run = .ok (.ok a) → Q a → Returns E (k a)) :
    Returns E (liftM q >>= k) := fun t => by
  have moved : Replies E ((liftM q : StateT τ (ExceptT ε (Except σ)) α).run t) fun p =>
      q.run = .ok (.ok p.1) ∧ Q p.1 := hq.bind fun _ ha hQ => .pure ⟨ha, hQ⟩
  exact moved.bind fun p _ h => hk p.1 h.1 h.2 p.2

theorem Returns.query {q : ExceptT ε (Except σ) α} {Q : α → Prop} (hq : Replies E q Q) :
    Returns E (liftM q : StateT τ (ExceptT ε (Except σ)) α) := fun _ => hq.bind fun _ _ _ => .pure trivial

theorem Returns.lift_bind {x : Except σ α} {a : α} {k : α → StateT τ (ExceptT ε (Except σ)) β}
    (hx : x = .ok a) (hk : Returns E (k a)) : Returns E (liftM x >>= k) := by
  rw [hx]
  exact hk

theorem Returns.modify (f : τ → τ) : Returns E (modify f : StateT τ (ExceptT ε (Except σ)) PUnit) :=
  fun _ => .pure trivial

def Concludes (E : Prop) (p : Steps ε τ σ α) (t : τ) (Q : α → τ → Prop) : Prop :=
  Gives p t Q ∨ E ∧ ∃ e t', p.run t = .ok (.error e, t')

def Settles (E : Prop) (I : τ → Prop) (p : Steps ε τ σ α) : Prop :=
  ∀ ⦃t⦄, I t → Concludes E p t fun _ => I

section
variable {p : Steps ε τ σ α} {f : α → Steps ε τ σ β} {t : τ}
  {Q : α → τ → Prop} {R : β → τ → Prop}

theorem Concludes.pure {a : α} (h : Q a t) : Concludes E (pure a : Steps ε τ σ α) t Q := .inl (.pure h)

theorem Concludes.bind (h : Concludes E p t Q)
    (hf : ∀ a t', p.run t = .ok (.ok a, t') → Q a t' → Concludes E (f a) t' R) : Concludes E (p >>= f) t R := by
  rcases h with ⟨a, u, ha, hQ⟩ | ⟨allowed, e, u, he⟩
  · rcases hf a u ha hQ with ⟨b, t', hb, hR⟩ | ⟨allowed, e, t', he⟩
    · exact .inl ⟨b, t', step_bind_ok.mpr ⟨a, u, ha, hb⟩, hR⟩
    · exact .inr ⟨allowed, e, t', step_bind_run.mpr (.inr ⟨a, u, ha, he⟩)⟩
  · exact .inr ⟨allowed, e, u, step_bind_run.mpr (.inl ⟨e, he, rfl⟩)⟩

theorem Concludes.learn {Q' : α → τ → Prop} (h : Concludes E p t Q)
    (hQ : ∀ a t', p.run t = .ok (.ok a, t') → Q a t' → Q' a t') : Concludes E p t Q' :=
  h.imp_left fun ⟨a, t', ha, h⟩ => ⟨a, t', ha, hQ a t' ha h⟩

theorem Concludes.lift_bind {x : Except σ α} {a : α} (hx : x = .ok a) (hf : Concludes E (f a) t R) :
    Concludes E (liftM x >>= f) t R := by
  rw [hx]
  exact hf

theorem Concludes.get_bind {f : τ → Steps ε τ σ β} (hf : Concludes E (f t) t R) : Concludes E (get >>= f) t R := hf

theorem Concludes.modify {f : τ → τ} {Q : PUnit → τ → Prop} (h : Q ⟨⟩ (f t)) :
    Concludes E (modify f : Steps ε τ σ PUnit) t Q := .inl ⟨⟨⟩, f t, rfl, h⟩

theorem settles_closed (E : Prop) (I : τ → Prop) : Closed (Steps ε τ σ) fun {_} p => Settles E I p where
  pure _ _ ht := .pure ht
  bind hp hf _ ht := (hp ht).bind fun a _ _ hu => hf a hu

end

theorem mapM_total {f : α → Except ε β} {l : List α} (h : ∀ a ∈ l, ∃ b, f a = .ok b) : ∃ ys, l.mapM f = .ok ys := by
  induction l with
  | nil => exact ⟨[], rfl⟩
  | cons a l ih =>
    obtain ⟨b, hb⟩ := h a mem_cons_self
    obtain ⟨ys, hys⟩ := ih fun c hc => h c (mem_cons_of_mem _ hc)
    refine ⟨b :: ys, ?_⟩
    rw [mapM_cons, hb, hys]
    rfl

theorem query_mapM_total {f : α → ExceptT ε (Except σ) β} {l : List α}
    (h : ∀ a ∈ l, ∃ b, (f a).run = .ok (.ok b)) : ∃ ys, (l.mapM f).run = .ok (.ok ys) := by
  induction l with
  | nil => exact ⟨[], by rfl⟩
  | cons a l ih =>
    obtain ⟨b, hb⟩ := h a mem_cons_self
    obtain ⟨ys, hys⟩ := ih fun c hc => h c (mem_cons_of_mem _ hc)
    refine ⟨b :: ys, ?_⟩
    rw [mapM_cons]
    exact query_bind_ok.mpr ⟨b, hb, query_bind_ok.mpr ⟨ys, hys, rfl⟩⟩

end

section
variable {part : String} {α β : Type} {Q : α → Design → Prop} {R : β → Design → Prop}

def Does (m : Build α) (d : Design) (Q : α → Design → Prop) : Prop := ∃ a d', m d = .ok (a, d') ∧ Q a d'

theorem Does.bind {m : Build α} {f : α → Build β} (hm : Does m d Q) (hf : ∀ a d', Q a d' → Does (f a) d' R) :
    Does (m >>= f) d R := by
  obtain ⟨a, e, ha, hq⟩ := hm
  obtain ⟨b, d', hb, hr⟩ := hf a e hq
  exact ⟨b, d', build_bind_ok.mpr ⟨a, e, ha, hb⟩, hr⟩

theorem Does.pure {a : α} (h : Q a d) : Does (pure a) d Q := ⟨a, d, rfl, h⟩

theorem Does.ask_bind {q : Design → Except Fault α} {f : α → Build β} {a : α} (hq : q d = .ok a)
    (hf : Does (f a) d R) : Does (ask q >>= f) d R := by
  obtain ⟨b, d', hb, hr⟩ := hf
  exact ⟨b, d', ask_bind_ok.mpr ⟨a, hq, hb⟩, hr⟩

theorem Gives.look_bind {q : Design → Except Fault α} {f : α → Pass β} {a : α} (hq : q d = .ok a)
    (hf : Gives (f a) d R) : Gives (Pass.look q >>= f) d R := by
  obtain ⟨b, d', hb, hr⟩ := hf
  exact ⟨b, d', look_bind_ok.mpr ⟨a, hq, hb⟩, hr⟩

theorem Gives.ofBuild {m : Build α} (hm : Does m d Q) : Gives (Pass.ofBuild m) d Q := by
  obtain ⟨a, d', ha, hq⟩ := hm
  exact ⟨a, d', ofBuild_ok.mpr ha, hq⟩

theorem Gives.discard {p : Pass α} {P : Design → Prop} (hp : Gives p d fun _ => P) :
    Gives (discard p) d fun _ => P := by
  exact hp.bind fun _ _ h => .pure h

theorem Gives.within {p : Pass α} (hp : Gives p d Q) : Gives (Pass.within part p) d Q := by
  obtain ⟨a, d', ha, hq⟩ := hp
  exact ⟨a, d', within_ok.mpr ha, hq⟩

theorem Concludes.look_bind {q : Design → Except Fault α} {f : α → Pass β} {a : α} (hq : q d = .ok a)
    (hf : Concludes E (f a) d R) : Concludes E (Pass.look q >>= f) d R := by
  rcases hf with hf | ⟨allowed, e, d', he⟩
  · exact .inl (.look_bind hq hf)
  · exact .inr ⟨allowed, e, d', step_bind_run.mpr (.inr ⟨a, d, look_ok.mpr ⟨hq, rfl⟩, he⟩)⟩

theorem Concludes.query {q : Design → Query α} {P : α → Prop} (hq : Replies E (q d) P)
    (hQ : ∀ a, (q d).run = .ok (.ok a) → P a → Q a d) : Concludes E (Pass.query q) d Q := by
  rcases hq with ⟨a, ha, hP⟩ | ⟨allowed, e, he⟩
  · exact .inl ⟨a, d, passQuery_ok.mpr ⟨ha, rfl⟩, hQ a ha hP⟩
  · exact .inr ⟨allowed, e, d, bind_ok.mpr ⟨_, he, rfl⟩⟩

theorem Concludes.query_bind {q : Design → Query α} {f : α → Pass β} {P : α → Prop} (hq : Replies E (q d) P)
    (hf : ∀ a, (q d).run = .ok (.ok a) → P a → Concludes E (f a) d R) : Concludes E (Pass.query q >>= f) d R := by
  have asked : Concludes E (Pass.query q) d fun a e => (q d).run = .ok (.ok a) ∧ P a ∧ e = d :=
    .query hq fun _ ha hP => ⟨ha, hP, rfl⟩
  refine asked.bind ?_
  rintro a _ - ⟨ha, hP, rfl⟩
  exact hf a ha hP

theorem Concludes.within {p : Pass α} (hp : Concludes E p d Q) : Concludes E (Pass.within part p) d Q := by
  rcases hp with hp | ⟨allowed, e, d', he⟩
  · exact .inl hp.within
  · exact .inr ⟨allowed, .within part e, d', build_bind_ok.mpr ⟨_, d', he, rfl⟩⟩

end

/-! ## Questions asked twice -/

/-- Two questions give related answers, or the same error, or the same fault. -/
inductive Agree {ε σ α β : Type} (R : α → β → Prop) : Except σ (Except ε α) → Except σ (Except ε β) → Prop where
  | answer {a : α} {b : β} (h : R a b) : Agree R (.ok (.ok a)) (.ok (.ok b))
  | error (e : ε) : Agree R (.ok (.error e)) (.ok (.error e))
  | fault (f : σ) : Agree R (.error f) (.error f)

namespace Agree

variable {ε σ α β γ δ : Type} {R : α → β → Prop} {S : γ → δ → Prop}

theorem of_answers {x : Except σ (Except ε α)} {y : Except σ (Except ε β)} {a : α} {b : β} (hx : x = .ok (.ok a))
    (hy : y = .ok (.ok b)) (h : R a b) : Agree R x y := by
  rw [hx, hy]
  exact .answer h

theorem bind {q : ExceptT ε (Except σ) α} {q' : ExceptT ε (Except σ) β} {f : α → ExceptT ε (Except σ) γ}
    {g : β → ExceptT ε (Except σ) δ} (hq : Agree R q.run q'.run)
    (hf : ∀ {a b}, R a b → Agree S (f a).run (g b).run) : Agree S (q >>= f).run (q' >>= g).run := by
  cases hq with
  | answer h => exact hf h
  | error e => exact .error e
  | fault f => exact .fault f

theorem self (q : ExceptT ε (Except σ) α) : Agree (fun a b => q.run = .ok (.ok a) ∧ b = a) q.run q.run := by
  cases hq : q.run with
  | error f => exact .fault f
  | ok r =>
    cases r with
    | error e => exact .error e
    | ok c => exact .answer ⟨rfl, rfl⟩

theorem imp {R' : α → β → Prop} {x : Except σ (Except ε α)} {y : Except σ (Except ε β)} (h : Agree R x y)
    (hR : ∀ {a b}, R a b → R' a b) : Agree R' x y := by
  cases h with
  | answer h => exact .answer (hR h)
  | error e => exact .error e
  | fault f => exact .fault f

theorem ask {q : ExceptT ε (Except σ) α} {f : α → ExceptT ε (Except σ) γ} {g : α → ExceptT ε (Except σ) δ}
    (h : ∀ c, q.run = .ok (.ok c) → Agree S (f c).run (g c).run) : Agree S (q >>= f).run (q >>= g).run := by
  apply (self q).bind
  rintro a b ⟨hq, e⟩
  rw [e]
  exact h a hq

theorem mapM {f f' : α → ExceptT ε (Except σ) β} (h : ∀ a, Agree (fun _ _ => True) (f a).run (f' a).run)
    (l : List α) : Agree (fun _ _ => True) (l.mapM f).run (l.mapM f').run := by
  induction l with
  | nil => exact .answer trivial
  | cons a l ih =>
    rw [mapM_cons, mapM_cons]
    exact (h a).bind fun _ => ih.bind fun _ => .answer trivial

end Agree

/-! ## Rejections -/

section
variable {i x : Int}

def Design.Holds (d : Design) (x : OpId) : Prop := x = absent ∨ ∃ o, d.op? x = some o

theorem Design.Holds.le (hx : d.Holds x) : 0 ≤ x + 1 := by
  rcases hx with rfl | ⟨o, ho⟩
  · decide
  · have := (at?_lt ho).1
    omega

theorem WellFormed.holder (hd : WellFormed d) (ho : d.op? i = some o) : d.Holds o.owner := by
  by_cases hne : o.owner = absent
  · exact .inl hne
  · obtain ⟨p, hp, -⟩ := hd.mem_children ho hne
    exact .inr ⟨p, hp⟩

theorem label_total (hx : d.Holds x) : ∃ l, d.label x = .ok l := by
  unfold Design.label
  split
  · exact ⟨_, rfl⟩
  next ne =>
    obtain ⟨o, ho⟩ := hx.resolve_left (by simpa using ne)
    rw [run_op ho]
    exact ⟨_, rfl⟩

section
variable (hd : WellFormed d)
include hd

theorem ownersFrom_total {n : Nat} (hx : d.Holds x) (room : x + 1 < n) :
    ∃ os, d.ownersFrom n x = .ok os ∧ ∀ m ∈ os, ∃ o, d.op? m = some o := by
  induction n generalizing x with
  | zero =>
    -- there is no room for an index, not even for the one that stands for no element
    exact absurd room (Int.not_lt.mpr hx.le)
  | succ n ih =>
    unfold Design.ownersFrom
    by_cases top : x = absent
    · exact ⟨[], if_pos (beq_iff_eq.mpr top), nofun⟩
    · obtain ⟨o, ho⟩ := hx.resolve_left top
      have lt := Int.add_one_le_of_lt (hd.nesting.older ho)
      obtain ⟨os, hos, there⟩ := ih (hd.holder ho) (by omega)
      refine ⟨x :: os, ?_, List.forall_mem_cons.mpr ⟨⟨o, ho⟩, there⟩⟩
      rw [if_neg (by simpa using top), run_op ho, ok_bind, hos]
      rfl

section
variable (ho : d.op? i = some o)
include ho

theorem owners_total : ∃ os, d.owners i = .ok os ∧ ∀ m ∈ os, ∃ q, d.op? m = some q := by
  have lt := Int.add_one_le_of_lt (hd.nesting.older ho)
  have size := (at?_lt ho).2
  obtain ⟨os, hos, there⟩ := ownersFrom_total hd (n := d.ops.size + 1) (hd.holder ho) (by omega)
  refine ⟨os, ?_, there⟩
  rw [Design.owners, run_op ho, ok_bind, hos]

theorem ownerLabels_total : ∃ ls, d.ownerLabels i = .ok ls := by
  obtain ⟨os, hos, there⟩ := owners_total hd ho
  rw [Design.ownerLabels, hos]
  apply mapM_total
  intro m hm
  obtain ⟨q, hq⟩ := there m hm
  exact ⟨q.label, by rw [run_op hq]; rfl⟩

theorem site_total : ∃ s, d.site i = .ok s ∧ s.node = o.label := by
  obtain ⟨ls, hls⟩ := ownerLabels_total hd ho
  refine ⟨⟨o.label, ls⟩, ?_, rfl⟩
  rw [Design.site, run_op ho, hls]
  rfl

theorem reject_total {α : Type} (reason : Reason) :
    ∃ s, (d.reject i reason : Query α).run = .ok (.error (.malformed (some s) reason)) ∧ s.node = o.label := by
  obtain ⟨s, hs, node⟩ := site_total hd ho
  have hm : d.malformed i reason = .ok (.malformed (some s) reason) := by
    rw [Design.malformed, if_neg (by simpa using ne_absent ho), hs]
    rfl
  refine ⟨s, ?_, node⟩
  unfold Design.reject
  rw [hm]
  rfl

theorem orderBy_of_error {sort : Sorter} {groups : List (List OpId)}
    (h : sort (d.graph i o.children) = .error groups) :
    ∃ s, (d.orderBy sort i).run = .ok (.error (.malformed (some s) (.cycle groups))) ∧ s.node = o.label := by
  obtain ⟨s, rejected, node⟩ := reject_total (α := List OpId) hd ho (.cycle groups)
  refine ⟨s, ?_, node⟩
  rw [orderBy_run sort ho, h]
  exact rejected

theorem order_answers : (∃ ids, (d.order i).run = .ok (.ok ids)) ∨
    ∃ s groups, (d.order i).run = .ok (.error (.malformed (some s) (.cycle groups))) ∧ s.node = o.label := by
  cases arranged : arrange (d.drivers i) o.children.length [] o.children with
  | some ids => exact .inl ⟨ids, order_ok_iff.mpr ⟨o, ho, hd.children_nodup ho, arranged⟩⟩
  | none =>
    have failed : topoSort (d.graph i o.children) =
        .error (cyclicComponents (d.graph i o.children).sources (d.graph i o.children).nodes) := by
      unfold topoSort
      rw [graph_spec.1, arrange_graph, arranged]
    obtain ⟨s, rejected⟩ := orderBy_of_error hd ho failed
    exact .inr ⟨s, _, rejected⟩

end

end

end

end Datapath
