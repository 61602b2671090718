import Datapath.Pass
import Mathlib.Data.List.Forall2

/-!
# Computations that end well

What a computation that may fail did if it ended with a result.
-/

namespace Datapath

open List

variable {d d' : Design} {c : Prop}

section
variable {op : OpId} {reason : Reason} {ε α β σ : Type}

theorem bind_ok {x : Except ε α} {f : α → Except ε β} {b : β} :
    (x >>= f) = .ok b ↔ ∃ a, x = .ok a ∧ f a = .ok b := by
  cases x with
  | error e => exact ⟨nofun, fun ⟨_, h, _⟩ => by cases h⟩
  | ok a => exact ⟨fun h => ⟨a, rfl, h⟩, fun ⟨_, h, h'⟩ => by cases h; exact h'⟩

theorem forall₂_left {R : α → β → Prop} {l : List α} {l' : List β} (h : List.Forall₂ R l l') :
    ∀ a ∈ l, ∃ b ∈ l', R a b := by
  induction h with
  | nil => nofun
  | cons hab _ ih =>
    refine forall_mem_cons.mpr ⟨⟨_, mem_cons_self, hab⟩, fun a ha => ?_⟩
    obtain ⟨b, hb, hr⟩ := ih a ha
    exact ⟨b, mem_cons_of_mem _ hb, hr⟩

theorem forall₂_right {R : α → β → Prop} {l : List α} {l' : List β} (h : List.Forall₂ R l l') :
    ∀ b ∈ l', ∃ a ∈ l, R a b :=
  forall₂_left (R := flip R) h.flip

theorem mapM_pairs {f : α → Except ε β} {l : List α} {ys : List β} (h : l.mapM f = .ok ys) :
    Forall₂ (fun a b => f a = .ok b) l ys := by
  induction l generalizing ys with
  | nil =>
    cases h
    exact .nil
  | cons a l ih =>
    rw [mapM_cons] at h
    obtain ⟨b, hb, h⟩ := bind_ok.mp h
    obtain ⟨bs, hbs, h⟩ := bind_ok.mp h
    cases h
    exact .cons hb (ih hbs)

theorem query_bind_ok {q : ExceptT ε (Except σ) α} {f : α → ExceptT ε (Except σ) β} {b : β} :
    (q >>= f).run = .ok (.ok b) ↔ ∃ a, q.run = .ok (.ok a) ∧ (f a).run = .ok (.ok b) := by
  change (q.run >>= ExceptT.bindCont f) = _ ↔ _
  rw [bind_ok]
  constructor
  · rintro ⟨e | a, hq, h⟩
    · cases h
    · exact ⟨a, hq, h⟩
  · rintro ⟨a, hq, h⟩
    exact ⟨.ok a, hq, h⟩

theorem query_lift_ok {x : Except σ α} {a : α} :
    (liftM x : ExceptT ε (Except σ) α).run = .ok (.ok a) ↔ x = .ok a := by
  cases x with
  | error e => exact ⟨nofun, nofun⟩
  | ok b => exact ⟨fun h => by cases h; rfl, fun h => by cases h; rfl⟩

theorem query_pure_ok {a b : α} : (pure a : ExceptT ε (Except σ) α).run = .ok (.ok b) ↔ b = a :=
  ⟨fun h => by cases h; rfl, fun h => by rw [h]; rfl⟩

theorem query_mapM_pairs {f : α → ExceptT ε (Except σ) β} {l : List α} {ys : List β}
    (h : (l.mapM f).run = .ok (.ok ys)) : Forall₂ (fun a b => (f a).run = .ok (.ok b)) l ys := by
  induction l generalizing ys with
  | nil =>
    cases h
    exact .nil
  | cons a l ih =>
    rw [mapM_cons] at h
    obtain ⟨b, hb, h⟩ := query_bind_ok.mp h
    obtain ⟨bs, hbs, h⟩ := query_bind_ok.mp h
    cases h
    exact .cons hb (ih hbs)

theorem query_mapM_ok {f : α → ExceptT ε (Except σ) β} {g : α → β} {P : α → Prop}
    {l : List α} {ys : List β} (hf : ∀ a ∈ l, ∀ b, (f a).run = .ok (.ok b) → P a ∧ b = g a)
    (h : (l.mapM f).run = .ok (.ok ys)) : (∀ a ∈ l, P a) ∧ ys = l.map g := by
  have each := ((forall₂_and_left ..).mpr ⟨hf, query_mapM_pairs h⟩).imp fun a b h => h.1 b h.2
  obtain ⟨all, same⟩ := (forall₂_and_left ..).mp each
  have same : Forall₂ Eq ys (l.map g) := forall₂_map_right_iff.mpr same.flip
  rw [forall₂_eq_eq_eq] at same
  exact ⟨all, same⟩

/-! ## With a state -/

/-- Steps that change a state, and may end with an error or a fault. -/
abbrev Steps (ε τ σ : Type) := ExceptT ε (StateT τ (Except σ))

section
variable {τ : Type} {t t' : τ}

theorem step_bind_ok {s : Steps ε τ σ α} {f : α → Steps ε τ σ β} {b : β} :
    (s >>= f).run t = .ok (.ok b, t') ↔ ∃ a u, s.run t = .ok (.ok a, u) ∧ (f a).run u = .ok (.ok b, t') := by
  change (s.run t >>= fun p => ExceptT.bindCont f p.1 p.2) = _ ↔ _
  rw [bind_ok]
  constructor
  · rintro ⟨⟨e | a, u⟩, hs, h⟩
    · cases h
    · exact ⟨a, u, hs, h⟩
  · rintro ⟨a, u, hs, h⟩
    exact ⟨(.ok a, u), hs, h⟩

theorem step_pure_ok {a b : α} : (pure a : Steps ε τ σ α).run t = .ok (.ok b, t') ↔ b = a ∧ t' = t :=
  ⟨fun h => by cases h; exact ⟨rfl, rfl⟩, fun ⟨h, h'⟩ => by rw [h, h']; rfl⟩

theorem step_lift_ok {x : Except σ α} {a : α} :
    (liftM x : Steps ε τ σ α).run t = .ok (.ok a, t') ↔ x = .ok a ∧ t' = t := by
  cases x with
  | error e => exact ⟨nofun, fun h => nomatch h.1⟩
  | ok b => exact ⟨fun h => by cases h; exact ⟨rfl, rfl⟩, fun ⟨h, h'⟩ => by cases h; rw [h']; rfl⟩

theorem step_get_ok {a : τ} : (get : Steps ε τ σ τ).run t = .ok (.ok a, t') ↔ a = t ∧ t' = t :=
  ⟨fun h => by cases h; exact ⟨rfl, rfl⟩, fun ⟨h, h'⟩ => by rw [h, h']; rfl⟩

theorem step_modify_ok {f : τ → τ} {u : PUnit} :
    (modify f : Steps ε τ σ PUnit).run t = .ok (.ok u, t') ↔ t' = f t :=
  ⟨fun h => by cases h; rfl, fun h => by rw [h]; rfl⟩

theorem step_mapM_mem {f : α → Steps ε τ σ β} {l : List α} {ys : List β}
    (h : (l.mapM f).run t = .ok (.ok ys, t')) : ∀ a ∈ l, ∃ b u u', (f a).run u = .ok (.ok b, u') := by
  induction l generalizing ys t t' with
  | nil => nofun
  | cons a l ih =>
    rw [mapM_cons] at h
    obtain ⟨b, u, hb, h⟩ := step_bind_ok.mp h
    obtain ⟨bs, u', hbs, -⟩ := step_bind_ok.mp h
    exact forall_mem_cons.mpr ⟨⟨b, t, u, hb⟩, ih hbs⟩

theorem toOption_eq_some {x : Except σ α} {a : α} : x.toOption = some a ↔ x = .ok a := by
  cases x <;> simp [Except.toOption]

def completed : Except σ (Except ε α × τ) → Option (α × τ)
  | .ok (.ok a, t) => some (a, t)
  | _ => none

theorem completed_some {x : Except σ (Except ε α × τ)} {p : α × τ} :
    completed x = some p ↔ x = .ok (.ok p.1, p.2) := by
  constructor
  · intro h
    unfold completed at h
    split at h
    next => cases h; rfl
    next => cases h
  · intro h
    rw [h]; rfl

/-! ### Results that can be computed -/

section
variable {P : α → Prop} [DecidablePred P]

instance decidableSome {x : Option α} : Decidable (∃ a, x = some a ∧ P a) :=
  decidable_of_iff (x.any (P ·) = true) (by simp [Option.any_eq_true])

instance decidableOk {x : Except σ α} : Decidable (∃ a, x = .ok a ∧ P a) :=
  decidable_of_iff (∃ a, x.toOption = some a ∧ P a) (by simp only [toOption_eq_some])

instance decidableDone {x : Except σ (Except ε α)} : Decidable (∃ a, x = .ok (.ok a) ∧ P a) :=
  decidable_of_iff (∃ r, x = .ok r ∧ ∃ a, r = .ok a ∧ P a) (by simp)

end

section
variable {Q : α → τ → Prop} [∀ a t, Decidable (Q a t)]

instance decidableRun {x : Except σ (α × τ)} : Decidable (∃ a t, x = .ok (a, t) ∧ Q a t) :=
  decidable_of_iff (∃ p, x = .ok p ∧ Q p.1 p.2) (by simp)

instance decidableRunOk {x : Except σ (Except ε α × τ)} : Decidable (∃ a t, x = .ok (.ok a, t) ∧ Q a t) :=
  decidable_of_iff (∃ p, completed x = some p ∧ Q p.1 p.2) (by simp [completed_some])

instance decidableRunError : (x : Except σ (Except α ε × τ)) → Decidable (∃ a t, x = .ok (.error a, t) ∧ Q a t)
  | .ok (.error a, t) => decidable_of_iff (Q a t) (by simp)
  | .ok (.ok _, _) | .error _ => isFalse (by simp)

end

/-! ### Also with an error -/

variable {r : Except ε α}

theorem step_bind_run {s : Steps ε τ σ β} {f : β → Steps ε τ σ α} :
    (s >>= f).run t = .ok (r, t') ↔ (∃ e, s.run t = .ok (.error e, t') ∧ r = .error e) ∨ ∃ b u,
      s.run t = .ok (.ok b, u) ∧ (f b).run u = .ok (r, t') := by
  change (s.run t >>= fun p => ExceptT.bindCont f p.1 p.2) = _ ↔ _
  rw [bind_ok]
  constructor
  · rintro ⟨⟨e | b, u⟩, hs, h⟩
    · cases h; exact .inl ⟨e, hs, rfl⟩
    · exact .inr ⟨b, u, hs, h⟩
  · rintro (⟨e, hs, rfl⟩ | ⟨b, u, hs, h⟩)
    · exact ⟨(.error e, t'), hs, rfl⟩
    · exact ⟨(.ok b, u), hs, h⟩

theorem step_pure_run {a : α} : (pure a : Steps ε τ σ α).run t = .ok (r, t') ↔ r = .ok a ∧ t' = t :=
  ⟨fun h => by cases h; exact ⟨rfl, rfl⟩, fun ⟨h, h'⟩ => by rw [h, h']; rfl⟩

theorem step_throw_run {e : ε} : (throw e : Steps ε τ σ α).run t = .ok (r, t') ↔ r = .error e ∧ t' = t :=
  ⟨fun h => by cases h; exact ⟨rfl, rfl⟩, fun ⟨h, h'⟩ => by rw [h, h']; rfl⟩

theorem step_lift_run {x : Except σ α} :
    (liftM x : Steps ε τ σ α).run t = .ok (r, t') ↔ ∃ a, x = .ok a ∧ r = .ok a ∧ t' = t := by
  cases x with
  | error e => exact ⟨nofun, fun ⟨_, h, _⟩ => nomatch h⟩
  | ok b =>
    exact ⟨fun h => by cases h; exact ⟨b, rfl, rfl, rfl⟩, fun ⟨_, h, h', h''⟩ => by cases h; rw [h', h'']; rfl⟩

theorem step_modify_run {f : τ → τ} {r : Except ε PUnit} :
    (modify f : Steps ε τ σ PUnit).run t = .ok (r, t') ↔ r = .ok ⟨⟩ ∧ t' = f t :=
  ⟨fun h => by cases h; exact ⟨rfl, rfl⟩, fun ⟨h, h'⟩ => by rw [h, h']; rfl⟩

end

/-! ## With a state that an error drops -/

section
variable {τ : Type} {f f' : τ}

theorem walk_bind_ok {m : StateT τ (ExceptT ε (Except σ)) α} {k : α → StateT τ (ExceptT ε (Except σ)) β} {b : β} :
    ((m >>= k).run f).run = .ok (.ok (b, f')) ↔
      ∃ a g, (m.run f).run = .ok (.ok (a, g)) ∧ ((k a).run g).run = .ok (.ok (b, f')) := by
  rw [StateT.run_bind, query_bind_ok, Prod.exists]

theorem walk_pure_ok {a b : α} :
    ((pure a : StateT τ (ExceptT ε (Except σ)) α).run f).run = .ok (.ok (b, f')) ↔ b = a ∧ f' = f := by
  rw [StateT.run_pure, query_pure_ok, Prod.mk.injEq]

theorem walk_query_ok {q : ExceptT ε (Except σ) α} {a : α} :
    ((liftM q : StateT τ (ExceptT ε (Except σ)) α).run f).run = .ok (.ok (a, f')) ↔ q.run = .ok (.ok a) ∧
      f' = f := by
  change ((q >>= fun a => pure (a, f)) : ExceptT ε (Except σ) (α × τ)).run = _ ↔ _
  simp only [query_bind_ok, query_pure_ok, Prod.mk.injEq]
  exact ⟨fun ⟨_, h, e, e'⟩ => ⟨e ▸ h, e'⟩, fun ⟨h, e⟩ => ⟨a, h, rfl, e⟩⟩

theorem walk_lift_ok {x : Except σ α} {a : α} :
    ((liftM x : StateT τ (ExceptT ε (Except σ)) α).run f).run = .ok (.ok (a, f')) ↔ x = .ok a ∧ f' = f := by
  change ((liftM (liftM x : ExceptT ε (Except σ) α) : StateT τ (ExceptT ε (Except σ)) α).run f).run = _ ↔ _
  rw [walk_query_ok, query_lift_ok]

theorem walk_query_bind_ok {q : ExceptT ε (Except σ) α} {k : α → StateT τ (ExceptT ε (Except σ)) β} {b : β} :
    ((liftM q >>= k).run f).run = .ok (.ok (b, f')) ↔
      ∃ a, q.run = .ok (.ok a) ∧ ((k a).run f).run = .ok (.ok (b, f')) := by
  rw [walk_bind_ok]
  constructor
  · rintro ⟨a, _, h, h'⟩
    obtain ⟨hq, rfl⟩ := walk_query_ok.mp h
    exact ⟨a, hq, h'⟩
  · rintro ⟨a, h, h'⟩
    exact ⟨a, f, walk_query_ok.mpr ⟨h, rfl⟩, h'⟩

theorem walk_modify_ok {g : τ → τ} {u : PUnit} :
    ((modify g : StateT τ (ExceptT ε (Except σ)) PUnit).run f).run = .ok (.ok (u, f')) ↔ f' = g f :=
  ⟨fun h => by cases h; rfl, fun h => by rw [h]; rfl⟩

end

/-! ## Passes -/

section
variable {a : α}

theorem ofBuild_ok {m : Build α} : (Pass.ofBuild m).run d = .ok (.ok a, d') ↔ m.run d = .ok (a, d') := by
  change (m.run d >>= fun p => pure (Except.ok p.1, p.2)) = _ ↔ _
  rw [bind_ok]
  constructor
  · rintro ⟨⟨b, e⟩, h, h'⟩; cases h'; exact h
  · intro h; exact ⟨_, h, rfl⟩

theorem look_ok {q : Design → Except Fault α} : (Pass.look q).run d = .ok (.ok a, d') ↔ q d = .ok a ∧ d' = d := by
  refine ofBuild_ok.trans ?_
  change (q d >>= fun a => pure (a, d)) = _ ↔ _
  rw [bind_ok]
  constructor
  · rintro ⟨r, hr, h⟩; cases h; exact ⟨hr, rfl⟩
  · rintro ⟨h, rfl⟩; exact ⟨_, h, rfl⟩

theorem look_bind_ok {q : Design → Except Fault α} {f : α → Pass β} {b : β} :
    (Pass.look q >>= f).run d = .ok (.ok b, d') ↔ ∃ a, q d = .ok a ∧ (f a).run d = .ok (.ok b, d') := by
  rw [step_bind_ok]
  constructor
  · rintro ⟨a, e, h, h'⟩
    obtain ⟨hq, rfl⟩ := look_ok.mp h
    exact ⟨a, hq, h'⟩
  · rintro ⟨a, hq, h⟩
    exact ⟨a, d, look_ok.mpr ⟨hq, rfl⟩, h⟩

theorem look_bind_run {q : Design → Except Fault α} {f : α → Pass β} {r : Except Error β} :
    (Pass.look q >>= f).run d = .ok (r, d') ↔ ∃ a, q d = .ok a ∧ (f a).run d = .ok (r, d') := by
  change ((q d >>= fun a => pure (a, d)) >>= fun p => pure (Except.ok p.1, p.2)) >>=
    (fun p => ExceptT.bindCont f p.1 p.2) = _ ↔ _
  cases q d with
  | error e => exact ⟨nofun, nofun⟩
  | ok a => exact ⟨fun h => ⟨a, rfl, h⟩, fun ⟨_, same, h⟩ => Except.ok.inj same ▸ h⟩

theorem passQuery_ok {q : Design → Query α} :
    (Pass.query q).run d = .ok (.ok a, d') ↔ (q d).run = .ok (.ok a) ∧ d' = d := by
  change ((q d).run >>= fun r => pure (r, d)) = _ ↔ _
  rw [bind_ok]
  constructor
  · rintro ⟨r, hr, h⟩; cases h; exact ⟨hr, rfl⟩
  · rintro ⟨h, rfl⟩; exact ⟨_, h, rfl⟩

theorem passQuery_bind_ok {q : Design → Query α} {f : α → Pass β} {b : β} :
    (Pass.query q >>= f).run d = .ok (.ok b, d') ↔
      ∃ a, (q d).run = .ok (.ok a) ∧ (f a).run d = .ok (.ok b, d') := by
  rw [step_bind_ok]
  constructor
  · rintro ⟨a, e, h, h'⟩
    obtain ⟨hq, rfl⟩ := passQuery_ok.mp h
    exact ⟨a, hq, h'⟩
  · rintro ⟨a, hq, h⟩
    exact ⟨a, d, passQuery_ok.mpr ⟨hq, rfl⟩, h⟩

theorem passQuery_bind_run {q : Design → Query α} {f : α → Pass β} {r : Except Error β} :
    (Pass.query q >>= f).run d = .ok (r, d') ↔ (∃ e, (q d).run = .ok (.error e) ∧ r = .error e ∧ d' = d) ∨
      ∃ a, (q d).run = .ok (.ok a) ∧ (f a).run d = .ok (r, d') := by
  rw [step_bind_run]
  constructor
  · rintro (⟨e, h, hr⟩ | ⟨a, e, h, h'⟩)
    · obtain ⟨b, hb, h⟩ := bind_ok.mp (show ((q d).run >>= fun r => pure (r, d)) = _ from h)
      cases h
      exact .inl ⟨e, hb, hr, rfl⟩
    · obtain ⟨hq, rfl⟩ := passQuery_ok.mp h
      exact .inr ⟨a, hq, h'⟩
  · rintro (⟨e, hq, rfl, rfl⟩ | ⟨a, hq, h⟩)
    · exact .inl ⟨e, bind_ok.mpr ⟨_, hq, rfl⟩, rfl⟩
    · exact .inr ⟨a, d, passQuery_ok.mpr ⟨hq, rfl⟩, h⟩

theorem within_ok {part : String} {p : Pass α} :
    (Pass.within part p).run d = .ok (.ok a, d') ↔ p.run d = .ok (.ok a, d') := by
  constructor
  · intro h
    obtain ⟨⟨e | b, e'⟩, hp, h⟩ := bind_ok.mp h
    · cases h
    · cases h; exact hp
  · intro h
    exact bind_ok.mpr ⟨_, h, rfl⟩

end

theorem reject_ok {a : α} : (d.reject op reason : Query α).run = .ok (.ok a) ↔ False := by
  refine ⟨fun h => ?_, False.elim⟩
  obtain ⟨e, -, h⟩ := query_bind_ok.mp h
  cases h

theorem guard_ok [Decidable c] {k : PUnit → Pass β} {b : β}
    (h : (if c then Pass.reject op reason >>= k else k ⟨⟩).run d = .ok (.ok b, d')) :
    ¬ c ∧ (k ⟨⟩).run d = .ok (.ok b, d') := by
  split at h
  next =>
    obtain ⟨_, _, hrej, -⟩ := step_bind_ok.mp h
    exact (reject_ok.mp (passQuery_ok.mp hrej).1).elim
  next hc => exact ⟨hc, h⟩

theorem reject_run {e : Error} (h : (Pass.reject op reason : Pass β).run d = .ok (.error e, d')) :
    d.malformed op reason = .ok e ∧ d' = d := by
  obtain ⟨r, rejected, h⟩ := bind_ok.mp (show ((d.reject op reason).run >>= fun r => pure (r, d)) = _ from h)
  cases h
  refine ⟨?_, rfl⟩
  cases he : d.malformed op reason with
  | error f =>
    unfold Design.reject at rejected
    rw [he] at rejected
    cases rejected
  | ok e =>
    unfold Design.reject at rejected
    rw [he] at rejected
    cases rejected
    rfl

theorem guard_run [Decidable c] {k : PUnit → Pass β} {r : Except Error β}
    (h : (if c then Pass.reject op reason >>= k else k ⟨⟩).run d = .ok (r, d')) :
    (c ∧ d' = d ∧ ∃ e, r = .error e ∧ d.malformed op reason = .ok e) ∨ ¬ c ∧ (k ⟨⟩).run d = .ok (r, d') := by
  by_cases hc : c
  · rw [if_pos hc] at h
    rcases step_bind_run.mp h with ⟨e, failed, rfl⟩ | ⟨_, _, ran, -⟩
    · obtain ⟨he, rfl⟩ := reject_run failed
      exact .inl ⟨hc, rfl, e, rfl, he⟩
    · exact (reject_ok.mp (passQuery_ok.mp ran).1).elim
  · rw [if_neg hc] at h
    exact .inr ⟨hc, h⟩

theorem discard_ok {p : Pass α} (h : (discard p).run d = .ok (.ok (), d')) : ∃ a, p.run d = .ok (.ok a, d') := by
  obtain ⟨a, e, ha, h⟩ := step_bind_ok.mp h
  cases h
  exact ⟨a, ha⟩

theorem require_ok {f : Fault} {x : Option α} {a : α} : require f x = .ok a ↔ x = some a := by
  cases x with
  | none => exact ⟨nofun, nofun⟩
  | some b => exact ⟨fun h => by cases h; rfl, fun h => by cases h; rfl⟩

end

end Datapath
