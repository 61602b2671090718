import Datapath.Proofs.Totality
import Datapath.Proofs.TimingTrace

/-!
# Answers of a timing

Timing a module comes to an end: owners are older than what they own. It is not rejected where the
children of every module have an order and whatever drives one of them is offered by a driver among its
siblings, which the order puts before it.
-/

namespace Datapath

open List

variable {d : Design} {E : Prop}

theorem reject_replies {α : Type} {Q : α → Prop} (hd : WellFormed d)
    (ho : d.op? i = some o) (allowed : E) (reason : Reason) : Replies E (d.reject i reason : Query α) Q := by
  obtain ⟨s, hs, -⟩ := reject_total (α := α) hd ho reason
  exact .inr ⟨allowed, _, hs⟩

namespace Timing

/-! ## One operation -/

theorem inputOf_total {t : Timing} (outer : Latency) (timed : ∀ v ∈ forwardDeps d o, v.source ∈ t.reached) :
    ∃ l, (t.inputOf d o outer).run = .ok (.ok l) := by
  have replies : Replies False (t.inputOf d o outer) fun _ => True := by
    refine (replies_closed _).bind ((replies_closed _).mapM_of_mem fun v hv => ?_) fun _ => .pure trivial
    obtain ⟨l, hl⟩ := lookup_of_mem_keys (timed v hv)
    rw [show t.bus? v.source = some l from hl]
    exact .pure trivial
  obtain ⟨l, hl, -⟩ | ⟨⟨⟩, -⟩ := replies
  exact ⟨l, hl⟩

theorem inputOf_replies {t : Timing} (hd : WellFormed d) (ho : d.op? c = some o) (outer : Latency)
    (timed : E ∨ ∀ v ∈ forwardDeps d o, v.source ∈ t.reached) : Replies E (t.inputOf d o outer) fun _ => True := by
  rcases timed with allowed | timed
  · refine (replies_closed E).bind ((replies_closed E).mapM_of_mem fun v hv => ?_) fun _ => .pure trivial
    split
    · exact .pure trivial
    · obtain ⟨e, -, hv⟩ := mem_flatMap.mp hv
      obtain ⟨i, -, hi⟩ := mem_filterMap.mp hv
      obtain ⟨b, hb, -⟩ := hd.readers.held hi rfl
      refine .lift_bind (require_ok.mpr hb) ?_
      rw [hd.nesting.ids c o ho]
      exact reject_replies hd ho allowed _
  · obtain ⟨l, hl⟩ := inputOf_total outer timed
    exact .inl ⟨l, hl, trivial⟩

def Reaches (t t' : Timing) : Prop := ∀ b ∈ t.reached, b ∈ t'.reached

def Offers (d : Design) (s : OpId) (b : BusId) : Prop :=
  ∃ o x, d.op? s = some o ∧ x ∈ d.exitsOf o ∧ x.tag.kind ≠ .sideband ∧ b ∈ x.done :: x.buses

theorem fromQuery_concludes {α : Type} {q : Query α} {Q : α → Prop} (h : Replies E q Q) :
    Concludes E (fromQuery q) t fun a t' => Q a ∧ t' = t := by
  rcases h with ⟨a, ha, hQ⟩ | ⟨allowed, e, he⟩
  · exact .inl ⟨a, t, fromQuery_ok.mpr ⟨ha, rfl⟩, hQ, rfl⟩
  · exact .inr ⟨allowed, e, t, bind_ok.mpr ⟨_, he, rfl⟩⟩

theorem timeOne_concludes (hd : WellFormed d) (outer : Latency) (ho : d.op? c = some o)
    (timed : E ∨ ∀ v ∈ forwardDeps d o, v.source ∈ t.reached)
    (deep : o.kind.isInlineModule = true → ∀ outer t, Concludes E (inside d n c outer) t fun _ t' => Reaches t t') :
    Concludes E (timeOne d (inside d n) outer c) t fun _ t' => Reaches t t' ∧ ∀ b, Offers d c b →
      b ∈ t'.reached := by
  refine .lift_bind (run_op ho) (.get_bind (.bind (fromQuery_concludes (inputOf_replies hd ho outer timed)) ?_))
  rintro input t - ⟨-, rfl⟩
  have leave : ∀ {u}, Reaches t u →
    Concludes E (modify fun t => { t with buses := busesOf d o input ++ t.buses } : Step PUnit) u
      fun _ t' => Reaches t t' ∧ ∀ b, Offers d c b → b ∈ t'.reached := by
    intro u keeps
    refine .modify ⟨fun b hb => ?_, fun b hb => ?_⟩
    · simp only [reached, map_append, mem_append]
      exact .inr (keeps b hb)
    · obtain ⟨o', x, ho', hx, flow, hb⟩ := hb
      cases ho.symm.trans ho'
      exact mem_map_of_mem (mem_append_left _ (mem_busesOf hx flow hb))
  refine .bind (Q := fun _ u => Reaches t u) (.modify fun _ hb => hb) fun _ u _ started => ?_
  split
  next hi => exact (deep hi _ _).bind fun _ v _ keeps => leave fun b hb => keeps b (started b hb)
  next => exact leave started

/-! ## A module -/

def Supplied (d : Design) (m : OpId) : Prop :=
  ∀ ⦃c o v⦄, d.op? c = some o → o.owner = m → v ∈ forwardDeps d o → ∃ s ∈ d.drivers m c, Offers d s v.source

theorem timeAll_concludes (hd : WellFormed d)
    (hm : d.op? m = some o) (order : (d.order m).run = .ok (.ok (before ++ rest))) (supplied : E ∨ Supplied d m)
    (deep : ∀ c ∈ o.children, ∀ q, d.op? c = some q → q.kind.isInlineModule = true →
      ∀ outer t, Concludes E (inside d n c outer) t fun _ t' => Reaches t t')
    (timed : ∀ c ∈ before, ∀ b, Offers d c b → b ∈ t.reached) :
    Concludes E (rest.forM (timeOne d (inside d n) outer)) t fun _ t' => Reaches t t' := by
  induction rest generalizing before t with
  | nil => exact .pure fun b hb => hb
  | cons c rest ih =>
    obtain ⟨_, hm', perm⟩ := order_ok order
    cases hm.symm.trans hm'
    have hc : c ∈ o.children := perm.mem_iff.mp (mem_append_right _ mem_cons_self)
    obtain ⟨q, hq, own⟩ := hd.child hm hc
    have ready : E ∨ ∀ v ∈ forwardDeps d q, v.source ∈ t.reached := by
      refine supplied.imp_right fun supplied v hv => ?_
      obtain ⟨s, hs, offers⟩ := supplied hq own hv
      exact timed s (order_after order s hs) _ offers
    refine (timeOne_concludes hd outer hq ready (deep c hc q hq)).bind fun _ u _ ⟨keeps, here⟩ => ?_
    have next : (d.order m).run = .ok (.ok ((before ++ [c]) ++ rest)) := by simpa using order
    have timed' : ∀ k ∈ before ++ [c], ∀ b, Offers d k b → b ∈ u.reached := by
      intro k hk b hb
      rcases mem_append.mp hk with hk | hk
      · exact keeps b (timed k hk b hb)
      · cases mem_singleton.mp hk
        exact here b hb
    exact (ih next timed').learn fun _ t' _ keeps' b hb => keeps' b (keeps b hb)

structure Passable (E : Prop) (d : Design) (P : OpId → Prop) : Prop where
  order : ∀ {m o}, P m → d.op? m = some o → Replies E (d.order m) fun _ => True
  supplied : ∀ {m}, P m → E ∨ Supplied d m
  inner : ∀ {m o c q}, P m → d.op? m = some o → c ∈ o.children → d.op? c = some q → q.kind.isInlineModule = true →
    P c

theorem Passable.inside (hd : WellFormed d) (h : Passable E d P) (n : Nat) : ∀ {m o}, P m →
    d.op? m = some o → (d.ops.size : Int) ≤ m + n → ∀ outer t, Concludes E (inside d n m outer) t
        fun _ t' => Reaches t t' := by
  induction n with
  | zero =>
    intro m o _ hm room
    have := (at?_lt hm).2
    omega
  | succ n ih =>
    intro m o pm hm room outer t
    refine .bind (fromQuery_concludes (h.order pm hm)) ?_
    rintro ids _ ran ⟨-, rfl⟩
    have order : (d.order m).run = .ok (.ok ([] ++ ids)) := (fromQuery_ok.mp ran).1
    refine timeAll_concludes hd hm order (h.supplied pm) (fun c hc q hq inline => ?_) nofun
    obtain ⟨q', hq', own⟩ := hd.child hm hc
    have younger := Int.add_one_le_of_lt (own ▸ hd.nesting.older hq')
    exact ih (h.inner pm hm hc hq inline) hq (by omega)

theorem Passable.compute (hd : WellFormed d) (h : Passable E d P) (pm : P m) (hm : d.op? m = some o)
    (base : Latency) (t : Timing) : Concludes E (compute d m base) t fun _ _ => True := by
  refine .bind (Q := fun _ _ => True) (.modify trivial) fun _ u _ _ => .get_bind ?_
  have := (at?_lt hm).1
  exact (h.inside hd _ pm hm (by omega) _ u).learn fun _ _ _ _ => trivial

end Timing

end Datapath
