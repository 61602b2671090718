import Datapath.Proofs.Gathering
import Datapath.Proofs.Sturdy

/-!
# Regions that can be described

A block that owns all accessors of a resource is among the owners that they share, so a region has a
context. Its starts are grouped by the children of the context that they lie in, and its end exists if
the last accessors lie in one child. A walk through a sturdy task finds all accessors.
-/

namespace Datapath

open List

variable {d : Design} {E : Prop}

namespace Region

/-! ## Contexts -/

theorem ownersFrom_unique (h : d.ownersFrom n x = .ok os) (h' : d.ownersFrom k x = .ok os') : os = os' := by
  induction n generalizing k x os os' with
  | zero => cases h
  | succ n ih =>
    cases k with
    | zero => cases h'
    | succ k =>
      unfold Design.ownersFrom at h h'
      split at h
      next top =>
        rw [if_pos top] at h'
        cases h
        cases h'
        rfl
      next top =>
        rw [if_neg top] at h'
        obtain ⟨o, ho, h⟩ := bind_ok.mp h
        obtain ⟨o', ho', h'⟩ := bind_ok.mp h'
        cases ho.symm.trans ho'
        obtain ⟨rest, hr, h⟩ := bind_ok.mp h
        obtain ⟨rest', hr', h'⟩ := bind_ok.mp h'
        cases h
        cases h'
        rw [ih hr hr']

theorem ownersFrom_lies (hm : d.op? m = some o) (h : Lies d.ops x m) (hos : d.ownersFrom n x = .ok os) :
    ∃ k below above, os = below ++ m :: above ∧ d.ownersFrom k o.owner = .ok above := by
  induction h using Relation.ReflTransGen.head_induction_on generalizing n os with
  | refl =>
    cases n with
    | zero => cases hos
    | succ n =>
      unfold Design.ownersFrom at hos
      rw [if_neg (by simpa using ne_absent hm), run_op hm, ok_bind] at hos
      obtain ⟨rest, hr, hos⟩ := bind_ok.mp hos
      cases hos
      exact ⟨n, [], rest, rfl, hr⟩
  | head step _ ih =>
    obtain ⟨q, hq, rfl⟩ := step
    cases n with
    | zero => cases hos
    | succ n =>
      unfold Design.ownersFrom at hos
      rw [if_neg (by simpa using ne_absent hq), run_op hq, ok_bind] at hos
      obtain ⟨rest, hr, hos⟩ := bind_ok.mp hos
      cases hos
      obtain ⟨k, below, above, rfl, ha⟩ := ih hr
      exact ⟨k, _ :: below, above, rfl, ha⟩

theorem commonPath_append (path xs ys : List OpId) :
    Design.commonPath (path ++ xs) (path ++ ys) = path ++ Design.commonPath xs ys := by
  induction path with
  | nil => rfl
  | cons x path ih => simp [Design.commonPath, ih]

theorem commonPaths_append {first : List OpId} (h : ∀ p ∈ first :: paths, path <+: p) :
    path <+: paths.foldl Design.commonPath first := by
  induction paths generalizing first with
  | nil => exact h first mem_cons_self
  | cons p paths ih =>
    refine ih (forall_mem_cons.mpr ⟨?_, fun q hq => h q (mem_cons_of_mem _ (mem_cons_of_mem _ hq))⟩)
    obtain ⟨xs, rfl⟩ := h first mem_cons_self
    obtain ⟨ys, rfl⟩ := h p (mem_cons_of_mem _ mem_cons_self)
    exact ⟨_, (commonPath_append path xs ys).symm⟩

theorem mem_sharedOwners (hm : d.op? m = some o) (ne : ops ≠ []) (owns : ∀ x ∈ ops, Beneath d.ops x m)
    (h : d.sharedOwners ops = .ok os) : m ∈ os := by
  obtain ⟨paths, hp, h⟩ := bind_ok.mp h
  obtain ⟨x, hx⟩ := exists_mem_of_ne_nil _ ne
  -- the way down to `m` is the start of all ways
  have up : ∀ y ∈ ops, ∀ q, (do return (← d.owners y).reverse) = Except.ok q → ∃ k above,
      d.ownersFrom k o.owner = .ok above ∧ (above.reverse ++ [m]) <+: q := by
    intro y hy q hq
    obtain ⟨own, ho, hq⟩ := bind_ok.mp hq
    cases hq
    obtain ⟨c, hc, ho⟩ := bind_ok.mp ho
    obtain ⟨c', step, lies⟩ := Relation.TransGen.head'_iff.mp (owns y hy)
    obtain ⟨q, hq, rfl⟩ := step
    cases (op_ok hc).symm.trans hq
    obtain ⟨k, below, above, rfl, ha⟩ := ownersFrom_lies hm lies ho
    exact ⟨k, above, ha, below.reverse, by simp⟩
  obtain ⟨q, hq, hxq⟩ := forall₂_left (mapM_pairs hp) x hx
  obtain ⟨k, above, ha, -⟩ := up x hx q hxq
  have all : ∀ p ∈ paths, (above.reverse ++ [m]) <+: p := by
    intro p hpm
    obtain ⟨y, hy, hyp⟩ := forall₂_right (mapM_pairs hp) p hpm
    obtain ⟨k', above', ha', way⟩ := up y hy p hyp
    rw [ownersFrom_unique ha ha']
    exact way
  split at h
  next => cases hq
  next =>
    cases h
    exact (commonPaths_append all).subset (by simp)

theorem regionContext_replies (hd : WellFormed d) (there : ∀ x ∈ ops, ∃ o, d.op? x = some o)
    (owned : E ∨ ops ≠ [] ∧ ∃ m b, d.op? m = some b ∧ b.kind = .block ∧ ∀ x ∈ ops, Beneath d.ops x m) :
    Replies E (d.regionContext ops) fun context =>
      (∃ o, d.op? context = some o ∧ o.kind = .block) ∧ ∀ x ∈ ops, Beneath d.ops x context := by
  have answer : Replies E (d.regionContext ops) fun _ => True := by
    cases ops with
    | nil => exact .inr ⟨owned.resolve_right fun h => h.1 rfl, _, rfl⟩
    | cons op rest =>
      have paths : ∃ ps, ((op :: rest).mapM fun x => return (← d.owners x).reverse) = Except.ok ps := by
        apply mapM_total
        intro x hx
        obtain ⟨o, ho⟩ := there x hx
        obtain ⟨os, hos, -⟩ := owners_total hd ho
        exact ⟨_, by rw [hos]; rfl⟩
      obtain ⟨ps, hps⟩ := paths
      have shared : ∃ os, d.sharedOwners (op :: rest) = .ok os := by
        unfold Design.sharedOwners
        rw [hps, ok_bind]
        split <;> exact ⟨_, rfl⟩
      obtain ⟨os, hos⟩ := shared
      refine .lift_bind hos ?_
      dsimp only
      split
      next => exact .pure trivial
      next none =>
        obtain ⟨o, ho⟩ := there op mem_cons_self
        refine reject_replies hd ho (owned.resolve_right fun ⟨ne, m, b, hm, kind, owns⟩ => ?_) _
        have mem : m ∈ os.filter fun o => (d.op? o).any (·.kind == .block) :=
          mem_filter.mpr ⟨mem_sharedOwners hm ne owns hos, by simp [hm, kind]⟩
        rw [getLast?_eq_none_iff.mp none] at mem
        cases mem
  exact answer.learn fun _ hc _ => regionContext_ok hc

/-! ## Points -/

theorem Beneath.there (h : Beneath d.ops x m) : ∃ o, d.op? x = some o := by
  obtain ⟨_, ⟨o, ho, -⟩, -⟩ := Relation.TransGen.head'_iff.mp h
  exact ⟨o, ho⟩

section
variable {context : OpId} {ops : List OpId} (hd : WellFormed d) (owns : ∀ x ∈ ops, Beneath d.ops x context)
include hd owns

theorem checkPoint_replies (known : d.Holds critical)
    (gathered : E ∨ ∃ c, Owned d.ops c context ∧ (critical = absent ∨ critical = c) ∧ ∀ x ∈ ops, Lies d.ops x c) :
    Replies E (d.checkPoint context critical ops) fun _ => True := by
  induction ops generalizing critical with
  | nil => exact .pure trivial
  | cons op ops ih =>
    obtain ⟨c, lies, owned⟩ := Relation.TransGen.tail'_iff.mp (owns op mem_cons_self)
    have rest : ∀ x ∈ ops, Beneath d.ops x context := fun x hx => owns x (mem_cons_of_mem _ hx)
    have there : ∃ o, d.op? c = some o := owned.imp fun _ => And.left
    have same : E ∨ (critical = absent ∨ critical = c) ∧ ∀ x ∈ ops, Lies d.ops x c := by
      refine gathered.imp_right fun ⟨k, hk, fits, all⟩ => ?_
      cases Lies.sibling hd.nesting owned hk lies (all op mem_cons_self)
      exact ⟨fits, fun x hx => all x (mem_cons_of_mem _ hx)⟩
    refine Replies.bind (Q := (· = c)) (.inl ⟨c, run_criticalContext hd.nesting owned lies, rfl⟩) fun k _ hk => ?_
    subst hk
    split
    next => exact ih rest (.inr there) (same.imp_right fun h => ⟨k, owned, .inr rfl, h.2⟩)
    next ne =>
      have ne : critical ≠ absent := by simpa using ne
      split
      next e =>
        cases beq_iff_eq.mp e
        exact ih rest (.inr there) (same.imp_right fun h => ⟨critical, owned, .inr rfl, h.2⟩)
      next e =>
        have differ : critical ≠ k := by simpa using e
        have allowed : E := same.resolve_right fun h => h.1.elim ne differ
        obtain ⟨l, hl⟩ := label_total known
        obtain ⟨l', hl'⟩ := label_total (.inr there)
        obtain ⟨p, hp⟩ := (owns op mem_cons_self).there
        exact .lift_bind hl (.lift_bind hl' (reject_replies hd hp allowed _))

theorem regionPoint_replies (gathered : E ∨ ∃ c, Owned d.ops c context ∧ ∀ x ∈ ops, Lies d.ops x c) :
    Replies E (d.regionPoint ops context) fun _ => True := by
  refine Replies.bind (Q := fun _ => True) ?_ fun _ _ _ => .pure trivial
  refine checkPoint_replies hd (fun x hx => owns x (mem_ascending.mp hx)) (.inl rfl) ?_
  exact gathered.imp_right fun ⟨c, owned, all⟩ => ⟨c, owned, .inl rfl, fun x hx => all x (mem_ascending.mp hx)⟩

theorem groupByCritical_replies (grouped : ∀ g ∈ groups, Owned d.ops g.1 context ∧ ∀ x ∈ g.2, Lies d.ops x g.1) :
    Replies E (d.groupByCritical context groups ops) fun found => ∀ g ∈ found, Owned d.ops g.1 context ∧ ∀ x ∈ g.2,
    Lies d.ops x g.1 := by
  induction ops generalizing groups with
  | nil => exact .pure grouped
  | cons op ops ih =>
    obtain ⟨c, lies, owned⟩ := Relation.TransGen.tail'_iff.mp (owns op mem_cons_self)
    refine Replies.bind (Q := (· = c)) (.inl ⟨c, run_criticalContext hd.nesting owned lies, rfl⟩) fun k _ hk => ?_
    subst hk
    refine ih (fun x hx => owns x (mem_cons_of_mem _ hx)) fun g hg => ?_
    split at hg
    next =>
      obtain ⟨h, hh, rfl⟩ := mem_map.mp hg
      split
      next e =>
        have same : h.1 = k := by simpa using e
        refine ⟨owned, fun x hx => ?_⟩
        rcases mem_append.mp hx with hx | hx
        · exact same ▸ (grouped h hh).2 x hx
        · rw [mem_singleton.mp hx]
          exact lies
      next => exact grouped h hh
    next =>
      rcases mem_append.mp hg with hg | hg
      · exact grouped g hg
      · rw [mem_singleton.mp hg]
        refine ⟨owned, fun x hx => ?_⟩
        rw [mem_singleton.mp hx]
        exact lies

end

theorem describe_replies {start finish : List OpId} (hd : WellFormed d)
    (there : ∀ x ∈ start ++ finish, ∃ o, d.op? x = some o)
    (fair : E ∨ start ++ finish ≠ [] ∧ (∃ m b, d.op? m = some b ∧ b.kind = .block ∧
      ∀ x ∈ start ++ finish, Beneath d.ops x m) ∧ ∀ ⦃block b⦄, d.op? block = some b → b.kind = .block →
      (∀ x ∈ start ++ finish, Beneath d.ops x block) → ∃ c, Owned d.ops c block ∧ ∀ x ∈ finish, Lies d.ops x c) :
    Replies E (describe d r start finish) fun _ => True := by
  refine (regionContext_replies hd there (fair.imp_right fun h => ⟨h.1, h.2.1⟩)).bind fun context _ ⟨⟨b, hb, block⟩,
    owns⟩ => ?_
  have first : ∀ x ∈ ascending start, Beneath d.ops x context := fun x hx =>
    owns x (mem_append_left _ (mem_ascending.mp hx))
  have none : ∀ g ∈ ([] : List (OpId × List OpId)), Owned d.ops g.1 context ∧ ∀ x ∈ g.2, Lies d.ops x g.1 := nofun
  refine (groupByCritical_replies hd first none).bind fun groups _ grouped => ?_
  have starts : ∃ ss, (groups.mapM fun g : OpId × List OpId => (do
      return { point := ← d.regionPoint g.2 context } : Query StartPoint)).run = .ok (.ok ss) := by
    apply query_mapM_total
    intro g hg
    obtain ⟨owned, all⟩ := grouped g hg
    have inside : ∀ x ∈ g.2, Beneath d.ops x context := fun x hx => .tail' (all x hx) owned
    obtain ⟨p, hp, -⟩ | ⟨no, -⟩ := regionPoint_replies (E := False) hd inside (.inr ⟨g.1, owned, all⟩)
    · exact ⟨_, query_bind_ok.mpr ⟨p, hp, rfl⟩⟩
    · exact no.elim
  obtain ⟨ss, hss⟩ := starts
  refine Replies.bind (Q := fun _ => True) (.inl ⟨ss, hss, trivial⟩) fun _ _ _ => ?_
  refine (regionPoint_replies hd (fun x hx => owns x (mem_append_right _ hx)) ?_).bind fun _ _ _ => .pure trivial
  exact fair.imp_right fun h => h.2.2 hb block owns

/-! ## The walk -/

section
variable {visit : Visit} (hd : Sturdy E d)
include hd

theorem children_returns (hm : d.op? m = some o) (hv : ∀ c ∈ o.children, Returns E (visit c)) :
    Returns E (children d visit m) := by
  refine Returns.query_bind (hd.order hm) fun ids order _ => ?_
  obtain ⟨o', hm', perm⟩ := order_ok order
  cases hm.symm.trans hm'
  exact (returns_closed E).forM_of_mem fun c hc => hv c (perm.mem_iff.mp hc)

theorem guard_returns {o : Operation} {op : OpId} {c : Prop} [Decidable c] {reason : Reason} {k : PUnit → Walk Unit}
    (ho : d.op? op = some o) (allowed : c → E) (hk : Returns E (k ⟨⟩)) :
    Returns E (if c then (liftM (d.reject op reason : Query PUnit) : Walk PUnit) >>= k else k ⟨⟩) := by
  split
  next hc => exact .query_bind (reject_replies hd.wf ho (allowed hc) reason) fun _ _ (no : False) => no.elim
  next => exact hk

theorem access_returns (ho : d.op? op = some o) (ha : o.kind.isAccess = true) (settles : Bool) :
    Returns E (access d o settles) := by
  unfold access
  rw [hd.wf.nesting.ids op o ho]
  refine guard_returns hd ho (fun gone => hd.orderly.resolve_right fun orderly => ?_) ?_
  · exact (orderly.tidy.whole ho).access ha (by simpa using gone)
  split
  · exact (returns_closed E).bind (.modify _) fun _ => .modify _
  · exact .modify _

theorem branch_returns (reached : Reached d op) (ho : d.op? op = some o) (hk : o.kind = .branch)
    (hv : ∀ c ∈ o.children, Returns E (visit c))
    (hv' : ∀ c ∈ o.children, ∀ k, d.op? c = some k → ∀ a ∈ k.children, Returns E (visit a)) :
    Returns E (branch d visit o) := by
  have forks := hd.forks reached ho hk
  obtain ⟨-, -, mem⟩ := hd.wf.placed_child ho forks.decision
  obtain ⟨t, ht, tmem⟩ := hd.wf.placed_child ho forks.trueSide
  obtain ⟨f, hf, fmem⟩ := hd.wf.placed_child ho forks.falseSide
  refine (returns_closed E).bind (hv _ mem) fun _ => ?_
  refine .query_bind (children_returns hd ht (hv' _ tmem t ht) {}) fun one _ _ => ?_
  exact .query_bind (children_returns hd hf (hv' _ fmem f hf) {}) fun other _ _ => .modify _

theorem taskCall_returns (ho : d.op? op = some o) (hk : o.kind = .taskCall)
    (hv : ∀ b, d.op? o.body = some b → ∀ c ∈ b.children, Returns E (visit c)) : Returns E (taskCall d visit o) := by
  unfold taskCall
  rw [hd.wf.nesting.ids op o ho]
  by_cases gone : o.body = absent
  · rw [if_pos (by simpa using gone)]
    have allowed : E := hd.orderly.resolve_right fun orderly => by
      obtain ⟨k, r, place, -⟩ := (orderly.tidy.whole ho).call hk
      rw [gone, Design.place?] at place
      cases place
    exact .query_bind (reject_replies hd.wf ho allowed _) fun _ _ (no : False) => no.elim
  · rw [if_neg (by simpa using gone)]
    obtain ⟨_, place, -⟩ := hd.shaped.calls (view_of Operation.stem ho) hk gone
    obtain ⟨b, hb, -⟩ := view_some.mp place
    refine .query_bind (children_returns hd hb (hv b hb) {}) fun called _ _ => ?_
    exact (returns_closed E).bind (.modify _) fun _ => .modify _

end

theorem visit_returns (hd : Sturdy E d) (n : Nat) :
    ∀ {op o}, Reached d op → d.op? op = some o → d.room op < n → Returns E (visit d n op) := by
  induction n with
  | zero => exact fun _ _ h => absurd h (Nat.not_lt_zero _)
  | succ n ih =>
    intro op o reached ho room
    have down : ∀ {c}, Relation.TransGen (Enters d) op c → Returns E (visit d n c) := by
      intro c path
      obtain ⟨q, hq⟩ := enters_op hd.wf path
      have := enters_room_lt hd.descends path
      exact ih (reached.enters path) hq (by omega)
    have own : ∀ c ∈ o.children, Returns E (visit d n c) := fun c hc => down (.single ⟨o, ho, .inl hc⟩)
    refine Returns.lift_bind (run_op ho) ?_
    split
    next hk => exact access_returns hd ho (by rw [hk]; rfl) _
    next hk =>
      refine branch_returns hd reached ho hk own fun c hc k hkc a ha => ?_
      exact down (.tail (.single ⟨o, ho, .inl hc⟩) ⟨k, hkc, .inl ha⟩)
    next hk => exact taskCall_returns hd ho hk fun b hb c hc => down (.single ⟨o, ho, .inr ⟨hk, b, hb, hc⟩⟩)
    next =>
      split
      next ha => exact access_returns hd ho ha _
      next =>
        split
        next => exact children_returns hd ho own
        next => exact (returns_closed E).pure _

/-! ## The regions of a task -/

theorem sameOps_of_perm (h : a.Perm b) : sameOps a b = true := by
  unfold sameOps
  simp only [Bool.and_eq_true, beq_iff_eq, all_eq_true, contains_iff_mem]
  exact ⟨h.length_eq, fun x hx => h.mem_iff.mp hx⟩

def Adding (d e : Design) : Prop := WellFormed e ∧ ∃ regions, e = { d with regions }

theorem create_settles {start finish : List OpId} (h : ∀ e, Adding d e → Replies E (describe e r start finish)
  fun _ => True) :
    Settles E (Adding d) (create r start finish) := by
  intro e he
  refine Concludes.learn (Q := fun _ e' => ∃ regions, e' = { e with regions }) ?_ fun p e' ran same => ?_
  · exact .query_bind (h e he) fun p _ _ => .inl ⟨p, _, rfl, _, rfl⟩
  · obtain ⟨wf, regions, rfl⟩ := he
    obtain ⟨regions', rfl⟩ := same
    exact ⟨(keeps_create ..).kept wf ran, regions', rfl⟩

structure Surveyed (E : Prop) (d : Design) (m : OpId) (log : Log) : Prop where
  fair : ∀ {r a}, log.find? r = some a → Fair d m a
  /-- What accesses resources in a task lies in one block. -/
  housed : E ∨ ∃ block b, d.op? block = some b ∧ b.kind = .block ∧
    ∀ x, Accessor d x → Beneath d.ops x m → Beneath d.ops x block

theorem identifyOne_settles (h : Surveyed E d m log) (r : ResId) : Settles E (Adding d) (identifyOne log r) := by
  unfold identifyOne
  cases hr : log.find? r with
  | none => exact (settles_closed E _).pure _
  | some a =>
    have fair := h.fair hr
    dsimp only
    split
    next => exact (settles_closed E _).pure _
    next differ =>
      refine (settles_closed E _).bind (create_settles ?_) fun p => ?_
      · rintro e ⟨wf, regions, rfl⟩
        refine describe_replies wf (fun x hx => (fair.accessors x hx).1.imp fun _ => And.left)
          (h.housed.imp_right ?_)
        rintro ⟨block, b, hb, kind, owns⟩
        refine ⟨by simp [fair.first], ⟨block, b, hb, kind, fun x hx => ?_⟩, ?_⟩
        · obtain ⟨accessor, inside⟩ := fair.accessors x hx
          exact owns x accessor inside
        · exact fair.gathered.resolve_left fun same => differ (sameOps_of_perm same)
      · rintro e ⟨wf, regions, rfl⟩
        obtain ⟨q, hq⟩ := fair.named
        rw [Log.find?_resource hr] at hq
        exact .look_bind (require_ok.mpr hq) (.pure ⟨wf, regions, rfl⟩)

theorem Kind.fits_call {k : Kind} (h : k.fits (some .call) = true) : k = .inBuf ∨ k = .outBuf ∨ k = .block := by
  cases k <;> simp_all [Kind.fits, Kind.isAccess, Kind.isWrite]

theorem Kind.not_fits_buffer (k : Kind) : k.fits (some .inBuf) = false ∧ k.fits (some .outBuf) = false := by
  cases k <;> exact ⟨rfl, rfl⟩

theorem Orderly.housed (hd : Orderly d) (ht : task ∈ d.tasks) : ∃ block b, d.op? block = some b ∧ b.kind = .block ∧
    ∀ x, Accessor d x → Beneath d.ops x task.call → Beneath d.ops x block := by
  obtain ⟨n, hn, e⟩ := Array.mem_iff_getElem.mp ht
  have hv : view d.tasks Task.call n = some task.call := by
    simp [view, at?, hn, e]
  obtain ⟨s, hs, called⟩ := hd.shaped.tasks hv
  obtain ⟨call, hcall, rfl⟩ := view_some.mp hs
  have here : (d.place? task.call).map Prod.fst = some .call := (kind_of_op hcall).trans (congrArg some called.kind)
  obtain ⟨b, hb, kind, own⟩ := op_of_place called.body
  have third := (hd.tidy.lodged called.body).body rfl here
  refine ⟨_, b, hb, kind, ?_⟩
  rintro x ⟨o, ho, access⟩ inside
  obtain ⟨c, lies, q, hq, rest⟩ := Relation.TransGen.tail'_iff.mp inside
  have lodged := hd.tidy.lodged (place_of_op hq)
  rw [rest] at lodged
  have fits := Kind.fits_call (here ▸ lodged.fits)
  rcases Relation.reflTransGen_iff_eq_or_transGen.mp lies with same | deeper
  · rw [same] at hq
    cases ho.symm.trans hq
    rcases fits with k | k | k <;> simp [k, Kind.isAccess, Kind.isRead, Kind.isWrite] at access
  · obtain ⟨c', -, q', hq', own'⟩ := Relation.TransGen.tail'_iff.mp deeper
    have holds := (hd.tidy.lodged (place_of_op hq')).fits
    rw [own', kind_of_op hq] at holds
    have block : q.kind = .block := by
      obtain ⟨front, back⟩ := Kind.not_fits_buffer q'.kind
      rcases fits with k | k | k
      · simp [k, front] at holds
      · simp [k, back] at holds
      · exact k
    rw [show call.stem.body = c from third.trans (lodged.body block here).symm]
    exact deeper

theorem identify_concludes (hd : Sturdy E d) (ht : task ∈ d.tasks) :
    Concludes E (identify task) d fun _ _ => True := by
  obtain ⟨call, hcall, -⟩ := task_call hd.shaped ht
  have walk : Returns E (children d (visit d (d.ops.size + 1)) task.call) := by
    refine children_returns hd hcall fun c hc => ?_
    obtain ⟨q, hq, -⟩ := hd.wf.child hcall hc
    exact visit_returns hd _ ⟨task, ht, .single ⟨call, hcall, .inl hc⟩⟩ hq (room_le d c)
  refine .query_bind (walk {}) fun ⟨⟨⟩, log⟩ hlog _ => ?_
  have surveyed : Surveyed E d task.call log :=
    ⟨children_fair hd.wf hd.shaped hlog, hd.orderly.imp_right fun orderly => Orderly.housed orderly ht⟩
  have all : Settles E (Adding d) (log.resources.mapM (identifyOne log)) :=
    (settles_closed E _).mapM_of_mem fun r _ => identifyOne_settles surveyed r
  exact (all ⟨hd.wf, d.regions, rfl⟩).bind fun _ _ _ _ => .pure trivial

end Region

end Datapath
