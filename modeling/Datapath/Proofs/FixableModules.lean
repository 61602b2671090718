import Datapath.Proofs.OwnerChains
import Datapath.Proofs.RegionWalk
import Datapath.Proofs.Resolution

/-!
# The modules that a resolution reaches

A conflict comes with the modules around its accesses. An access is delayed by a dependency between
operations of its owner, so the modules that are announced before a resolution are those around the
accesses that it delays, and the dependencies that it adds lie right in them.
-/

namespace Datapath.Loop

open List

open Region (Owned Lies Beneath)

section
variable {d : Design}

section
variable (hn : Nesting d.ops) (h : OwnerPath d block path c)
include hn h

theorem OwnerPath.mem_iff : m ∈ path ↔ Lies d.ops m block ∧ Beneath d.ops c m := by
  induction path generalizing block m with
  | nil => cases h.starts
  | cons p rest ih =>
    obtain rfl : p = block := Option.some.inj h.starts
    have top : ∀ {m}, Lies d.ops p m → Lies d.ops m p → m = p := fun up down =>
      Int.le_antisymm (Lies.le hn up) (Lies.le hn down)
    cases rest with
    | nil =>
      have owned : Owned d.ops c p := by simpa using h.owners
      rw [mem_singleton]
      constructor
      · rintro rfl
        exact ⟨.refl, .single owned⟩
      · rintro ⟨lies, beneath⟩
        obtain ⟨k, owned', up⟩ := Relation.TransGen.head'_iff.mp beneath
        exact top (owned'.unique owned ▸ up) lies
    | cons q rest =>
      obtain ⟨owned, chain⟩ := isChain_cons_cons.mp h.owners
      have ih : ∀ {m}, m ∈ q :: rest ↔ Lies d.ops m q ∧ Beneath d.ops c m := ih ⟨rfl, chain⟩
      have below : Beneath d.ops c q := (ih.mp mem_cons_self).2
      rw [mem_cons, ih]
      constructor
      · rintro (rfl | ⟨lies, beneath⟩)
        · exact ⟨.refl, below.tail owned⟩
        · exact ⟨lies.tail owned, beneath⟩
      · rintro ⟨lies, beneath⟩
        rcases Lies.total below.to_reflTransGen beneath.to_reflTransGen with up | down
        · rcases up.cases_head with rfl | ⟨k, owned', up⟩
          · exact .inr ⟨.refl, beneath⟩
          · exact .inl (top (owned'.unique owned ▸ up) lies)
        · exact .inr ⟨down, beneath⟩

theorem OwnerPath.owner_mem (ho : d.op? c = some o) : o.owner ∈ path := by
  have above := ((h.mem_iff hn).mp (mem_of_mem_head? h.starts)).2
  obtain ⟨k, owned, lies⟩ := Relation.TransGen.head'_iff.mp above
  rw [h.mem_iff hn, ← owned.unique ⟨o, ho, rfl⟩]
  exact ⟨lies, .single owned⟩

end

theorem mem_fixable (made : ConflictSet.make policy conflicts = .ok cs) :
    m ∈ cs.fixable ↔ policy ≠ .fixNone ∧ ∃ k ∈ conflicts, m ∈ cs.sidePath k := by
  obtain ⟨rfl, rfl, -⟩ := ConflictSet.make_conflicts made
  unfold ConflictSet.fixable ConflictSet.resolves
  split
  next asked => rw [mem_ascendingSet, mem_flatMap, and_iff_right (by simpa using asked)]
  next none => exact ⟨nofun, fun h => absurd h.1 (by simpa using none)⟩

theorem Delays.joins (hd : WellFormed d) (laid : Laid d) (hb : d.op? block = some b) (kind : b.kind = .block)
    (hn : Nested d block a) (ho : d.op? a = some o) (h : Delays d heads a v) :
    ∃ src dst s t, d.Joins v src dst ∧ d.op? src = some s ∧ s.owner = o.owner ∧ d.op? dst = some t ∧
      t.owner = o.owner := by
  have go {c q} (hq : d.op? c = some q) : ∃ p, d.port? q.go = some p ∧ p.owner = c := by
    obtain ⟨p, hp, own⟩ := hd.ports.holds hq q.go (mem_cons_self)
    exact ⟨p, hp, Option.some.inj own⟩
  cases heads with
  | true =>
    cases id h with
    | start ho' hm hg entry source target =>
      cases ho.symm.trans ho'
      have siblings := h.start_source laid ho hm (owner_isModule hd hb kind hn ho hm)
      obtain ⟨s, found, own⟩ := Option.map_eq_some_iff.mp siblings
      obtain ⟨src, carried, hs⟩ := Option.bind_eq_some_iff.mp found
      exact ⟨src, a, s, o, ⟨carried, target ▸ go ho⟩, hs, own, ho, rfl⟩
  | false =>
    cases id h with
    | finish ho' hm hx hy hq entry source target =>
      cases ho.symm.trans ho'
      obtain ⟨q', hq', -, own⟩ := hd.peer hm (mainExit?_mem hx) (ne_absent hq)
      cases hq.symm.trans hq'
      exact ⟨a, _, o, _, ⟨source ▸ busOwner?_done hd ho (mainExit?_mem hy), target ▸ go hq⟩, ho, rfl, hq, own⟩

end

/-- The modules that are announced for a resolution are, in ascending order, those around the accesses that it
delays, up to the block of the loop body. The resolution only adds dependencies between operations that these
modules own. -/
theorem resolution_stays_in_fixable {d : Design} (built : Built d) {body : OpId} {bd : Operation}
    {report : FlopReport} {policy : Policy} {cs : ConflictSet} (hbd : d.op? body = some bd)
    (ran : (analyze d body false).run = .ok (.ok report)) (made : ConflictSet.make policy report.all = .ok cs) :
    cs.fixable.Pairwise (· < ·) ∧ (∀ m, m ∈ cs.fixable ↔ (m = bd.body ∨ d.isOwnedBy m bd.body = .ok true) ∧
      ∃ a ∈ cs.delayed, d.isOwnedBy a m = .ok true) ∧ ∀ n err d', cs.resolve (identity d) d = .ok ((n, err), d') →
      ∃ new, d'.deps.toList = d.deps.toList ++ new ∧ ∀ v ∈ new, ∃ src dst s t, d'.Joins v src dst ∧
    d'.op? src = some s ∧ s.owner ∈ cs.fixable ∧ d'.op? dst = some t ∧ t.owner ∈ cs.fixable := by
  have hd := built.wellFormed
  have around : ∀ k ∈ report.all, (∃ b, d.op? bd.body = some b ∧ b.kind = .block) ∧
      OwnerPath d bd.body (cs.sidePath k) (cs.side k) := by
    intro k hk
    obtain ⟨bd', -, -, hbd', loop, there, -, -, -, heads, tails⟩ := analyze_sound hd ran hk
    cases hbd.symm.trans hbd'
    obtain ⟨b, hb, place⟩ := view_some.mp (built.laid.body hbd loop there)
    refine ⟨⟨b, hb, congrArg Prod.fst place⟩, ?_⟩
    unfold ConflictSet.sidePath ConflictSet.side
    split
    · exact heads
    · exact tails
  refine ⟨?_, fun m => ⟨fun hm => ?_, ?_⟩, fun n err d' resolved => ?_⟩
  · unfold ConflictSet.fixable
    split
    · exact ascendingSet_pairwise _
    · exact .nil
  · obtain ⟨asked, k, hk, hm⟩ := (mem_fixable made).mp hm
    obtain ⟨⟨b, hb, -⟩, path⟩ := around k hk
    obtain ⟨lies, beneath⟩ := (path.mem_iff hd.nesting).mp hm
    have there : 0 ≤ m := Int.le_trans (at?_lt hb).1 (Lies.le hd.nesting lies)
    have ne : m ≠ absent := by
      rintro rfl
      exact absurd there (by decide)
    exact ⟨(lies_iff hd hb).mp lies, _, (mem_delayed made).mpr ⟨asked, k, hk, rfl⟩, (isOwnedBy_iff hd).mpr ⟨ne,
      beneath⟩⟩
  · rintro ⟨inside, a, ha, owned⟩
    obtain ⟨asked, k, hk, rfl⟩ := (mem_delayed made).mp ha
    obtain ⟨⟨b, hb, -⟩, path⟩ := around k hk
    have mem := (path.mem_iff hd.nesting).mpr ⟨(lies_iff hd hb).mpr inside, ((isOwnedBy_iff hd).mp owned).2⟩
    exact (mem_fixable made).mpr ⟨asked, k, hk, mem⟩
  · obtain ⟨new, rfl, -, -, each, -⟩ := delayAll_attaches hd resolved
    have same := attachAll_same d new
    refine ⟨new, attachAll_deps d new, fun v hv => ?_⟩
    obtain ⟨a, ha, -, -, c, hc, delays⟩ := forall₂_right each _ hv
    obtain ⟨_, -, rfl⟩ := Option.map_eq_some_iff.mp hc
    have ha := mem_of_mem_take ha
    obtain ⟨hn, o, -, ho, -⟩ := delayed_contends hd hbd ran made ha
    obtain ⟨asked, k, hk, rfl⟩ := (mem_delayed made).mp ha
    obtain ⟨⟨b, hb, kind⟩, path⟩ := around k hk
    have mem : o.owner ∈ cs.fixable := (mem_fixable made).mpr ⟨asked, k, hk, path.owner_mem hd.nesting ho⟩
    obtain ⟨src, dst, s, t, joins, hs, own, ht, own'⟩ := delays.joins hd built.laid hb kind hn ho
    rw [same.op?]
    exact ⟨src, dst, s, t, same.joins joins, hs, own ▸ mem, ht, own' ▸ mem⟩

/-- To delay the inner read of a block, one dependency is added in one of the two modules around it. -/
theorem reread_reaches_modules_around : ∃ d report cs n err d' new, runAll rereadCommands { name := "x" } = some d ∧
    (analyze d 3 false).run = .ok (.ok report) ∧ ConflictSet.make .firstAlways report.all = .ok cs ∧
    cs.fixable = [11, 15] ∧ d.isOwnedBy 15 11 = .ok true ∧ cs.resolve (identity d) d = .ok ((n, err), d') ∧
    d'.deps.toList = d.deps.toList ++ [new] ∧ ∃ src dst s t, d'.Joins new src dst ∧ d'.op? src = some s ∧
      s.owner ∈ cs.fixable ∧ d'.op? dst = some t ∧ t.owner ∈ cs.fixable := by
  obtain ⟨d, run, bd, hbd, block, report, ran, cs, made, fixable, ⟨n, err⟩, d', resolved, size⟩ :
      ∃ d, runAll rereadCommands { name := "x" } = some d ∧ ∃ bd, d.op? 3 = some bd ∧ bd.body = 11 ∧
      ∃ report, (analyze d 3 false).run = .ok (.ok report) ∧ ∃ cs,
      ConflictSet.make .firstAlways report.all = .ok cs ∧ cs.fixable = [11, 15] ∧ ∃ r d', cs.resolve (identity d)
      d = .ok (r, d') ∧ d'.deps.size = d.deps.size + 1 := by
    decide +kernel
  obtain ⟨-, mem, stays⟩ := resolution_stays_in_fixable ((Built.empty "x").runAll run) hbd ran made
  obtain ⟨new, deps, each⟩ := stays n err d' resolved
  have one : new.length = 1 := by
    have := congrArg length deps
    simp [size] at this
    exact this.symm
  obtain ⟨v, rfl⟩ := length_eq_one_iff.mp one
  have inside := ((mem 15).mp (by simp [fixable])).1.resolve_left (by simp [block])
  exact ⟨d, report, cs, n, err, d', v, run, ran, made, fixable, block ▸ inside, resolved, deps,
    each v (mem_singleton_self v)⟩

end Datapath.Loop
