import Datapath.Proofs.Trails

/-!
# What a walk notes

A walk notes the accessors of a resource one set after the other: an access, a call of a task, or
together all that the sides of a branch access. The log keeps the first and the last of these sets,
among which are the two ends of the trail of the walk.
-/

namespace Datapath

open List

variable {log : Log} {d : Design}

/-! ## Lists of indices -/

theorem ascending_eq (xs : List Int) : ascending xs = xs.insertionSort (· ≤ ·) := by
  have insert : ∀ (x : Int) ys, insertId x ys = ys.orderedInsert (· ≤ ·) x := by
    intro x ys
    induction ys with
    | nil => rfl
    | cons y ys ih => simp only [insertId, orderedInsert, ih]
  induction xs with
  | nil => rfl
  | cons x xs ih => simp only [ascending, insertionSort_cons, insert, ih]

theorem ascending_perm (xs : List Int) : (ascending xs).Perm xs := by
  rw [ascending_eq]
  exact perm_insertionSort (· ≤ ·) xs

theorem mem_ascending : x ∈ ascending xs ↔ x ∈ xs := (ascending_perm xs).mem_iff

theorem ascending_pairwise (nodup : xs.Nodup) : (ascending xs).Pairwise (· < ·) := by
  have distinct := (ascending_perm xs).nodup_iff.mpr nodup
  rw [ascending_eq] at distinct ⊢
  exact List.Pairwise.imp₂ (fun _ _ le ne => Int.lt_iff_le_and_ne.mpr ⟨le, ne⟩)
    (pairwise_insertionSort (· ≤ ·) _) distinct

theorem nodup_eraseDups (xs : List Int) : xs.eraseDups.Nodup := by
  cases xs with
  | nil => exact nodup_nil
  | cons x xs =>
    rw [eraseDups_cons, nodup_cons]
    exact ⟨by simp, nodup_eraseDups _⟩
termination_by xs.length
decreasing_by exact Nat.lt_succ_of_le (length_filter_le ..)

theorem mem_ascendingSet : x ∈ ascendingSet xs ↔ x ∈ xs := mem_ascending.trans mem_eraseDups

theorem ascendingSet_pairwise (xs : List Int) : (ascendingSet xs).Pairwise (· < ·) :=
  ascending_pairwise (nodup_eraseDups xs)

theorem mem_addIds : x ∈ addIds xs ys ↔ x ∈ xs ∨ x ∈ ys := by
  induction ys generalizing xs with
  | nil => simp [addIds]
  | cons y ys ih =>
    rw [addIds, foldl_cons, ← addIds, ih, mem_cons]
    by_cases h : xs.contains y = true
    · rw [if_pos h]
      have : y ∈ xs := by simpa using h
      constructor
      · rintro (h | h)
        · exact .inl h
        · exact .inr (.inr h)
      · rintro (h | rfl | h)
        · exact .inl h
        · exact .inl this
        · exact .inr h
    · rw [if_neg h, mem_append, mem_singleton, or_assoc]

theorem nodup_addIds (h : xs.Nodup) : (addIds xs ys).Nodup := by
  induction ys generalizing xs with
  | nil => exact h
  | cons y ys ih =>
    rw [addIds, foldl_cons]
    split
    next => exact ih h
    next new => exact ih (concat_eq_append .. ▸ h.concat (by simpa using new))

namespace Region

/-! ## Logs -/

namespace Log

theorem mem_unite : x ∈ unite as bs ↔ x ∈ as ∨ x ∈ bs := mem_ascending.trans mem_addIds

theorem nodup_unite (h : as.Nodup) : (unite as bs).Nodup := (ascending_perm _).nodup_iff.mpr (nodup_addIds h)

theorem nodup_resources (log : Log) : log.resources.Nodup := (ascendingSet_pairwise _).imp fun lt => Int.ne_of_lt lt

theorem find?_resource (h : log.find? r = some a) : a.resource = r := by
  simpa using find?_some h

theorem mem_resources : r ∈ log.resources ↔ log.find? r ≠ none := by
  unfold resources find?
  rw [mem_ascendingSet, Ne]
  simp

theorem mem_ends : x ∈ log.ends r ↔ ∃ a, log.find? r = some a ∧ (x ∈ a.first ∨ x ∈ a.last) := by
  unfold ends
  cases log.find? r with
  | none => simp
  | some a => simp [mem_unite]

theorem nodup_ends (log : Log) (r : ResId) : (log.ends r).Nodup := by
  unfold ends
  split
  · exact nodup_nil
  · exact nodup_unite (nodup_unite nodup_nil)

def firstOf (log : Log) (r : ResId) (ops : List OpId) : List OpId :=
  match log.find? r with
  | none => if log.settled.contains r then ops else unite [] ops
  | some a => if log.settled.contains r then a.first else unite a.first ops

theorem firstOf_new (h : log.find? r = none) (nodup : ops.Nodup) :
    (log.firstOf r ops).Nodup ∧ ∀ x, x ∈ log.firstOf r ops ↔ x ∈ ops := by
  unfold firstOf
  rw [h]
  dsimp only
  split
  · exact ⟨nodup, fun _ => Iff.rfl⟩
  · exact ⟨nodup_unite nodup_nil, fun x => by simp [mem_unite]⟩

theorem firstOf_old (h : log.find? r = some a) (nodup : a.first.Nodup) :
    (log.firstOf r ops).Nodup ∧ ∀ x, x ∈ log.firstOf r ops ↔ x ∈ a.first ∨ r ∉ log.settled ∧ x ∈ ops := by
  unfold firstOf
  rw [h]
  dsimp only
  split
  next settled => exact ⟨nodup, fun x => by simp [contains_iff_mem.mp settled]⟩
  next settled =>
    exact ⟨nodup_unite nodup, fun x => by simp [mem_unite, show r ∉ log.settled by simpa using settled]⟩

theorem find?_note_some (h : log.find? r = some b) (q : ResId) : (log.note r ops).find? q =
    (log.find? q).map fun c => if c.resource == r then
      { b with first := if log.settled.contains r then b.first else unite b.first ops, last := ops } else c := by
  have hb := find?_resource h
  unfold note
  rw [h]
  unfold find?
  rw [find?_map]
  congr 2
  funext c
  by_cases hc : c.resource = r <;> simp [hc, hb]

theorem find?_note_self (log : Log) (r : ResId) (ops : List OpId) :
    (log.note r ops).find? r = some ⟨r, log.firstOf r ops, ops⟩ := by
  cases h : log.find? r with
  | none =>
    unfold note firstOf
    rw [h]
    unfold find? at h ⊢
    rw [find?_append, h]
    simp
  | some b =>
    rw [find?_note_some h]
    simp [find?_resource h, firstOf, h]

theorem find?_note_ne (h : q ≠ r) : (log.note r ops).find? q = log.find? q := by
  cases hr : log.find? r with
  | none =>
    unfold note
    rw [hr]
    unfold find?
    simp [Ne.symm h]
  | some b =>
    rw [find?_note_some hr]
    cases hq : log.find? q with
    | none => rfl
    | some c => simp [find?_resource hq, h]

@[simp] theorem settled_note (log : Log) (r : ResId) (ops : List OpId) :
    (log.note r ops).settled = log.settled := by
  unfold note
  split <;> rfl

end Log

section
variable {f : ResId → List OpId} {rs : List ResId}

theorem settled_noteAll (rs : List ResId) (log : Log) :
    (rs.foldl (fun log q => log.note q (f q)) log).settled = log.settled := by
  induction rs generalizing log with
  | nil => rfl
  | cons q rs ih => rw [foldl_cons, ih, Log.settled_note]

theorem find?_noteAll (h : r ∉ rs) : (rs.foldl (fun log q => log.note q (f q)) log).find? r = log.find? r := by
  induction rs generalizing log with
  | nil => rfl
  | cons q rs ih =>
    rw [foldl_cons, ih fun hr => h (mem_cons_of_mem _ hr)]
    exact Log.find?_note_ne fun e => h (e ▸ mem_cons_self)

theorem find?_noteAll_mem (nodup : rs.Nodup) (hr : r ∈ rs) :
    (rs.foldl (fun log q => log.note q (f q)) log).find? r = some ⟨r, log.firstOf r (f r), f r⟩ := by
  -- the resource is noted once
  obtain ⟨before, after, rfl⟩ := append_of_mem hr
  obtain ⟨-, nodup, apart⟩ := nodup_append.mp nodup
  have notBefore : r ∉ before := fun e => apart r e r mem_cons_self rfl
  have notAfter : r ∉ after := (nodup_cons.mp nodup).1
  rw [foldl_append, foldl_cons, find?_noteAll notAfter, Log.find?_note_self]
  unfold Log.firstOf
  rw [find?_noteAll notBefore, settled_noteAll]

end

/-! ## Notes -/

/-- Accessors that a walk notes together, and the accesses that they stand for. -/
structure Note where
  ops : List OpId
  accesses : List OpId
  /-- Whether these are the accessors in the sides of a branch. -/
  sides : Bool
deriving DecidableEq

/-- Every access that the accessors stand for reads a register. -/
def Note.isPure (d : Design) (n : Note) : Bool := n.accesses.all fun a => (d.op? a).any (·.kind == .registerRead)

/-- What is first besides an earlier pure note: all pure notes, and the sides of a branch that follow
them. -/
def following (d : Design) (ns : List Note) : List OpId :=
  (ns.takeWhile (·.isPure d)).flatMap Note.ops ++
    match (ns.dropWhile (·.isPure d)).head? with
    | some n => if n.sides then n.ops else []
    | none => []

def leading (d : Design) : List Note → List OpId
  | [] => []
  | n :: ns => n.ops ++ if n.isPure d then following d ns else []

def closing (ns : List Note) : List OpId := ns.getLast?.toList.flatMap Note.ops

def noteCall (op : OpId) (ns : List Note) : List Note :=
  if ns.isEmpty then [] else [⟨[op], ns.flatMap Note.accesses, false⟩]

def noteSides (d : Design) (one other : List Note) : List Note :=
  if one.isEmpty && other.isEmpty then []
  else [⟨leading d one ++ closing one ++ (leading d other ++ closing other), (one ++ other).flatMap Note.accesses,
    true⟩]

def notesIn (d : Design) (visit : OpId → Query (List Note)) (mod : OpId) : Query (List Note) := do
  return (← (← d.order mod).mapM visit).flatten

def notesOf (d : Design) (r : ResId) (visit : OpId → Query (List Note)) (op : OpId) (o : Operation) :
    Query (List Note) :=
  match o.kind with
  | .branch => do
    let decided ← visit o.decision
    let one ← notesIn d visit o.trueSide
    let other ← notesIn d visit o.falseSide
    return decided ++ noteSides d one other
  | .taskCall => do return noteCall op (← notesIn d visit o.body)
  | k =>
    if k.isAccess then return if o.resource = r then [⟨[op], [op], false⟩] else []
    else if k.isModule then notesIn d visit op
    else return []

/-- The notes of a resource by an operation and what it runs, over at most `n` levels. -/
def notes (d : Design) (r : ResId) : Nat → OpId → Query (List Note)
  | 0, _ => throwThe Fault .endless
  | n + 1, op => do notesOf d r (notes d r n) op (← d.op op)

theorem following_cons (d : Design) (n : Note) (ns : List Note) :
    following d (n :: ns) = if n.isPure d then n.ops ++ following d ns else if n.sides then n.ops else [] := by
  unfold following
  cases h : n.isPure d <;> simp [h]

theorem mem_following_append : x ∈ following d (ns ++ [m]) ↔
    x ∈ following d ns ∨ (∀ n ∈ ns, n.isPure d = true) ∧ (m.isPure d = true ∨ m.sides = true) ∧ x ∈ m.ops := by
  induction ns with
  | nil => cases hp : m.isPure d <;> cases hs : m.sides <;> simp [following, hp, hs]
  | cons n ns ih =>
    rw [cons_append, following_cons, following_cons]
    cases hp : n.isPure d with
    | true => simp [hp, ih, or_assoc]
    | false => simp [hp]

theorem mem_leading_append : x ∈ leading d (ns ++ [m]) ↔ x ∈ leading d ns ∨
    (ns = [] ∨ (∀ n ∈ ns, n.isPure d = true) ∧ (m.isPure d = true ∨ m.sides = true)) ∧ x ∈ m.ops := by
  cases ns with
  | nil => simp [leading, following]
  | cons n ns =>
    cases hp : n.isPure d with
    | true => simp [leading, hp, mem_following_append, or_assoc, and_assoc]
    | false => simp [leading, hp]

theorem closing_append (ns : List Note) (m : Note) : closing (ns ++ [m]) = m.ops := by simp [closing]

/-! ## What a log records -/

structure Records (d : Design) (r : ResId) (log : Log) (ns : List Note) : Prop where
  found : log.find? r = none ↔ ns = []
  first : ∀ {a}, log.find? r = some a → a.first.Nodup ∧ ∀ x, x ∈ a.first ↔ x ∈ leading d ns
  last : ∀ {a}, log.find? r = some a → a.last.Nodup ∧ ∀ x, x ∈ a.last ↔ x ∈ closing ns
  settled : r ∈ log.settled ↔ ∃ n ∈ ns, n.isPure d = false

theorem Records.empty (d : Design) (r : ResId) : Records d r {} [] :=
  ⟨⟨fun _ => rfl, fun _ => rfl⟩, nofun, nofun, by simp⟩

section
variable (h : Records d r log ns)
include h

theorem Records.of_same (same : log'.find? r = log.find? r)
    (settled : r ∈ log'.settled ↔ r ∈ log.settled) : Records d r log' ns :=
  ⟨by rw [same]; exact h.found, by rw [same]; exact h.first, by rw [same]; exact h.last, settled.trans h.settled⟩

theorem Records.resources : r ∈ log.resources ↔ ns ≠ [] := by
  rw [Log.mem_resources, Ne, h.found]

theorem Records.mem_ends : x ∈ log.ends r ↔ x ∈ leading d ns ++ closing ns := by
  rw [Log.mem_ends]
  cases hf : log.find? r with
  | none => simp [h.found.mp hf, leading, closing]
  | some a => simp [(h.first hf).2, (h.last hf).2]

theorem Records.note {e : Log} (same : e.find? r = log.find? r)
    (found : log'.find? r = some ⟨r, e.firstOf r ops, ops⟩) (nodup : ops.Nodup) (hops : ∀ x, x ∈ ops ↔ x ∈ n.ops)
    (before : r ∈ e.settled ↔ r ∈ log.settled ∨ n.isPure d = false ∧ n.sides = false)
    (after : r ∈ log'.settled ↔ r ∈ log.settled ∨ n.isPure d = false) : Records d r log' (ns ++ [n]) where
  found := by simp [found]
  first ha := by
    cases found.symm.trans ha
    simp only [mem_leading_append]
    cases hf : log.find? r with
    | none =>
      obtain rfl := h.found.mp hf
      simpa [leading, hops] using Log.firstOf_new (same.trans hf) nodup
    | some a =>
      have ne : ns ≠ [] := fun e => by
        rw [h.found.mpr e] at hf
        cases hf
      have open' : r ∉ e.settled ↔ (∀ n ∈ ns, n.isPure d = true) ∧ (n.isPure d = true ∨ n.sides = true) := by
        rw [before, h.settled]
        cases hp : n.isPure d <;> simp
      refine (Log.firstOf_old (same.trans hf) (h.first hf).1).imp_right fun all x => ?_
      rw [all, (h.first hf).2, hops, open']
      simp [ne]
  last ha := by
    cases found.symm.trans ha
    rw [closing_append]
    exact ⟨nodup, hops⟩
  settled := by
    rw [after, h.settled]
    simp [or_and_right, exists_or]

end

theorem isPure_flatMap (ops : List OpId) (ns : List Note) (sides : Bool) :
    Note.isPure d ⟨ops, ns.flatMap Note.accesses, sides⟩ = false ↔ ∃ n ∈ ns, n.isPure d = false := by
  simp [Note.isPure]

section
variable (h : Records d r log ns) (h1 : Records d r one ms)
include h h1

theorem Records.noteEither (h2 : Records d r other ms') :
    Records d r (log.noteEither one other) (ns ++ noteSides d ms ms') := by
  have nodup : (ascendingSet (one.resources ++ other.resources)).Nodup :=
    (ascendingSet_pairwise _).imp fun lt => Int.ne_of_lt lt
  have known : r ∈ ascendingSet (one.resources ++ other.resources) ↔ ms ≠ [] ∨ ms' ≠ [] := by
    rw [mem_ascendingSet, mem_append, h1.resources, h2.resources]
  have settled : r ∈ (log.noteEither one other).settled ↔ r ∈ log.settled ∨ ∃ n ∈ ms ++ ms',
    n.isPure d = false := by
    simp only [Log.noteEither, Log.settle, mem_addIds, settled_noteAll, h1.settled, h2.settled, mem_append,
      or_and_right, exists_or, or_assoc]
  by_cases none : ms = [] ∧ ms' = []
  · obtain ⟨rfl, rfl⟩ := none
    rw [show noteSides d [] [] = [] from rfl, append_nil]
    exact h.of_same (find?_noteAll fun hr => by simpa using known.mp hr) (by simpa using settled)
  · rw [noteSides, if_neg (by simpa using none)]
    refine h.note (e := log) rfl (find?_noteAll_mem nodup (known.mpr (not_and_or.mp none)))
      (Log.nodup_unite (one.nodup_ends r)) (fun x => ?_) (by simp) ?_
    · rw [Log.mem_unite, h1.mem_ends, h2.mem_ends]
      exact mem_append.symm
    · rw [settled, isPure_flatMap]

theorem Records.noteCall :
    Records d r (one.resources.foldl (fun log r => log.note r [op]) (log.settle one.settled))
        (ns ++ noteCall op ms) := by
  have settled : r ∈ (log.settle one.settled).settled ↔ r ∈ log.settled ∨ ∃ n ∈ ms, n.isPure d = false := by
    simp only [Log.settle, mem_addIds, h1.settled]
  by_cases none : ms = []
  · subst none
    rw [show Region.noteCall op [] = [] from rfl, append_nil]
    refine h.of_same (find?_noteAll (f := fun _ => [op]) fun hr => h1.resources.mp hr rfl) ?_
    rw [settled_noteAll (f := fun _ => [op]), settled]
    simp
  · rw [Region.noteCall, if_neg (by simpa using none)]
    refine h.note (e := log.settle one.settled) rfl
      (find?_noteAll_mem (f := fun _ => [op]) one.nodup_resources (h1.resources.mpr none)) (nodup_singleton op)
      (fun _ => Iff.rfl) ?_ ?_
    · rw [settled, isPure_flatMap]
      simp
    · rw [settled_noteAll (f := fun _ => [op]), settled, isPure_flatMap]

end

/-! ## Walks -/

/-- The notes of a resource by operations, one after the other, and by what they run. -/
inductive Annotates (d : Design) (r : ResId) : List OpId → List Note → Prop where
  | nil : Annotates d r [] []
  | access {op : OpId} {o : Operation} {ids : List OpId} {ns : List Note} (ho : d.op? op = some o)
    (hk : o.kind.isAccess = true) (named : o.resource ≠ absent) (rest : Annotates d r ids ns) :
    Annotates d r (op :: ids) ((if o.resource = r then [⟨[op], [op], false⟩] else []) ++ ns)
  | branch {op : OpId} {o : Operation} {ids : List OpId} {ds ms ms' ns : List Note} (ho : d.op? op = some o)
    (hk : o.kind = .branch) (forks : o.stem.Forks d op) (decision : Annotates d r [o.decision] ds)
    (one : Annotates d r [o.trueSide] ms) (other : Annotates d r [o.falseSide] ms') (rest : Annotates d r ids ns) :
    Annotates d r (op :: ids) (ds ++ noteSides d ms ms' ++ ns)
  | call {op : OpId} {o b : Operation} {ids : List OpId} {ms ns : List Note} (ho : d.op? op = some o)
    (hk : o.kind = .taskCall) (hb : d.op? o.body = some b) (block : b.kind = .block)
    (inner : Annotates d r [o.body] ms) (rest : Annotates d r ids ns) :
    Annotates d r (op :: ids) (noteCall op ms ++ ns)
  | module {op : OpId} {o : Operation} {ids cs : List OpId} {ms ns : List Note} (ho : d.op? op = some o)
    (hk : o.kind.isInlineModule = true) (hb : o.kind ≠ .branch) (order : (d.order op).run = .ok (.ok cs))
    (inner : Annotates d r cs ms) (rest : Annotates d r ids ns) : Annotates d r (op :: ids) (ms ++ ns)
  | leaf {op : OpId} {o : Operation} {ids : List OpId} {ns : List Note} (ho : d.op? op = some o)
    (hp : o.kind.isInlineModule = false) (ha : o.kind.isAccess = false) (hc : o.kind ≠ .taskCall)
    (rest : Annotates d r ids ns) : Annotates d r (op :: ids) ns

/-- From one log to the other, a walk over the operations has noted what the query gives. -/
def NotedBy (d : Design) (r : ResId) (ids : List OpId) (log log' : Log) (q : Query (List Note)) : Prop :=
  ∃ ns, q.run = .ok (.ok ns) ∧ Annotates d r ids ns ∧ ∀ ns₀, Records d r log ns₀ → Records d r log' (ns₀ ++ ns)

section

theorem Annotates.append (h : Annotates d r ids ns) (h' : Annotates d r cs ms) :
    Annotates d r (ids ++ cs) (ns ++ ms) := by
  induction h with
  | nil => exact h'
  | access ho hk named _ ih =>
    rw [append_assoc]
    exact .access ho hk named ih
  | branch ho hk forks h1 h2 h3 _ _ _ _ ih =>
    rw [append_assoc]
    exact .branch ho hk forks h1 h2 h3 ih
  | call ho hk hb block inner _ _ ih =>
    rw [append_assoc]
    exact .call ho hk hb block inner ih
  | module ho hk hb order inner _ _ ih =>
    rw [append_assoc]
    exact .module ho hk hb order inner ih
  | leaf ho hp ha hc _ ih => exact .leaf ho hp ha hc ih

theorem walk_guard_ok {log' : Log} {c : Prop} [Decidable c] {reason : Reason} {k : PUnit → Walk Unit}
    (h : ((if c then (liftM (d.reject op reason : Query PUnit) : Walk PUnit) >>= k else k ⟨⟩).run log).run =
      .ok (.ok ((), log'))) : ¬ c ∧ ((k ⟨⟩).run log).run = .ok (.ok ((), log')) := by
  split at h
  next =>
    obtain ⟨_, _, hrej, -⟩ := walk_bind_ok.mp h
    exact (reject_ok.mp (walk_query_ok.mp hrej).1).elim
  next hc => exact ⟨hc, h⟩

theorem access_notes (h : ((access d o settles).run log).run = .ok (.ok ((), log'))) :
    o.resource ≠ absent ∧ ∃ e : Log, (∀ r, e.find? r = log.find? r) ∧
      (∀ r, r ∈ e.settled ↔ r ∈ log.settled ∨ settles = true ∧ r = o.resource) ∧
        log' = e.note o.resource [o.id] := by
  unfold access at h
  obtain ⟨named, h⟩ := walk_guard_ok h
  refine ⟨by simpa using named, ?_⟩
  split at h
  next yes =>
    obtain ⟨_, e, he, h⟩ := walk_bind_ok.mp h
    rw [walk_modify_ok.mp he] at h
    exact ⟨log.settle [o.resource], fun _ => rfl,
      fun r => by simp [Log.settle, mem_addIds, yes], walk_modify_ok.mp h⟩
  next no => exact ⟨log, fun _ => rfl, by simp [no], walk_modify_ok.mp h⟩

theorem pure_access (ho : d.op? op = some o) : Note.isPure d ⟨[op], [op], false⟩ = (o.kind == .registerRead) := by
  simp [Note.isPure, ho]

theorem access_noted (hd : WellFormed d) (ho : d.op? op = some o) (hk : o.kind.isAccess = true)
    (reads : settles = !(o.kind == .registerRead)) (h : ((access d o settles).run log).run = .ok (.ok ((), log'))) :
    NotedBy d r [op] log log' (return if o.resource = r then [⟨[op], [op], false⟩] else []) := by
  obtain ⟨named, e, same, settled, rfl⟩ := access_notes h
  refine ⟨_, rfl, by simpa using Annotates.access ho hk named .nil, fun ns0 h0 => ?_⟩
  rw [hd.nesting.ids op o ho]
  by_cases hr : o.resource = r
  · subst hr
    rw [if_pos rfl]
    refine h0.note (same _) (Log.find?_note_self e _ _) (nodup_singleton _) (fun _ => Iff.rfl) ?_ ?_
    · simp [settled, pure_access ho, reads]
    · simp [settled, pure_access ho, reads]
  · rw [if_neg hr, append_nil]
    refine h0.of_same ?_ ?_
    · rw [Log.find?_note_ne (Ne.symm hr), same]
    · simp [settled, Ne.symm hr]

/-! ### Visits -/

structure KeepsRecords (d : Design) (r : ResId) (visit : Visit) (noted : OpId → Query (List Note)) : Prop where
  walk : ∀ {op log log'}, ((visit op).run log).run = .ok (.ok ((), log')) → NotedBy d r [op] log log' (noted op)

variable {visit : Visit} (hv : KeepsRecords d r visit noted)
include hv

theorem forM_noted (h : ((ids.forM visit).run log).run = .ok (.ok ((), log'))) :
    NotedBy d r ids log log' (do return (← ids.mapM noted).flatten) := by
  induction ids generalizing log with
  | nil =>
    cases h
    exact ⟨[], rfl, .nil, fun ns0 h0 => by rwa [append_nil]⟩
  | cons op ids ih =>
    obtain ⟨⟨⟩, e, h1, h2⟩ := walk_bind_ok.mp h
    obtain ⟨ns, hns, first, adds⟩ := hv.walk h1
    obtain ⟨ms, hms, rest, adds'⟩ := ih h2
    obtain ⟨nss, hnss, e⟩ := query_bind_ok.mp hms
    cases e
    refine ⟨ns ++ nss.flatten, ?_, first.append rest, fun ns0 h0 => ?_⟩
    · rw [mapM_cons]
      exact query_bind_ok.mpr ⟨ns :: nss, query_bind_ok.mpr ⟨ns, hns, query_bind_ok.mpr ⟨nss, hnss, rfl⟩⟩, rfl⟩
    · rw [← append_assoc]
      exact adds' _ (adds ns0 h0)

theorem children_noted (h : ((children d visit op).run log).run = .ok (.ok ((), log'))) :
    ∃ cs, (d.order op).run = .ok (.ok cs) ∧ NotedBy d r cs log log' (notesIn d noted op) := by
  obtain ⟨cs, order, h⟩ := walk_query_bind_ok.mp h
  obtain ⟨ns, hns, noted⟩ := forM_noted hv h
  exact ⟨cs, order, ns, query_bind_ok.mpr ⟨cs, order, hns⟩, noted⟩

theorem children_records (h : ((children d visit op).run {}).run = .ok (.ok ((), log))) : ∃ cs ns,
    (d.order op).run = .ok (.ok cs) ∧ (notesIn d noted op).run = .ok (.ok ns) ∧ Annotates d r cs ns ∧
      Records d r log ns := by
  obtain ⟨cs, order, ns, hns, noted, adds⟩ := children_noted hv h
  exact ⟨cs, ns, order, hns, noted, adds [] (.empty d r)⟩

theorem block_records (hp : d.place? op = some (.block, owner))
    (h : ((children d visit op).run {}).run = .ok (.ok ((), log))) :
    ∃ ns, (notesIn d noted op).run = .ok (.ok ns) ∧ Annotates d r [op] ns ∧ Records d r log ns := by
  obtain ⟨cs, ns, order, hns, noted, records⟩ := children_records hv h
  obtain ⟨o, ho, hk, -⟩ := op_of_place hp
  refine ⟨ns, hns, ?_, records⟩
  simpa using noted.module ho (by rw [hk]; rfl) (by rw [hk]; nofun) order .nil

theorem branch_noted (hs : Shaped d) (ho : d.op? op = some o) (hk : o.kind = .branch)
    (h : ((branch d visit o).run log).run = .ok (.ok ((), log'))) : NotedBy d r [op] log log' (do
      let decided ← noted o.decision let one ← notesIn d noted o.trueSide let other ← notesIn d noted o.falseSide
      return decided ++ noteSides d one other) := by
  obtain ⟨⟨⟩, e, h1, h⟩ := walk_bind_ok.mp h
  obtain ⟨⟨⟨⟩, one⟩, h2, h⟩ := walk_query_bind_ok.mp h
  obtain ⟨⟨⟨⟩, other⟩, h3, h⟩ := walk_query_bind_ok.mp h
  cases walk_modify_ok.mp h
  have forks : o.stem.Forks d op := by
    rcases (hs.ops (view_of _ ho)).forks hk with ⟨-, gone, -⟩ | forks
    · obtain ⟨_, order, -⟩ := walk_query_bind_ok.mp h2
      obtain ⟨q, hq, -⟩ := order_ok order
      exact absurd gone (ne_absent hq)
    · exact forks
  obtain ⟨ds, hds, decision, adds⟩ := hv.walk h1
  obtain ⟨ms, hms, inner, records⟩ := block_records hv forks.trueSide h2
  obtain ⟨ms', hms', inner', records'⟩ := block_records hv forks.falseSide h3
  refine ⟨ds ++ noteSides d ms ms', ?_, ?_, fun ns0 h0 => ?_⟩
  · exact query_bind_ok.mpr ⟨_, hds, query_bind_ok.mpr ⟨_, hms, query_bind_ok.mpr ⟨_, hms', rfl⟩⟩⟩
  · simpa using Annotates.branch ho hk forks decision inner inner' .nil
  · rw [← append_assoc]
    exact (adds ns0 h0).noteEither records records'

theorem taskCall_noted (hd : WellFormed d) (hs : Shaped d) (ho : d.op? op = some o) (hk : o.kind = .taskCall)
    (h : ((taskCall d visit o).run log).run = .ok (.ok ((), log'))) :
    NotedBy d r [op] log log' (do return noteCall op (← notesIn d noted o.body)) := by
  unfold taskCall at h
  obtain ⟨body, h⟩ := walk_guard_ok h
  obtain ⟨⟨⟨⟩, called⟩, h1, h⟩ := walk_query_bind_ok.mp h
  obtain ⟨_, e, h2, h⟩ := walk_bind_ok.mp h
  rw [walk_modify_ok.mp h2] at h
  cases walk_modify_ok.mp h
  obtain ⟨_, place, -⟩ := hs.calls (view_of _ ho) hk fun e => body (beq_iff_eq.mpr e)
  obtain ⟨ms, hms, inner, records⟩ := block_records hv place h1
  obtain ⟨b, hb, block, -⟩ := op_of_place place
  refine ⟨noteCall op ms, query_bind_ok.mpr ⟨ms, hms, rfl⟩, ?_, fun ns0 h0 => ?_⟩
  · simpa using Annotates.call ho hk hb block inner .nil
  · rw [hd.nesting.ids op o ho]
    exact h0.noteCall records

theorem component_noted (hd : WellFormed d) (hs : Shaped d)
    (h : ((component d visit op).run log).run = .ok (.ok ((), log'))) :
    NotedBy d r [op] log log' (do notesOf d r noted op (← d.op op)) := by
  obtain ⟨o, e, hop, h⟩ := walk_bind_ok.mp h
  obtain ⟨hop, he⟩ := walk_lift_ok.mp hop
  rw [he] at h
  have ho := op_ok hop
  suffices NotedBy d r [op] log log' (notesOf d r noted op o) by
    obtain ⟨ns, hns, rest⟩ := this
    exact ⟨ns, query_bind_ok.mpr ⟨o, query_lift_ok.mpr hop, hns⟩, rest⟩
  unfold notesOf
  split at h
  next hk =>
    rw [hk]
    exact access_noted hd ho (by rw [hk]; rfl) (by simp [hk]) h
  next hk =>
    rw [hk]
    exact branch_noted hv hs ho hk h
  next hk =>
    rw [hk]
    exact taskCall_noted hv hd hs ho hk h
  next other fork call =>
    split
    next hk => exact absurd hk fork
    next hk => exact absurd hk call
    next =>
      split at h
      next ha =>
        rw [if_pos ha]
        exact access_noted hd ho ha (by simpa using other) h
      next ha =>
        rw [if_neg ha]
        split at h
        next hm =>
          rw [if_pos hm]
          obtain ⟨cs, order, ns, hns, noted, adds⟩ := children_noted hv h
          refine ⟨ns, hns, ?_, adds⟩
          simpa using noted.module ho (by simpa [Kind.isInlineModule, hm] using call) fork order .nil
        next hm =>
          rw [if_neg hm]
          cases h
          refine ⟨[], rfl, .leaf ho ?_ (by simpa using ha) call .nil, fun ns0 h0 => by rwa [append_nil]⟩
          simp [Kind.isInlineModule, hm]

end

theorem visit_keepsRecords (hd : WellFormed d) (hs : Shaped d) (r : ResId) (n : Nat) :
    KeepsRecords d r (visit d n) (notes d r n) := by
  induction n with
  | zero =>
    constructor
    intro op log log' h
    cases h
  | succ n ih => exact ⟨component_noted ih hd hs⟩

/-! ## The ends of a trail -/

def Outlines (ns : List Note) (t : List OpId) : Prop :=
  Option.Rel (fun x (n : Note) => x ∈ n.ops) t.head? ns.head? ∧ Option.Rel (fun x (n : Note) => x ∈ n.ops)
    t.getLast? ns.getLast?

theorem Outlines.nil : Outlines [] [] := ⟨.none, .none⟩

theorem Outlines.alone (op : OpId) : Outlines [⟨[op], accesses, false⟩] [op] :=
  ⟨.some mem_cons_self, .some mem_cons_self⟩

section
variable (h : Outlines ns t)
include h

theorem Outlines.append (h' : Outlines ms s) : Outlines (ns ++ ms) (t ++ s) := by
  have either : ∀ {a b : Option OpId} {p q : Option Note}, Option.Rel (fun x (n : Note) => x ∈ n.ops) a p →
      Option.Rel (fun x (n : Note) => x ∈ n.ops) b q →
      Option.Rel (fun x (n : Note) => x ∈ n.ops) (a.or b) (p.or q) := by
    rintro _ _ _ _ (hx | _) h
    · exact .some hx
    · exact h
  simp only [Outlines, head?_append, getLast?_append]
  exact ⟨either h.1 h'.1, either h'.2 h.2⟩

theorem Outlines.nil_iff : t = [] ↔ ns = [] := by
  obtain ⟨h, -⟩ := h
  rw [← head?_eq_none_iff, ← head?_eq_none_iff (l := ns)]
  generalize t.head? = a, ns.head? = b at h ⊢
  cases h <;> simp

theorem Outlines.ends (ne : ns ≠ []) :
    ∃ x y, t.head? = some x ∧ t.getLast? = some y ∧ x ∈ leading d ns ∧ y ∈ closing ns := by
  obtain ⟨h1, h2⟩ := h
  rw [head?_eq_some_head ne] at h1
  rw [getLast?_eq_some_getLast ne] at h2
  generalize first : t.head? = a at h1
  generalize last : t.getLast? = b at h2
  cases h1 with | some hx =>
  cases h2 with | some hy =>
  refine ⟨_, _, rfl, rfl, ?_, by simpa [closing, getLast?_eq_some_getLast ne] using hy⟩
  cases ns with
  | nil => exact absurd rfl ne
  | cons n ns => exact mem_append_left _ hx

theorem Outlines.mem_ends (hx : t.head? = some x ∨ t.getLast? = some x) : x ∈ leading d ns ++ closing ns := by
  by_cases ne : ns = []
  · rw [h.nil_iff.mpr ne] at hx
    simp at hx
  · obtain ⟨y, z, hy, hz, first, last⟩ := h.ends (d := d) ne
    rcases hx with hx | hx
    · cases hy.symm.trans hx
      exact mem_append_left _ first
    · cases hz.symm.trans hx
      exact mem_append_right _ last

theorem Outlines.sides (h' : Outlines ms s) : Outlines (noteSides d ns ms) (t ++ s) := by
  unfold noteSides
  split
  next none =>
    simp only [Bool.and_eq_true, List.isEmpty_iff] at none
    rw [h.nil_iff.mpr none.1, h'.nil_iff.mpr none.2]
    exact .nil
  next found =>
    have ne : t ++ s ≠ [] := by simpa [h.nil_iff, h'.nil_iff] using found
    have ends : ∀ x, (t ++ s).head? = some x ∨ (t ++ s).getLast? = some x →
        x ∈ leading d ns ++ closing ns ++ (leading d ms ++ closing ms) := by
      intro x hx
      rw [head?_append, getLast?_append, Option.or_eq_some_iff, Option.or_eq_some_iff] at hx
      rcases hx with (hx | ⟨-, hx⟩) | hx | ⟨-, hx⟩
      · exact mem_append_left _ (h.mem_ends (.inl hx))
      · exact mem_append_right _ (h'.mem_ends (.inl hx))
      · exact mem_append_right _ (h'.mem_ends (.inr hx))
      · exact mem_append_left _ (h.mem_ends (.inr hx))
    have first := head?_eq_some_head ne
    have last := getLast?_eq_some_getLast ne
    rw [Outlines, first, last]
    exact ⟨.some (ends _ (.inl first)), .some (ends _ (.inr last))⟩

end

/-! ### Trails -/

theorem touches_access (ho : d.op? op = some o) (ha : o.kind.isAccess = true) :
    Touches d r op ↔ o.resource = r := by
  constructor
  · intro h
    cases h with
    | access ho' _ hr =>
      cases ho.symm.trans ho'
      exact hr
    | call ho' hk =>
      cases ho.symm.trans ho'
      rw [hk] at ha
      cases ha
  · exact .access ho ha

theorem Touches.kind {op : OpId} (h : Touches d r op) (ho : d.op? op = some o) :
    o.kind.isAccess = true ∨ o.kind = .taskCall := by
  cases h with
  | access ho' hk =>
    cases ho.symm.trans ho'
    exact .inl hk
  | call ho' hk =>
    cases ho.symm.trans ho'
    exact .inr hk

theorem Tours.touches_call {op : OpId} (ho : d.op? op = some o) (hk : o.kind = .taskCall)
  (hb : d.op? o.body = some b)
    (block : b.kind = .block) (h : Tours d r [o.body] t) : Touches d r op ↔ t ≠ [] := by
  constructor
  · intro touches
    cases touches with
    | access ho' ha =>
      cases ho.symm.trans ho'
      rw [hk] at ha
      cases ha
    | call ho' _ hy hr =>
      cases ho.symm.trans ho'
      exact ne_nil_of_mem (h.complete hr mem_cons_self (.inr hy))
  · intro ne
    obtain ⟨x, hx⟩ := exists_mem_of_ne_nil t ne
    obtain ⟨hr, c, hc, inside⟩ := h.sound hx
    cases mem_singleton.mp hc
    rcases inside with rfl | inside
    -- the block itself touches nothing
    · rcases hr.kind hb with ha | ha <;> rw [block] at ha <;> cases ha
    · exact .call ho hk inside hr

theorem Annotates.tours (h : Annotates d r ids ns) : ∃ t, Tours d r ids t ∧ Outlines ns t := by
  induction h with
  | nil => exact ⟨[], .nil, .nil⟩
  | @access op o _ _ ho hk _ _ ih =>
    obtain ⟨t, tours, outlines⟩ := ih
    have leaf : o.parts = [] := parts_of_leaf (Bool.eq_false_iff.mpr fun hm => by
      rw [not_access hm] at hk
      cases hk)
    split
    next hr => exact ⟨_, .touch ho leaf (.access ho hk hr) tours, .append (t := [op]) (.alone op) outlines⟩
    next hr => exact ⟨t, .skip ho leaf (fun touches => hr ((touches_access ho hk).mp touches)) tours, outlines⟩
  | branch ho hk _ _ _ _ _ ih1 ih2 ih3 ih4 =>
    obtain ⟨_, tours1, outlines1⟩ := ih1
    obtain ⟨_, tours2, outlines2⟩ := ih2
    obtain ⟨_, tours3, outlines3⟩ := ih3
    obtain ⟨_, tours4, outlines4⟩ := ih4
    exact ⟨_, .module (.branch ho hk) (tours1.append (tours2.append tours3)) tours4,
      (outlines1.append (outlines2.sides outlines3)).append outlines4⟩
  | @call op _ _ _ ms _ ho hk hb block _ _ ih1 ih2 =>
    obtain ⟨s, inner, outlines1⟩ := ih1
    obtain ⟨t, tours, outlines2⟩ := ih2
    have leaf := parts_of_leaf (by rw [hk]; rfl)
    have touches := (inner.touches_call ho hk hb block).trans (not_congr outlines1.nil_iff)
    by_cases none : ms = []
    · subst none
      exact ⟨t, .skip ho leaf (fun h => touches.mp h rfl) tours, outlines2⟩
    · refine ⟨_, .touch ho leaf (touches.mpr none) tours, ?_⟩
      rw [noteCall, if_neg (by simpa using none)]
      exact .append (t := [op]) (.alone op) outlines2
  | module ho hk hb order _ _ ih1 ih2 =>
    obtain ⟨_, tours1, outlines1⟩ := ih1
    obtain ⟨_, tours2, outlines2⟩ := ih2
    exact ⟨_, .module (.other ho hk hb order) tours1 tours2, outlines1.append outlines2⟩
  | leaf ho hp ha hc _ ih =>
    obtain ⟨t, tours, outlines⟩ := ih
    refine ⟨t, .skip ho (parts_of_leaf hp) (fun touches => ?_) tours, outlines⟩
    rcases touches.kind ho with hk | hk
    · exact absurd hk (by simp [ha])
    · exact hc hk

/-- Among the first and the last accessors that a walk has noted are the two ends of its trail. -/
theorem children_tours (hd : WellFormed d) (hs : Shaped d)
    (h : ((children d (visit d n) op).run {}).run = .ok (.ok ((), log))) (ha : log.find? r = some a) :
    ∃ cs t x y, (d.order op).run = .ok (.ok cs) ∧ Tours d r cs t ∧ t.head? = some x ∧ t.getLast? = some y ∧
      x ∈ a.first ∧ y ∈ a.last := by
  obtain ⟨cs, ns, order, -, noted, records⟩ := children_records (visit_keepsRecords hd hs r n) h
  obtain ⟨t, tours, outlines⟩ := noted.tours
  have ne : ns ≠ [] := fun e => by
    rw [records.found.mpr e] at ha
    cases ha
  obtain ⟨x, y, hx, hy, first, last⟩ := outlines.ends (d := d) ne
  exact ⟨cs, t, x, y, order, tours, hx, hy, ((records.first ha).2 x).mpr first, ((records.last ha).2 y).mpr last⟩

end Region

end Datapath
