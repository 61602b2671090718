import Datapath.Design.Drawing
import Datapath.Proofs.Ordering
import Datapath.Proofs.OwnerChains

/-!
# What a drawing shows

Operations are nested like the nodes of a forest, so a search through the children of an operation,
breadth first, meets the operation and each one that lies in it once, after its owner. The edges of the
drawing are the dependencies between these operations.
-/

namespace Datapath

open List

open Region (Owned Lies Beneath)

variable {d : Design}

/-! ## Breadth first -/

/-- What a search has before it: operations that do not lie in each other. Of those that it has entered,
none lies in one of them. -/
structure Frontier (d : Design) (queue seen : List OpId) : Prop where
  there : ∀ q ∈ queue, ∃ o, d.op? q = some o
  apart : queue.Pairwise fun a b => ∀ x, Lies d.ops x a → ¬ Lies d.ops x b
  past : ∀ s ∈ seen, ∀ q ∈ queue, ¬ Lies d.ops s q
  once : seen.Nodup
  entered : ∀ s ∈ seen, ∃ o, d.op? s = some o

structure Sweep (d : Design) (queue : List OpId) (ops : List Operation) : Prop where
  there : ∀ o ∈ ops, d.op? o.id = some o
  once : (ops.map Operation.id).Nodup
  reach : ∀ i, i ∈ ops.map Operation.id ↔ ∃ q ∈ queue, Lies d.ops i q
  after : ∀ before o rest, ops = before ++ o :: rest → o.id ∈ queue ∨ o.owner ∈ before.map Operation.id

section
variable (hd : WellFormed d)
include hd

theorem mem_children_iff (ho : d.op? op = some o) (c : OpId) : c ∈ o.children ↔ Owned d.ops c op := by
  constructor
  · exact hd.child ho
  · rintro ⟨k, hk, rfl⟩
    obtain ⟨p, hp, hc⟩ := hd.mem_children hk (ne_absent ho)
    cases ho.symm.trans hp
    exact hc

theorem Frontier.room (h : Frontier d queue seen) : seen.length ≤ d.ops.size := by
  have sub : seen ⊆ d.ops.toList.map Operation.id := by
    intro s hs
    obtain ⟨o, ho⟩ := h.entered s hs
    exact mem_map.mpr ⟨o, Array.mem_toList_iff.mpr (mem_of_at? ho), hd.nesting.ids s o ho⟩
  simpa using (h.once.subperm sub).length_le

section
variable (h : Frontier d (op :: queue) seen) (ho : d.op? op = some o)
include h ho

/-- The search enters an operation, and its children come last in the queue. None of them has been entered. -/
theorem Frontier.step : (o.children.filter fun c => !(op :: seen).contains c) = o.children ∧
      Frontier d (queue ++ o.children) (op :: seen) := by
  obtain ⟨first, apart⟩ := pairwise_cons.mp h.apart
  have owned : ∀ c ∈ o.children, Owned d.ops c op := fun c => (mem_children_iff hd ho c).mp
  have past : ∀ s ∈ op :: seen, ∀ q ∈ queue ++ o.children, ¬ Lies d.ops s q := by
    intro s hs q hq lies
    rcases mem_cons.mp hs with rfl | hs <;> rcases mem_append.mp hq with hq | hq
    · exact first q hq s .refl lies
    · exact absurd ((owned q hq).lt hd.nesting) (Int.not_lt.mpr (Lies.le hd.nesting lies))
    · exact h.past s hs q (mem_cons_of_mem _ hq) lies
    · exact h.past s hs op mem_cons_self (lies.tail (owned q hq))
  constructor
  · refine filter_eq_self.mpr fun c hc => ?_
    have new : c ∉ op :: seen := fun mem => past c mem c (mem_append_right _ hc) .refl
    simpa using new
  · constructor
    · intro q hq
      rcases mem_append.mp hq with hq | hq
      · exact h.there q (mem_cons_of_mem _ hq)
      · exact (hd.child ho hq).imp fun _ hk => hk.1
    · refine pairwise_append.mpr ⟨apart, ?_, fun q hq c hc x hxq hxc => ?_⟩
      · refine (hd.children_nodup ho).imp_of_mem fun ha hb ne x hxa hxb => ne ?_
        exact Lies.sibling hd.nesting (owned _ ha) (owned _ hb) hxa hxb
      · exact first q hq x (hxc.tail (owned c hc)) hxq
    · exact past
    · exact nodup_cons.mpr ⟨fun mem => h.past op mem op mem_cons_self .refl, h.once⟩
    · exact forall_mem_cons.mpr ⟨⟨o, ho⟩, h.entered⟩

/-- Before the rest of the queue and the children, the search meets the operation itself. -/
theorem Sweep.enter (rest : Sweep d (queue ++ o.children) ops) : Sweep d (op :: queue) (o :: ops) := by
  obtain ⟨-, next⟩ := h.step hd ho
  have id := hd.nesting.ids op o ho
  constructor
  · exact forall_mem_cons.mpr ⟨id ▸ ho, rest.there⟩
  · refine nodup_cons.mpr ⟨fun mem => ?_, rest.once⟩
    obtain ⟨q, hq, lies⟩ := (rest.reach _).mp mem
    exact next.past op mem_cons_self q hq (id ▸ lies)
  · intro i
    rw [map_cons, mem_cons, rest.reach, id]
    constructor
    · rintro (rfl | ⟨q, hq, lies⟩)
      · exact ⟨i, mem_cons_self, .refl⟩
      · rcases mem_append.mp hq with hq | hq
        · exact ⟨q, mem_cons_of_mem _ hq, lies⟩
        · exact ⟨op, mem_cons_self, lies.tail ((mem_children_iff hd ho q).mp hq)⟩
    · rintro ⟨q, hq, lies⟩
      rcases mem_cons.mp hq with rfl | hq
      · rcases lies.cases_tail with same | ⟨c, lies, owned⟩
        · exact .inl same.symm
        · exact .inr ⟨c, mem_append_right _ ((mem_children_iff hd ho c).mpr owned), lies⟩
      · exact .inr ⟨q, mem_append_left _ hq, lies⟩
  · intro before p tail split
    cases before with
    | nil =>
      cases split
      exact .inl (id ▸ mem_cons_self)
    | cons b before =>
      cases split
      rcases rest.after before p tail rfl with mem | mem
      · rcases mem_append.mp mem with mem | mem
        · exact .inl (mem_cons_of_mem _ mem)
        · obtain ⟨k, hk, own⟩ := hd.child ho mem
          cases hk.symm.trans (rest.there p (by simp))
          exact .inr (by rw [own, ← id]; exact mem_cons_self)
      · exact .inr (mem_cons_of_mem _ mem)

end

theorem breadthFirst_total (h : Frontier d queue seen) (room : d.ops.size < n + seen.length) :
    ∃ ops, d.breadthFirst n queue seen = .ok ops ∧ Sweep d queue ops := by
  induction n generalizing queue seen with
  | zero => exact absurd (h.room hd) (by omega)
  | succ n ih =>
    cases queue with
    | nil => exact ⟨[], by rfl, forall_mem_nil _, .nil, by simp, by simp⟩
    | cons op queue =>
      obtain ⟨o, ho⟩ := h.there op mem_cons_self
      obtain ⟨all, next⟩ := h.step hd ho
      obtain ⟨ops, ran, rest⟩ := ih next (by rw [length_cons]; omega)
      refine ⟨o :: ops, ?_, rest.enter hd h ho⟩
      unfold Design.breadthFirst
      rw [run_op ho, ok_bind]
      dsimp only
      rw [all, ran]
      rfl

theorem nested_total (hr : d.op? root = some r) : ∃ ops, d.nested root = .ok ops ∧ Sweep d [root] ops := by
  refine breadthFirst_total hd ⟨?_, pairwise_singleton .., nofun, .nil, nofun⟩ (by simp)
  intro q hq
  exact mem_singleton.mp hq ▸ ⟨r, hr⟩

end

/-! ## Edges -/

theorem edgeLine?_some (h : d.edgeLine? drawn v = some line) : ∃ src dst,
    d.Joins v src dst ∧ src ∈ drawn ∧ dst ∈ drawn ∧ line = s!"    op_{src} -> op_{dst}" ++ v.mark := by
  obtain ⟨src, hs, h⟩ := Option.bind_eq_some_iff.mp h
  obtain ⟨p, hp, h⟩ := Option.bind_eq_some_iff.mp h
  dsimp only at h
  split at h
  · cases h
  next both =>
    obtain ⟨hs', hp'⟩ : src ∈ drawn ∧ p.owner ∈ drawn := by simpa using both
    exact ⟨src, p.owner, ⟨hs, p, hp, rfl⟩, hs', hp', (Option.some.inj h).symm⟩

theorem edgeLine?_isSome (h : d.Joins v src dst) (hs : src ∈ drawn) (ht : dst ∈ drawn) :
    (d.edgeLine? drawn v).isSome = true := by
  obtain ⟨p, hp, rfl⟩ := h.target
  unfold Design.edgeLine?
  rw [h.source, Option.bind_eq_bind, hp]
  have both : (!drawn.contains src || !drawn.contains p.owner) = false := by simpa using ⟨hs, ht⟩
  simp only [Option.bind_eq_bind, Option.bind_some, both, Bool.false_eq_true, ite_false]
  rfl

theorem forall₂_filterMap {α β : Type} (f : α → Option β) (l : List α) :
    List.Forall₂ (fun a b => f a = some b) (l.filter fun a => (f a).isSome) (l.filterMap f) := by
  induction l with
  | nil => exact .nil
  | cons a l ih =>
    cases ha : f a with
    | none => simpa [ha] using ih
    | some b => simpa [ha] using ih

/-! ## Characters -/

/-- A text with neither a line break nor an arrow, and none either where it follows another such text. -/
structure Plain (s : String) : Prop where
  unbroken : '\n' ∉ s.toList
  arrowless : ¬ ['-', '>'] <:+: s.toList
  first : s.toList.head? ≠ some '>'

theorem plain_of_free (h : '\n' ∉ s.toList ∧ '>' ∉ s.toList) : Plain s where
  unbroken := h.1
  arrowless inside := h.2 (inside.subset (by decide))
  first e := h.2 (mem_of_mem_head? e)

theorem Plain.append (ha : Plain a) (hb : Plain b) : Plain (a ++ b) := by
  constructor <;> rw [String.toList_append]
  · exact fun mem => (mem_append.mp mem).elim ha.unbroken hb.unbroken
  · rw [infix_append_iff]
    rintro (inside | inside | ⟨l₁, l₂, e, h₁, h₂⟩)
    · exact ha.arrowless inside
    · exact hb.arrowless inside
    · rcases append_eq_cons_iff.mp e.symm with ⟨rfl, rfl⟩ | ⟨l₁, rfl, rest⟩
      · exact hb.arrowless h₂.isInfix
      · rcases append_eq_singleton_iff.mp rest.symm with ⟨rfl, rfl⟩ | ⟨rfl, rfl⟩
        · obtain ⟨rest, e⟩ := h₂
          exact hb.first (by rw [← e]; rfl)
        · exact ha.arrowless h₁.isInfix
  · rw [head?_append]
    cases e : a.toList.head? with
    | none => exact hb.first
    | some c => exact fun same => ha.first (e.trans same)

theorem plain_intercalate (h : ∀ s ∈ l, Plain s) : Plain ("<br/>".intercalate l) := by
  induction l with
  | nil => exact plain_of_free (by decide)
  | cons s l ih =>
    obtain ⟨hs, hl⟩ := forall_mem_cons.mp h
    cases l with
    | nil => simpa using hs
    | cons t l =>
      rw [String.intercalate_cons_cons]
      exact (hs.append ⟨by decide, by decide, by decide⟩).append (ih hl)

section
variable (i : Int)

theorem toList_toString :
    ∃ n, (toString i).toList = Nat.toDigits 10 n ∨ (toString i).toList = '-' :: Nat.toDigits 10 n := by
  cases i with
  | ofNat n => exact ⟨n, .inl Nat.toList_repr⟩
  | negSucc n =>
    refine ⟨n + 1, .inr ?_⟩
    show ("-" ++ (n + 1).repr).toList = _
    rw [String.toList_append, Nat.toList_repr]
    rfl

theorem toString_plain : Plain (toString i) := by
  have free : ∀ c, c.isDigit = false → c ≠ '-' → c ∉ (toString i).toList := by
    intro c other ne mem
    have digit : ∀ n, c ∉ Nat.toDigits 10 n := fun n mem =>
      absurd (Nat.isDigit_of_mem_toDigits (by decide) (by decide) mem) (by simp [other])
    obtain ⟨n, e | e⟩ := toList_toString i <;> rw [e] at mem
    · exact digit n mem
    · exact digit n (mem_of_ne_of_mem ne mem)
  exact plain_of_free ⟨free _ (by decide) (by decide), free _ (by decide) (by decide)⟩

/-- A number ends with a digit, so that no arrow comes about. -/
theorem toString_closed_plain : Plain (toString i ++ ">") := by
  have h := toString_plain i
  have digits : ∀ n l, Nat.toDigits 10 n ≠ l ++ ['-'] := fun n l e =>
    absurd (Nat.isDigit_of_mem_toDigits (by decide) (by decide) (e ▸ mem_append_right l mem_cons_self)) (by decide)
  obtain ⟨last, nonempty⟩ : (∀ l, (toString i).toList ≠ l ++ ['-']) ∧ (toString i).toList ≠ [] := by
    obtain ⟨n, e | e⟩ := toList_toString i <;> rw [e]
    · exact ⟨digits n, Nat.toDigits_ne_nil⟩
    · refine ⟨fun l e => ?_, cons_ne_nil _ _⟩
      cases l with
      | nil => exact Nat.toDigits_ne_nil (cons.inj e).2
      | cons c l => exact digits n l (cons.inj e).2
  constructor <;> rw [String.toList_append]
  · exact fun mem => (mem_append.mp mem).elim h.unbroken (by decide)
  · rw [show ">".toList = ['>'] from by decide, infix_concat_iff]
    rintro (⟨l, e⟩ | inside)
    · exact last l (append_cancel_right ((append_assoc l ['-'] ['>']).trans e)).symm
    · exact h.arrowless inside
  · rw [head?_append_of_ne_nil _ nonempty]
    exact h.first

end

/-! ## Lines -/

def textLines (text : String) : List String := (text.toList.splitOn '\n').map String.ofList

theorem textLines_intercalate (ne : l ≠ []) (h : ∀ s ∈ l, '\n' ∉ s.toList) :
    textLines ("\n".intercalate l ++ "\n") = l ++ [""] := by
  have join : "\n".intercalate l ++ "\n" = "\n".intercalate (l ++ [""]) := by
    rw [String.intercalate_append_of_ne_nil ne (cons_ne_nil _ _), String.intercalate_singleton, String.append_empty]
  have free : ∀ s ∈ (l ++ [""]).map String.toList, '\n' ∉ s := by
    simp only [forall_mem_map, forall_mem_append, forall_mem_singleton]
    exact ⟨h, by decide⟩
  have split := splitOn_intercalate '\n' free (by simp)
  rw [textLines, join, String.toList_intercalate, show "\n".toList = ['\n'] from by decide, split, map_map]
  exact map_id'' (fun _ => String.ofList_toList) _

/-- No name that the drawing shows of the operation holds a line break or closes the label it stands in. -/
def Design.NamedPlainly (d : Design) (o : Operation) : Prop :=
  ∀ s ∈ o.name :: (d.exitsOf o).map (·.tag.label), '\n' ∉ s.toList ∧ '>' ∉ s.toList

instance : Decidable (d.NamedPlainly o) :=
  inferInstanceAs (Decidable (∀ s ∈ o.name :: (d.exitsOf o).map (·.tag.label), '\n' ∉ s.toList ∧ '>' ∉ s.toList))

theorem Kind.name_plain (k : Kind) : Plain k.name := by
  cases k with
  | unnamed code =>
    exact ((plain_of_free (by decide)).append (toString_plain code)).append (plain_of_free (by decide))
  | _ => exact plain_of_free (by decide)

theorem ExitKind.name_plain (k : ExitKind) : Plain k.name := by
  cases k with
  | unnamed code =>
    exact ((plain_of_free (by decide)).append (toString_plain code)).append (plain_of_free (by decide))
  | _ => exact plain_of_free (by decide)

theorem Latency.text_plain (l : Latency) : Plain l.text := by
  have first : Plain "<" := plain_of_free (by decide)
  unfold Latency.text
  split
  · exact ((first.append (toString_plain _)).append ⟨by decide, by decide, by decide⟩).append (toString_plain _)
  · split
    · exact first.append (toString_closed_plain _)
    · rw [String.append_assoc]
      exact ((first.append (toString_plain _)).append (plain_of_free (by decide))).append (toString_closed_plain _)

section
variable (plain : d.NamedPlainly o)
include plain

theorem nodeText_plain : Plain (d.nodeText o) := by
  obtain ⟨name, labels⟩ := forall_mem_cons.mp plain
  unfold Design.nodeText
  refine plain_intercalate ?_
  simp only [forall_mem_append, forall_mem_cons, forall_mem_map]
  refine ⟨⟨⟨⟨plain_of_free name, o.kind.name_plain, nofun⟩, fun x hx => ?_⟩, ?_⟩, ?_⟩
  · have label := plain_of_free (labels _ (mem_map_of_mem hx))
    refine (Plain.append ?_ (plain_of_free (by decide))).append x.latency.text_plain
    unfold ExitTag.text
    split
    · exact x.tag.kind.name_plain
    · exact (x.tag.kind.name_plain.append (plain_of_free (by decide))).append label
  · split
    · exact forall_mem_singleton.mpr (plain_of_free (by decide))
    · exact nofun
  · split
    · exact nofun
    · exact forall_mem_singleton.mpr ((toString_plain o.stalls.length).append (plain_of_free (by decide)))

theorem nodeLines_plain : ∀ line ∈ d.nodeLines o, Plain line := by
  have op : Plain "    op_" := plain_of_free (by decide)
  refine forall_mem_cons.mpr ⟨?_, ?_⟩
  · refine (Plain.append ?_ (nodeText_plain plain)).append ⟨by decide, by decide, by decide⟩
    exact (op.append (toString_plain _)).append (plain_of_free (by decide))
  · split
    · exact nofun
    · simp only [forall_mem_append, forall_mem_singleton, forall_mem_map]
      refine ⟨⟨?_, fun c _ => (plain_of_free (by decide)).append (toString_plain c)⟩, plain_of_free (by decide)⟩
      have name := plain_of_free (plain _ mem_cons_self)
      refine (Plain.append ?_ name).append (plain_of_free (by decide))
      exact ((plain_of_free (by decide)).append (toString_plain _)).append (plain_of_free (by decide))

end

theorem edgeLine?_unbroken (h : d.edgeLine? drawn v = some line) : '\n' ∉ line.toList := by
  obtain ⟨src, dst, -, -, -, rfl⟩ := edgeLine?_some h
  have mark : Plain v.mark := by
    unfold Dependency.mark
    split
    · exact plain_of_free (by decide)
    · exact ((plain_of_free (by decide)).append (toString_plain _)).append (plain_of_free (by decide))
    · exact plain_of_free (by decide)
  simp only [String.toList_append, mem_append, not_or]
  refine ⟨⟨⟨⟨by decide, (toString_plain src).unbroken⟩, by decide⟩, (toString_plain dst).unbroken⟩, mark.unbroken⟩

/-- A drawing shows an operation and all that is nested in it, each once and after its owner, with the children of
each in the order of their creation, and then the dependencies between them, each once and in the order of their
creation. If the names shown are plain, the text has these lines and no other, and only the last of them, the
dependencies, hold an arrow. -/
theorem drawing_shows_each_once (hd : WellFormed d) {r : Operation} (hr : d.op? root = some r) :
    ∃ (text : String) (ops : List Operation) (inner : List Dependency) (edges : List String),
    d.drawing root = .ok text ∧
    text = "\n".intercalate (Design.drawingHead ++ ops.flatMap d.nodeLines ++ edges ++ ["\x7d"]) ++ "\n" ∧
    (∀ o ∈ ops, d.op? o.id = some o) ∧ (ops.map Operation.id).Nodup ∧
    (∀ i, i ∈ ops.map Operation.id ↔ i = root ∨ d.isOwnedBy i root = .ok true) ∧
    (∀ before o after, ops = before ++ o :: after → o.id = root ∨ o.owner ∈ before.map Operation.id) ∧
    (∀ o ∈ ops, d.nodeLines o = [s!"    op_{o.id} [ label = < " ++ d.nodeText o ++ " > ]"] ++
      if o.children = [] then [] else [s!"    subgraph cluster_{o.id} \x7b label = \"" ++ o.name ++ "\""] ++
        o.children.map (fun c => s!"        op_{c}") ++ ["    \x7d"]) ∧
    (∀ o ∈ ops, o.children.Nodup ∧ (∀ c, c ∈ o.children ↔ ∃ k, d.op? c = some k ∧ k.owner = o.id) ∧
      (Built d → o.children.Pairwise (· < ·))) ∧
    (inner.map Dependency.id).Pairwise (· < ·) ∧
    (∀ v, v ∈ inner ↔ d.dep? v.id = some v ∧ ∃ src dst, d.Joins v src dst ∧
      src ∈ ops.map Operation.id ∧ dst ∈ ops.map Operation.id) ∧
    List.Forall₂ (fun v line => ∃ src dst, d.Joins v src dst ∧ line = s!"    op_{src} -> op_{dst}" ++
      match v.kind with
      | .control => " [ style = \"dashed\" ]"
      | .resource => s!" [ label = \"{v.minClocks}\" color = \"red\" ]"
      | _ => "") inner edges ∧
    ((∀ o ∈ ops, d.NamedPlainly o) →
      textLines text = Design.drawingHead ++ ops.flatMap d.nodeLines ++ edges ++ ["\x7d", ""] ∧
      ∀ line ∈ Design.drawingHead ++ ops.flatMap d.nodeLines ++ ["\x7d"], ¬ ['-', '>'] <:+: line.toList) := by
  obtain ⟨ops, ran, sweep⟩ := nested_total hd hr
  let drawn := ops.map Operation.id
  refine ⟨_, ops, d.deps.toList.filter fun v => (d.edgeLine? drawn v).isSome,
    d.deps.toList.filterMap (d.edgeLine? drawn), ?_, rfl, sweep.there, sweep.once, ?_, ?_, ?_, ?_, ?_, ?_, ?_, ?_⟩
  · rw [Design.drawing, ran]
    rfl
  · intro i
    rw [sweep.reach, ← lies_iff hd hr]
    simp only [mem_singleton, exists_eq_left]
  · intro before o after split
    exact (sweep.after before o after split).imp_left mem_singleton.mp
  · intro o _
    rw [Design.nodeLines]
    simp only [List.isEmpty_iff, List.singleton_append]
  · intro o ho
    have ho := sweep.there o ho
    exact ⟨hd.children_nodup ho, mem_children_iff hd ho, fun built => built.aged.ascending (view_of _ ho)⟩
  · exact hd.depIds.ascending.sublist (filter_sublist.map _)
  · intro v
    rw [mem_filter]
    constructor
    · rintro ⟨hv, shown⟩
      obtain ⟨line, shown⟩ := Option.isSome_iff_exists.mp shown
      obtain ⟨src, dst, joins, hs, ht, -⟩ := edgeLine?_some shown
      exact ⟨hd.depIds.at?_of_mem hv, src, dst, joins, hs, ht⟩
    · rintro ⟨hv, src, dst, joins, hs, ht⟩
      exact ⟨Array.mem_toList_iff.mpr (mem_of_at? hv), edgeLine?_isSome joins hs ht⟩
  · refine (forall₂_filterMap _ _).imp fun v line h => ?_
    obtain ⟨src, dst, joins, -, -, same⟩ := edgeLine?_some h
    exact ⟨src, dst, joins, same⟩
  · intro named
    have head : ∀ line ∈ Design.drawingHead, Plain line := by
      simp only [Design.drawingHead, forall_mem_cons]
      exact ⟨plain_of_free (by decide), plain_of_free (by decide), plain_of_free (by decide),
        plain_of_free (by decide), nofun⟩
    have nodes : ∀ line ∈ ops.flatMap d.nodeLines, Plain line := by
      intro line mem
      obtain ⟨o, ho, mem⟩ := mem_flatMap.mp mem
      exact nodeLines_plain (named o ho) line mem
    have last : Plain "\x7d" := plain_of_free (by decide)
    constructor
    · rw [textLines_intercalate (by simp)]
      · simp only [append_assoc, singleton_append]
      · simp only [forall_mem_append, forall_mem_singleton]
        refine ⟨⟨⟨fun line mem => (head line mem).unbroken, fun line mem => (nodes line mem).unbroken⟩, ?_⟩,
          last.unbroken⟩
        intro line mem
        obtain ⟨v, -, shown⟩ := mem_filterMap.mp mem
        exact edgeLine?_unbroken shown
    · simp only [forall_mem_append, forall_mem_singleton]
      exact ⟨⟨fun line mem => (head line mem).arrowless, fun line mem => (nodes line mem).arrowless⟩,
        last.arrowless⟩

/-- The drawing of a loop shows the block of its body and not the block that the loop lies in. -/
theorem loop_drawing_shows_block : ∃ (d : Design) (text : String) (ops : List Operation) (edges : List String),
    runAll loopCommands { name := "x" } = some d ∧ d.drawing 6 = .ok text ∧
    textLines text = Design.drawingHead ++ ops.flatMap d.nodeLines ++ edges ++ ["\x7d", ""] ∧
    (ops.map Operation.id).Nodup ∧ 17 ∈ ops.map Operation.id ∧ 3 ∉ ops.map Operation.id := by
  obtain ⟨d, run, r, hr, inside, outside, named⟩ : ∃ d, runAll loopCommands { name := "x" } = some d ∧
      ∃ r, d.op? 6 = some r ∧ d.isOwnedBy 17 6 = .ok true ∧ d.isOwnedBy 3 6 = .ok false ∧
      ∀ o ∈ d.ops, d.NamedPlainly o := by
    decide +kernel
  obtain ⟨text, ops, -, edges, drawn, -, there, once, mem, -, -, -, -, -, -, lines⟩ :=
    drawing_shows_each_once ((Built.empty "x").runAll run).wellFormed hr
  have named : ∀ o ∈ ops, d.NamedPlainly o := fun o ho => named o (mem_of_at? (there o ho))
  refine ⟨d, text, ops, edges, run, drawn, (lines named).1, once, (mem 17).mpr (.inr inside), fun h => ?_⟩
  rcases (mem 3).mp h with same | owned
  · exact absurd same (by decide)
  · cases outside.symm.trans owned

/-- An operation of this name, alone in a design without dependencies, is drawn with this line. -/
def DrawnAlone (name line : String) : Prop :=
  ∃ d, runAll [.newPrimitive .op (-1) name 0 0 .zero] { name := "x" } = some d ∧ d.deps = #[] ∧
    ∃ text, d.drawing 0 = .ok text ∧ line ∈ textLines text

instance {name line : String} : Decidable (DrawnAlone name line) := by
  unfold DrawnAlone
  infer_instance

/-- Through a line break in a name, or the end of the label, an edge is drawn that is no dependency. -/
theorem broken_name_draws_edge :
    DrawnAlone "a\n    op_0 -> op_0\n" "    op_0 -> op_0" ∧
    DrawnAlone "> ] op_0 -> op_0 [ label = <"
      "    op_0 [ label = < > ] op_0 -> op_0 [ label = <<br/>op<br/>done <0> > ]" := by
  decide +kernel

end Datapath
