/- GID: OhMyOs/Include/IntrusiveListRuns
   generality: I
   digest: Every run of the primitives of include/list.h is a run of insertions into and deletions
   from sequences. -/

import Mathlib.Data.Fintype.Card
import Mathlib.Logic.Relation
import OhMyOs.Include.IntrusiveList

set_option autoImplicit false
set_option relaxedAutoImplicit false

namespace OhMyOs.Include.IntrusiveList

open OhMyOs.Lib.Ring

variable {ι α : Type} [DecidableEq ι] [DecidableEq α]

/-! ### Calls -/

inductive ListOp (ι α : Type)
  | init (head : ι)
  | insert (cur : Cell ι α) (node : α)
  | insertBefore (cur : Cell ι α) (node : α)
  | insertHead (head : ι) (node : α)
  | insertTail (head : ι) (node : α)
  | remove (node : α)

def listCall (l : Links ι α) : ListOp ι α → Links ι α
  | .init i => listInit l (.head i)
  | .insert cur a => listInsert l cur (.node a)
  | .insertBefore cur a => listInsertBefore l cur (.node a)
  | .insertHead i a => listInsertHead l (.head i) (.node a)
  | .insertTail i a => listInsertTail l (.head i) (.node a)
  | .remove a => listRemove l (.node a)

/-! ### Sequences -/

structure Lists (ι α : Type) where
  heads : Set ι
  seq : ι → List α

namespace Lists

def none : Lists ι α := ⟨∅, fun _ => []⟩

def set (s : Lists ι α) (i : ι) (xs : List α) : Lists ι α :=
  { s with seq := Function.update s.seq i xs }

def Free (s : Lists ι α) (a : α) : Prop := ∀ i ∈ s.heads, a ∉ s.seq i

def Has (s : Lists ι α) : Cell ι α → Prop
  | .head i => i ∈ s.heads
  | .node a => ∃ i ∈ s.heads, a ∈ s.seq i

def Legal (s : Lists ι α) : ListOp ι α → Prop
  | .init i => i ∉ s.heads
  | .insert cur a => s.Has cur ∧ s.Free a
  | .insertBefore cur a => s.Has cur ∧ s.Free a
  | .insertHead i a => i ∈ s.heads ∧ s.Free a
  | .insertTail i a => i ∈ s.heads ∧ s.Free a
  | .remove a => s.Has (.node a)

/-- What a call is to do: a new empty sequence, one insertion at the stated place, or one
deletion. -/
inductive Effect (s : Lists ι α) : ListOp ι α → Lists ι α → Prop
  | init {i : ι} : Effect s (.init i) ⟨insert i s.heads, Function.update s.seq i []⟩
  | insertFirst {i : ι} {a : α} (head : i ∈ s.heads) :
      Effect s (.insert (.head i) a) (s.set i (a :: s.seq i))
  | insertAfter {i : ι} {a b : α} {xs ys : List α} (head : i ∈ s.heads)
      (split : s.seq i = xs ++ b :: ys) :
      Effect s (.insert (.node b) a) (s.set i (xs ++ b :: a :: ys))
  | insertLast {i : ι} {a : α} (head : i ∈ s.heads) :
      Effect s (.insertBefore (.head i) a) (s.set i (s.seq i ++ [a]))
  | insertBefore {i : ι} {a b : α} {xs ys : List α} (head : i ∈ s.heads)
      (split : s.seq i = xs ++ b :: ys) :
      Effect s (.insertBefore (.node b) a) (s.set i (xs ++ a :: b :: ys))
  | insertHead {i : ι} {a : α} (head : i ∈ s.heads) :
      Effect s (.insertHead i a) (s.set i (a :: s.seq i))
  | insertTail {i : ι} {a : α} (head : i ∈ s.heads) :
      Effect s (.insertTail i a) (s.set i (s.seq i ++ [a]))
  | remove {i : ι} {a : α} {xs ys : List α} (head : i ∈ s.heads)
      (split : s.seq i = xs ++ a :: ys) : Effect s (.remove a) (s.set i (xs ++ ys))

omit [DecidableEq α] in
private theorem Legal.effect {s : Lists ι α} {op : ListOp ι α} (legal : s.Legal op) :
    ∃ s', s.Effect op s' := by
  cases op with
  | init i => exact ⟨_, .init⟩
  | insert cur a =>
    cases cur with
    | head i => exact ⟨_, .insertFirst legal.1⟩
    | node b =>
      obtain ⟨⟨i, head, member⟩, -⟩ := legal
      obtain ⟨xs, ys, split⟩ := List.append_of_mem member
      exact ⟨_, .insertAfter head split⟩
  | insertBefore cur a =>
    cases cur with
    | head i => exact ⟨_, .insertLast legal.1⟩
    | node b =>
      obtain ⟨⟨i, head, member⟩, -⟩ := legal
      obtain ⟨xs, ys, split⟩ := List.append_of_mem member
      exact ⟨_, .insertBefore head split⟩
  | insertHead i a => exact ⟨_, .insertHead legal.1⟩
  | insertTail i a => exact ⟨_, .insertTail legal.1⟩
  | remove a =>
    obtain ⟨i, head, member⟩ := legal
    obtain ⟨xs, ys, split⟩ := List.append_of_mem member
    exact ⟨_, .remove head split⟩

end Lists

/-! ### One call -/

variable {l : Links ι α} {s s' : Lists ι α} {op : ListOp ι α}

private theorem listCall_rings (rings : Rings l s.heads s.seq) (legal : s.Legal op)
    (effect : s.Effect op s') : Rings (listCall l op) s'.heads s'.seq := by
  cases effect with
  | init => exact listInit_rings rings _ legal
  | insertFirst head => exact listInsert_rings rings head legal.2
  | insertAfter head split => exact listInsert_after_rings rings head split legal.2
  | insertLast head => exact listInsertTail_rings rings head legal.2
  | insertBefore head split => exact listInsertBefore_node_rings rings head split legal.2
  | insertHead head => exact listInsert_rings rings head legal.2
  | insertTail head => exact listInsertTail_rings rings head legal.2
  | @remove i a xs ys head split =>
    have member : a ∈ s.seq i := by simp [split]
    have nodup := rings.nodup i head
    rw [split] at nodup
    have removed := listRemove_rings rings head member
    rwa [split, erase_of_nodup nodup] at removed

/-! ### Reading a list -/

structure Placed (ι α : Type) where
  place : Cell ι α → Fin (2 ^ 32)
  injective : Function.Injective place

omit [DecidableEq ι] [DecidableEq α] in
private theorem Placed.length_lt (placed : Placed ι α) (i : ι) {xs : List α} (nodup : xs.Nodup) :
    xs.length < 2 ^ 32 := by
  have cells : (Cell.head i :: xs.map (Cell.node : α → Cell ι α)).Nodup := by
    rw [List.nodup_cons]
    refine ⟨by simp, nodup.map fun a b same => Cell.node.inj same⟩
  have bound := (cells.map placed.injective).length_le_card
  rw [Fintype.card_fin, List.length_map, List.length_cons, List.length_map] at bound
  exact bound

private theorem sizeLoop_seg {c : Cell ι α} {i : ι} {xs : List α} {fuel size : Nat}
    (seg : Seg l c xs (.head i)) (enough : xs.length < fuel) (word : size + xs.length < 2 ^ 32) :
    sizeLoop l (.head i) fuel (l.next c) size = some (size + xs.length) := by
  induction xs generalizing c fuel size with
  | nil =>
    obtain ⟨fuel, rfl⟩ : ∃ n, fuel = n + 1 := ⟨fuel - 1, by simp at enough; omega⟩
    rw [seg.1]
    simp [sizeLoop]
  | cons x xs ih =>
    rw [List.length_cons] at enough word ⊢
    obtain ⟨fuel, rfl⟩ : ∃ n, fuel = n + 1 := ⟨fuel - 1, by omega⟩
    obtain ⟨next, -, rest⟩ := seg
    rw [next, sizeLoop, if_pos (by simp), Nat.mod_eq_of_lt (by omega),
      ih rest (by omega) (by omega)]
    congr 1
    omega

private theorem listSize_rings {I : Set ι} {f : ι → List α} (placed : Placed ι α)
    (rings : Rings l I f)
    {i : ι} (head : i ∈ I) : listSize l (.head i) = some (f i).length := by
  have short := placed.length_lt i (rings.nodup i head)
  have counted := sizeLoop_seg (rings.ring i head) short (by rwa [Nat.zero_add])
  rwa [Nat.zero_add] at counted

/-! ### Runs -/

def ListMove (p q : Links ι α × Lists ι α) : Prop :=
  ∃ op, p.2.Legal op ∧ p.2.Effect op q.2 ∧ q.1 = listCall p.1 op

/-- Legal calls lead from links of any content to `l`, and what they are to do from no lists at all
to `s`. -/
def ListsRun (l : Links ι α) (s : Lists ι α) : Prop :=
  ∃ start, Relation.ReflTransGen ListMove (start, Lists.none) (l, s)

/-- The links are disjoint rings through the heads, and the reading primitives see the
sequences. -/
structure Represents (l : Links ι α) (s : Lists ι α) : Prop where
  rings : Rings l s.heads s.seq
  inverse : ∀ c, s.Has c → l.next (l.prev c) = c ∧ l.prev (l.next c) = c
  size : ∀ i ∈ s.heads, listSize l (.head i) = some (s.seq i).length
  empty : ∀ i ∈ s.heads, (listEmpty l (.head i) = true ↔ s.seq i = [])
  next : ∀ i ∈ s.heads, listNext l (.head i) = (s.seq i).head?.elim (.head i) .node
  tail : ∀ i ∈ s.heads, listTail l (.head i) = (s.seq i).getLast?.elim (.head i) .node

omit [DecidableEq ι] [DecidableEq α] in
private theorem rings_inverse (rings : Rings l s.heads s.seq) {c : Cell ι α} (has : s.Has c) :
    l.next (l.prev c) = c ∧ l.prev (l.next c) = c := by
  cases c with
  | head i =>
    obtain ⟨forth, back, -⟩ := (rings.ring i has).inverse
    exact ⟨back, forth⟩
  | node a =>
    obtain ⟨i, head, member⟩ := has
    obtain ⟨-, -, inner⟩ := (rings.ring i head).inverse
    exact (inner a member).symm

omit [DecidableEq ι] [DecidableEq α] in
private theorem listNext_rings (rings : Rings l s.heads s.seq) {i : ι} (head : i ∈ s.heads) :
    listNext l (.head i) = (s.seq i).head?.elim (.head i) .node := by
  rw [listNext, rings.next_head head]
  cases s.seq i with
  | nil => rfl
  | cons a xs => rfl

omit [DecidableEq ι] [DecidableEq α] in
private theorem listTail_rings (rings : Rings l s.heads s.seq) {i : ι} (head : i ∈ s.heads) :
    listTail l (.head i) = (s.seq i).getLast?.elim (.head i) .node := by
  have turned : l.prev (.head i) = _ := rings.reversed.next_head head
  rw [listTail, turned, ← List.head?_reverse]
  cases (s.seq i).reverse with
  | nil => rfl
  | cons a xs => rfl

private theorem represents_of_rings (placed : Placed ι α) (rings : Rings l s.heads s.seq) :
    Represents l s :=
  ⟨rings, fun _ => rings_inverse rings, fun _ => listSize_rings placed rings,
    fun _ => listEmpty_iff rings, fun _ => listNext_rings rings, fun _ => listTail_rings rings⟩

private theorem ListMove.rings {p q : Links ι α × Lists ι α} (move : ListMove p q)
    (rings : Rings p.1 p.2.heads p.2.seq) : Rings q.1 q.2.heads q.2.seq := by
  obtain ⟨op, legal, effect, links⟩ := move
  rw [links]
  exact listCall_rings rings legal effect

omit [DecidableEq ι] [DecidableEq α] in
private theorem none_rings (l : Links ι α) :
    Rings l (Lists.none : Lists ι α).heads Lists.none.seq :=
  ⟨by simp [Lists.none], by simp [Lists.none], by simp [Lists.none]⟩

private theorem moves_rings {p q : Links ι α × Lists ι α}
    (moves : Relation.ReflTransGen ListMove p q)
    (rings : Rings p.1 p.2.heads p.2.seq) : Rings q.1 q.2.heads q.2.seq := by
  induction moves with
  | refl => exact rings
  | tail _ move ih => exact move.rings ih

private theorem ListsRun.rings (run : ListsRun l s) : Rings l s.heads s.seq := by
  obtain ⟨start, moves⟩ := run
  exact moves_rings moves (none_rings start)

/-- After every run of legal calls the links represent the sequences, and each further legal call
does to them exactly what it is to do. -/
theorem lists_run_refines (placed : Placed ι α) {l : Links ι α} {s : Lists ι α}
    (run : ListsRun l s) :
    Represents l s ∧ ∀ op, s.Legal op →
      (∃ s', s.Effect op s') ∧ ∀ s', s.Effect op s' → Represents (listCall l op) s' := by
  refine ⟨represents_of_rings placed run.rings, fun op legal => ⟨legal.effect, ?_⟩⟩
  intro s' effect
  exact represents_of_rings placed (listCall_rings run.rings legal effect)

private theorem ListsRun.call (run : ListsRun l s) (op : ListOp ι α) (legal : s.Legal op)
    (effect : s.Effect op s') : ListsRun (listCall l op) s' := by
  obtain ⟨start, moves⟩ := run
  exact ⟨start, moves.tail ⟨op, legal, effect, rfl⟩⟩

def samplePlaced : Placed (Fin 2) (Fin 3) where
  place
    | .head i => ⟨i, by omega⟩
    | .node a => ⟨2 + a, by omega⟩
  injective := by
    intro c d same
    cases c <;> cases d <;> simp only [Fin.mk.injEq] at same <;> congr 1 <;> omega

private theorem sample_list_run : ∃ (l : Links (Fin 2) (Fin 3)) (s : Lists (Fin 2) (Fin 3)),
    ListsRun l s ∧ 0 ∈ s.heads ∧ s.seq 0 = [2, 1] := by
  have none : ListsRun ⟨id, id⟩ (Lists.none : Lists (Fin 2) (Fin 3)) := ⟨_, .refl⟩
  have first := none.call (.init 0) (by simp [Lists.Legal, Lists.none]) .init
  have second := first.call (.init 1) (by simp [Lists.Legal, Lists.none]) .init
  have one := second.call (.insertTail 0 0)
    (by simp [Lists.Legal, Lists.Free, Lists.none]) (.insertTail (by simp))
  have two := one.call (.insert (.node 0) 1)
    (by simp [Lists.Legal, Lists.Free, Lists.Has, Lists.set, Lists.none])
    (.insertAfter (i := 0) (by simp [Lists.set]) (show _ = [] ++ 0 :: [] from rfl))
  have three := two.call (.insertBefore (.node 1) 2)
    (by simp [Lists.Legal, Lists.Free, Lists.Has, Lists.set, Lists.none])
    (.insertBefore (i := 0) (by simp [Lists.set]) (show _ = [0] ++ 1 :: [] from rfl))
  have last := three.call (.remove 0)
    (by simp [Lists.Legal, Lists.Has, Lists.set, Lists.none])
    (.remove (i := 0) (by simp [Lists.set]) (show _ = [] ++ 0 :: [2, 1] from rfl))
  exact ⟨_, _, last, by simp [Lists.set], rfl⟩

theorem lists_run_refines_sample : ∃ l : Links (Fin 2) (Fin 3),
    listSize l (.head 0) = some 2 ∧ listNext l (.head 0) = .node 2 ∧
      listTail l (.head 0) = .node 1 := by
  obtain ⟨l, s, run, head, seq⟩ := sample_list_run
  obtain ⟨rep, -⟩ := lists_run_refines samplePlaced run
  have size := rep.size 0 head
  have next := rep.next 0 head
  have tail := rep.tail 0 head
  rw [seq] at size next tail
  exact ⟨l, size, next, tail⟩

end OhMyOs.Include.IntrusiveList
