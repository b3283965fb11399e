/- GID: OhMyOs/Include/IntrusiveList
   generality: I
   digest: The intrusive list primitives of include/list.h as pointer updates. -/

import Mathlib.Algebra.Group.Nat.Defs
import Mathlib.Data.Set.Insert
import OhMyOs.Lib.Ring

set_option autoImplicit false
set_option relaxedAutoImplicit false

namespace OhMyOs.Include.IntrusiveList

open OhMyOs.Lib.Ring

variable {ι α : Type} [DecidableEq ι] [DecidableEq α]

def listInit (l : Links ι α) (head : Cell ι α) : Links ι α :=
  let l := l.setNext head head
  l.setPrev head (l.next head)

/-- `list_insert_before`: four stores, each reading the links as they stand. -/
def listInsertBefore (l : Links ι α) (cur node : Cell ι α) : Links ι α :=
  let l := l.setNext (l.prev cur) node
  let l := l.setNext node cur
  let l := l.setPrev node (l.prev cur)
  l.setPrev cur node

/-- `list_insert`: four stores, each reading the links as they stand. -/
def listInsert (l : Links ι α) (cur node : Cell ι α) : Links ι α :=
  let l := l.setPrev (l.next cur) node
  let l := l.setNext node (l.next cur)
  let l := l.setPrev node cur
  l.setNext cur node

def listInsertHead (l : Links ι α) (head node : Cell ι α) : Links ι α :=
  listInsert l head node

def listInsertTail (l : Links ι α) (head node : Cell ι α) : Links ι α :=
  listInsertBefore l head node

/-- `list_remove`: the removed node keeps its own two pointers. -/
def listRemove (l : Links ι α) (node : Cell ι α) : Links ι α :=
  let l := l.setNext (l.prev node) (l.next node)
  l.setPrev (l.next node) (l.prev node)

def listEmpty (l : Links ι α) (head : Cell ι α) : Bool := decide (l.next head = head)

def listNext (l : Links ι α) (head : Cell ι α) : Cell ι α := l.next head

def listTail (l : Links ι α) (head : Cell ι α) : Cell ι α := l.prev head

/-- The loop of `list_size` from `node` on; `none` when it has not ended after so many tests. -/
def sizeLoop (l : Links ι α) (head : Cell ι α) : Nat → Cell ι α → Nat → Option Nat
  | 0, _, _ => none
  | fuel + 1, node, size =>
      if node ≠ head then sizeLoop l head fuel (l.next node) ((size + 1) % 2 ^ 32) else some size

/-- `list_size`: a list has fewer nodes than there are addresses. -/
def listSize (l : Links ι α) (head : Cell ι α) : Option Nat :=
  sizeLoop l head (2 ^ 32) (l.next head) 0

/-- `container_of` on an embedded link field; a head is embedded in no element. -/
def containerOf : Cell ι α → Option α
  | .head _ => none
  | .node a => some a

private theorem listInit_eq (l : Links ι α) (head : Cell ι α) : listInit l head = loop l head := by
  simp [listInit, loop, Links.setNext, Links.setPrev]

theorem listInsert_eq (l : Links ι α) (cur node : Cell ι α) :
    listInsert l cur node = linkAfter l cur node := rfl

private theorem listInsertBefore_eq (l : Links ι α) (cur node : Cell ι α) :
    listInsertBefore l cur node = linkBefore l cur node := rfl

theorem listRemove_eq (l : Links ι α) (node : Cell ι α) :
    listRemove l node = unlink l node := by
  have same : Function.update l.next (l.prev node) (l.next node) node = l.next node := by
    by_cases h : node = l.prev node
    · rw [← h, Function.update_self]
    · rw [Function.update_of_ne h]
  simp only [listRemove, unlink, Links.setNext, Links.setPrev, same]

section Rings

variable {l : Links ι α} {I : Set ι} {f : ι → List α}

theorem listInit_rings (rings : Rings l I f) (i : ι) (hi : i ∉ I) :
    Rings (listInit l (.head i)) (insert i I) (Function.update f i []) := by
  rw [listInit_eq]
  exact rings.loop_insert i hi

theorem listInit_rings_empty (rings : Rings l I fun _ => []) (i : ι) (hi : i ∉ I) :
    Rings (listInit l (.head i)) (insert i I) fun _ => [] := by
  have one := listInit_rings rings i hi
  rwa [Function.update_eq_self i (fun _ => ([] : List α))] at one

theorem listInsert_rings (rings : Rings l I f) {i : ι} (hi : i ∈ I) {a : α}
    (fresh : ∀ j ∈ I, a ∉ f j) :
    Rings (listInsert l (.head i) (.node a)) I (Function.update f i (a :: f i)) := by
  rw [listInsert_eq]
  exact rings.linkAfter_head hi fresh

theorem listInsert_after_rings (rings : Rings l I f) {i : ι} (hi : i ∈ I) {xs ys : List α}
    {a b : α} (split : f i = xs ++ b :: ys) (fresh : ∀ j ∈ I, a ∉ f j) :
    Rings (listInsert l (.node b) (.node a)) I (Function.update f i (xs ++ b :: a :: ys)) := by
  rw [listInsert_eq]
  exact rings.linkAfter_node hi split fresh

theorem listInsertBefore_node_rings (rings : Rings l I f) {i : ι} (hi : i ∈ I) {xs ys : List α}
    {a b : α} (split : f i = xs ++ b :: ys) (fresh : ∀ j ∈ I, a ∉ f j) :
    Rings (listInsertBefore l (.node b) (.node a)) I
      (Function.update f i (xs ++ a :: b :: ys)) := by
  rw [listInsertBefore_eq]
  exact rings.linkBefore_node hi split fresh

theorem listInsertTail_rings (rings : Rings l I f) {i : ι} (hi : i ∈ I) {a : α}
    (fresh : ∀ j ∈ I, a ∉ f j) :
    Rings (listInsertTail l (.head i) (.node a)) I (Function.update f i (f i ++ [a])) := by
  rw [listInsertTail, listInsertBefore_eq]
  exact rings.linkBefore_head hi fresh

theorem listRemove_rings (rings : Rings l I f) {i : ι} (hi : i ∈ I) {a : α} (mem : a ∈ f i) :
    Rings (listRemove l (.node a)) I (Function.update f i ((f i).erase a)) := by
  rw [listRemove_eq]
  exact rings.unlink_node hi mem

theorem listRemove_filter_rings (rings : Rings l I f) {i : ι} (hi : i ∈ I) {a : α} (mem : a ∈ f i) :
    Rings (listRemove l (.node a)) I fun j => (f j).filter (· ≠ a) := by
  refine (listRemove_rings rings hi mem).congr fun j hj => ?_
  by_cases same : j = i
  · subst same
    rw [Function.update_self, (rings.nodup j hj).erase_eq_filter]
    simp [bne, beq_eq_decide]
  · rw [Function.update_of_ne same, eq_comm, List.filter_eq_self]
    intro x member
    rw [decide_eq_true_iff]
    rintro rfl
    exact rings.disjoint i hi j hj (Ne.symm same) x mem member

theorem mem_erase_iff (rings : Rings l I f) {i : ι} (hi : i ∈ I) {a : α} (mem : a ∈ f i) {j : ι}
    (hj : j ∈ I) {x : α} : x ∈ Function.update f i ((f i).erase a) j ↔ x ∈ f j ∧ x ≠ a := by
  by_cases same : j = i
  · subst same
    rw [Function.update_self, (rings.nodup j hj).mem_erase_iff, and_comm]
  · rw [Function.update_of_ne same]
    refine ⟨fun member => ⟨member, ?_⟩, And.left⟩
    rintro rfl
    exact rings.disjoint i hi j hj (Ne.symm same) x mem member

theorem not_mem_erase (rings : Rings l I f) {i : ι} (hi : i ∈ I) {a : α} (mem : a ∈ f i) :
    ∀ j ∈ I, a ∉ Function.update f i ((f i).erase a) j := by
  intro j hj member
  exact ((mem_erase_iff rings hi mem hj).mp member).2 rfl

omit [DecidableEq α] in
theorem mem_insert_iff {i j : ι} {a x : α} :
    x ∈ Function.update f i (a :: f i) j ↔ (j = i ∧ x = a) ∨ x ∈ f j := by
  by_cases same : j = i
  · subst same
    simp
  · simp [same]

theorem listMove_rings (rings : Rings l I f) {i j : ι} (hi : i ∈ I) (hj : j ∈ I) (differ : j ≠ i)
    {a : α} (mem : a ∈ f i) :
    Rings (listInsert (listRemove l (.node a)) (.head j) (.node a)) I
      (Function.update (Function.update f i ((f i).erase a)) j (a :: f j)) := by
  have inserted := listInsert_rings (listRemove_rings rings hi mem) hj (not_mem_erase rings hi mem)
  rwa [Function.update_of_ne differ] at inserted

omit [DecidableEq ι] [DecidableEq α] in
theorem listEmpty_iff [DecidableEq ι] [DecidableEq α] (rings : Rings l I f) {i : ι}
    (hi : i ∈ I) : listEmpty l (.head i) = true ↔ f i = [] := by
  rw [listEmpty, decide_eq_true_iff]
  exact rings.empty_iff hi

omit [DecidableEq ι] [DecidableEq α] in
theorem listNext_cons (rings : Rings l I f) {i : ι} (hi : i ∈ I) {a : α} {xs : List α}
    (first : f i = a :: xs) : listNext l (.head i) = .node a := by
  rw [listNext, rings.next_head hi, first]

theorem listInit_range_rings (l : Links Nat α) (n : Nat) :
    Rings ((List.range n).foldl (fun l i => listInit l (.head i)) l) {i | i < n} fun _ => [] := by
  induction n with
  | zero => exact ⟨by simp, by simp, by simp⟩
  | succ n ih =>
    rw [List.range_succ, List.foldl_append]
    have next := listInit_rings_empty ih n (by simp)
    have same : insert n {i : Nat | i < n} = {i | i < n + 1} := by
      ext i
      simp only [Set.mem_insert_iff, Set.mem_ofPred_eq]
      omega
    rwa [same] at next

end Rings

end OhMyOs.Include.IntrusiveList
