/- GID: OhMyOs/Libs/RedBlackTreeMap
   generality: I
   digest: The tree of libs/rb_tree.c implements a finite map of disjoint closed intervals. -/

import Mathlib.Data.List.Pairwise
import Mathlib.Data.Set.Finite.List
import OhMyOs.Libs.RedBlackTreeRuns

set_option autoImplicit false
set_option relaxedAutoImplicit false

namespace OhMyOs.Libs.RedBlackTree

open OhMyOs.Include.Constants
open OhMyOs.Lib.Outcome
open OhMyOs.Lib.LinkedTree
open OhMyOs.Lib.RedBlack.Tree (addrs)

variable {V : Type} {s : RbTree V} {nodes : List (Addr × Item V)}

@[ext] structure Interval (V : Type) where
  start : Nat
  stop : Nat
  value : V

def Interval.Contains (i : Interval V) (key : Nat) : Prop := i.start ≤ key ∧ key ≤ i.stop

def Interval.Overlaps (i j : Interval V) : Prop := i.start ≤ j.stop ∧ j.start ≤ i.stop

/-- The abstract tree: finitely many nonempty intervals, no two of which overlap. -/
structure IntervalMap (V : Type) where
  items : Set (Interval V)
  finite : items.Finite
  valid : ∀ i ∈ items, i.start ≤ i.stop
  apart : items.Pairwise fun i j => ¬ i.Overlaps j

private theorem IntervalMap.unique (m : IntervalMap V) {i j : Interval V} {key : Nat}
    (left : i ∈ m.items)
    (right : j ∈ m.items) (inLeft : i.Contains key) (inRight : j.Contains key) : i = j := by
  by_contra differ
  exact m.apart left right differ
    ⟨inLeft.1.trans inRight.2, inRight.1.trans inLeft.2⟩

def intervalOf (x : Item V) : Interval V := ⟨x.start, x.stop, x.value⟩

def contents (s : RbTree V) : Set (Interval V) :=
  {i | ∃ a n, Stored s a n ∧ intervalOf n.item = i}

theorem Holds.contents_eq (holds : Holds s nodes) :
    contents s = {i | ∃ u ∈ nodes, intervalOf u.2 = i} := by
  obtain ⟨⟨t, rep, rfl, -⟩, -⟩ := holds
  ext i
  constructor
  · rintro ⟨a, n, ⟨reach, cell⟩, rfl⟩
    rw [rep.root_eq] at reach
    exact ⟨(a, n.item), item_of_reach rep.shows reach cell, rfl⟩
  · rintro ⟨⟨a, x⟩, member, rfl⟩
    obtain ⟨n, cell, rfl⟩ := rep.shows.cell_of_mem member
    have reach : Reach s.heap s.root a := by
      rw [rep.root_eq, reach_iff rep.shows]
      exact List.mem_map_of_mem member
    exact ⟨a, n, ⟨reach, cell⟩, rfl⟩

private theorem Sorted.eq_of_overlaps (sorted : Sorted nodes) {u v : Addr × Item V}
    (left : u ∈ nodes)
    (right : v ∈ nodes) (meet : (intervalOf u.2).Overlaps (intervalOf v.2)) : u = v := by
  by_contra differ
  have apart : nodes.Pairwise fun u v => u.2.stop < v.2.start ∨ v.2.stop < u.2.start :=
    sorted.1.imp fun order => .inl order
  have symm : ∀ u v : Addr × Item V, (u.2.stop < v.2.start ∨ v.2.stop < u.2.start) →
      v.2.stop < u.2.start ∨ u.2.stop < v.2.start := fun _ _ => Or.symm
  have : Std.Symm fun u v : Addr × Item V => u.2.stop < v.2.start ∨ v.2.stop < u.2.start := ⟨symm⟩
  have order := apart.forall left right differ
  simp only [Interval.Overlaps, intervalOf] at meet
  omega

private theorem Sorted.interval_ne {pre post : List (Addr × Item V)} {u v : Addr × Item V}
    (sorted : Sorted (pre ++ u :: post)) (other : v ∈ pre ++ post) :
    intervalOf v.2 ≠ intervalOf u.2 := by
  obtain ⟨order, valid⟩ := sorted
  have nonempty := valid u (by simp)
  simp only [List.pairwise_append, List.pairwise_cons, List.mem_cons] at order
  intro same
  obtain ⟨sameStart, sameStop, -⟩ := Interval.mk.injEq .. ▸ same
  rcases List.mem_append.mp other with inPre | inPost
  · have := order.2.2 v inPre u (.inl rfl)
    omega
  · have := order.2.1.1 v inPost
    omega

def mapOf (nodes : List (Addr × Item V)) (sorted : Sorted nodes) : IntervalMap V where
  items := {i | ∃ u ∈ nodes, intervalOf u.2 = i}
  finite := by
    refine (nodes.finite_toSet.image fun u => intervalOf u.2).subset ?_
    rintro i ⟨u, member, rfl⟩
    exact ⟨u, member, rfl⟩
  valid := by
    rintro i ⟨u, member, rfl⟩
    exact sorted.2 u member
  apart := by
    rintro i ⟨u, left, rfl⟩ j ⟨v, right, rfl⟩ differ meet
    exact differ (congrArg (fun u => intervalOf u.2) (sorted.eq_of_overlaps left right meet))

private theorem covers_iff {key : Nat} {u : Addr × Item V} :
    covers key u = true ↔ (intervalOf u.2).Contains key := by
  simp [covers, Interval.Contains, intervalOf]

private theorem overlaps_iff {i : Interval V} {u : Addr × Item V} :
    overlaps i.start i.stop u = true ↔ i.Overlaps (intervalOf u.2) := by
  simp [overlaps, Interval.Overlaps, intervalOf, and_comm]

structure Implements (s : RbTree V) (m : IntervalMap V) : Prop where
  contents_eq : contents s = m.items
  search : ∀ key, ∃ node, rbTreeSearch (some s) key = .ok node ∧
    (node = none ↔ ∀ i ∈ m.items, ¬ i.Contains key) ∧
      ∀ a, node = some a → ∃ n, s.heap a = some n ∧ intervalOf n.item ∈ m.items ∧
        (intervalOf n.item).Contains key ∧
          ∀ i ∈ m.items, i.Contains key → i = intervalOf n.item
  insert : ∀ (i : Interval V) newNode, Fresh (some s) newNode → ∃ s' node,
    rbTreeInsert (some s) i.start i.stop i.value newNode = .ok (some s', node) ∧
      (node ≠ none ↔ newNode ≠ none ∧ i.start ≤ i.stop ∧ ∀ j ∈ m.items, ¬ i.Overlaps j) ∧
        (node ≠ none → contents s' = insert i m.items) ∧ (node = none → contents s' = m.items)
  remove : ∀ key, ∃ s' ret, rbTreeRemove (some s) key = .ok (some s', ret) ∧
    (ret = 0 ↔ ∃ i ∈ m.items, i.Contains key) ∧
      (∀ i ∈ m.items, i.Contains key → contents s' = m.items \ {i}) ∧
        (ret ≠ 0 → contents s' = m.items)
  iterate : ∃ order : List (Addr × Interval V),
    (∀ u ∈ order, ∃ n, s.heap u.1 = some n ∧ intervalOf n.item = u.2) ∧
      order.Pairwise (fun u v => u.2.stop < v.2.start) ∧
        {i | ∃ a, (a, i) ∈ order} = m.items ∧
          ∀ (σ : Type) (callback : Ptr → σ → Int × σ) (priv : σ),
            rbTreeIterate (some s) callback priv = .ok (visit callback (order.map Prod.fst) priv)

private theorem search_implements (holds : Holds s nodes) (key : Nat) :
    ∃ node, rbTreeSearch (some s) key = .ok node ∧
      (node = none ↔ ∀ i ∈ (mapOf nodes holds.sorted).items, ¬ i.Contains key) ∧
        ∀ a, node = some a → ∃ n, s.heap a = some n ∧
          intervalOf n.item ∈ (mapOf nodes holds.sorted).items ∧
            (intervalOf n.item).Contains key ∧
              ∀ i ∈ (mapOf nodes holds.sorted).items, i.Contains key → i = intervalOf n.item := by
  refine ⟨_, rbTreeSearch_holds holds key, ?_, ?_⟩
  · rw [Option.map_eq_none_iff, List.find?_eq_none]
    constructor
    · rintro missing i ⟨u, member, rfl⟩ inside
      exact missing u member (covers_iff.mpr inside)
    · exact fun missing u member cover => missing _ ⟨u, member, rfl⟩ (covers_iff.mp cover)
  · intro a found
    obtain ⟨⟨b, x⟩, first, rfl⟩ := Option.map_eq_some_iff.mp found
    have member := List.mem_of_find?_eq_some first
    have inside := covers_iff.mp (List.find?_some first)
    obtain ⟨⟨t, rep, order, -⟩, -⟩ := id holds
    obtain ⟨n, cell, rfl⟩ := rep.shows.cell_of_mem (order ▸ member)
    refine ⟨n, cell, ⟨_, member, rfl⟩, inside, fun i stored contains => ?_⟩
    exact (mapOf nodes holds.sorted).unique stored ⟨_, member, rfl⟩ contains inside

private theorem insert_implements (holds : Holds s nodes) (i : Interval V) (newNode : Ptr)
    (fresh : Fresh (some s) newNode) :
    ∃ s' node, rbTreeInsert (some s) i.start i.stop i.value newNode = .ok (some s', node) ∧
      (node ≠ none ↔ newNode ≠ none ∧ i.start ≤ i.stop ∧
        ∀ j ∈ (mapOf nodes holds.sorted).items, ¬ i.Overlaps j) ∧
          (node ≠ none → contents s' = insert i (mapOf nodes holds.sorted).items) ∧
            (node = none → contents s' = (mapOf nodes holds.sorted).items) := by
  obtain ⟨r, call, inserted⟩ := rbTreeInsert_holds holds i.start i.stop i.value newNode
    fun a same => fresh s a rfl same
  cases inserted with
  | failed cause =>
    refine ⟨s, none, call, ?_, by simp, fun _ => holds.contents_eq⟩
    simp only [ne_eq, not_true_eq_false, false_iff]
    rintro ⟨allocated, valid, apart⟩
    rcases cause with reversed | ⟨u, member, overlap⟩ | null
    · omega
    · exact apart _ ⟨u, member, rfl⟩ (overlaps_iff.mp overlap)
    · exact allocated null
  | @done s' a pre post valid apart allocated split holds' =>
    refine ⟨s', some a, call, ?_, fun _ => ?_, by simp⟩
    · refine ⟨fun _ => ⟨by simp [allocated], valid, ?_⟩, fun _ => by simp⟩
      rintro j ⟨u, member, rfl⟩ meet
      have := overlaps_iff.mpr meet
      simp [apart u member] at this
    · rw [holds'.contents_eq]
      subst split
      ext j
      simp only [mapOf, List.mem_append, List.mem_cons, Set.mem_ofPred_eq, Set.mem_insert_iff]
      constructor
      · rintro ⟨u, inPre | rfl | inPost, rfl⟩
        · exact .inr ⟨u, .inl inPre, rfl⟩
        · exact .inl rfl
        · exact .inr ⟨u, .inr inPost, rfl⟩
      · rintro (rfl | ⟨u, inPre | inPost, rfl⟩)
        · exact ⟨_, .inr (.inl rfl), rfl⟩
        · exact ⟨u, .inl inPre, rfl⟩
        · exact ⟨u, .inr (.inr inPost), rfl⟩

private theorem remove_implements (holds : Holds s nodes) (key : Nat) :
    ∃ s' ret, rbTreeRemove (some s) key = .ok (some s', ret) ∧
      (ret = 0 ↔ ∃ i ∈ (mapOf nodes holds.sorted).items, i.Contains key) ∧
        (∀ i ∈ (mapOf nodes holds.sorted).items, i.Contains key →
          contents s' = (mapOf nodes holds.sorted).items \ {i}) ∧
            (ret ≠ 0 → contents s' = (mapOf nodes holds.sorted).items) := by
  obtain ⟨r, call, removed⟩ := rbTreeRemove_holds holds key
  cases removed with
  | failed missing =>
    have none' : ∀ i ∈ (mapOf nodes holds.sorted).items, ¬ i.Contains key := by
      rintro i ⟨u, member, rfl⟩ inside
      have := covers_iff.mpr inside
      simp [missing u member] at this
    refine ⟨s, -einval, call, ?_, fun i stored inside => absurd inside (none' i stored),
      fun _ => holds.contents_eq⟩
    refine ⟨fun zero => by simp [einval] at zero, ?_⟩
    rintro ⟨i, stored, inside⟩
    exact absurd inside (none' i stored)
  | @done s' u pre post split found holds' =>
    have inside := covers_iff.mp found
    have member : u ∈ nodes := by simp [split]
    refine ⟨s', 0, call, ?_, fun i stored contains => ?_, by simp⟩
    · exact ⟨fun _ => ⟨_, ⟨u, member, rfl⟩, inside⟩, fun _ => rfl⟩
    · obtain rfl := (mapOf nodes holds.sorted).unique stored ⟨u, member, rfl⟩ contains inside
      rw [holds'.contents_eq]
      have order := holds.sorted
      rw [split] at order
      ext j
      simp only [mapOf, split, Set.mem_sdiff, Set.mem_ofPred_eq, Set.mem_singleton_iff]
      constructor
      · rintro ⟨v, other, rfl⟩
        refine ⟨⟨v, by simp only [List.mem_append, List.mem_cons] at other ⊢; tauto, rfl⟩, ?_⟩
        exact order.interval_ne other
      · rintro ⟨⟨v, all, rfl⟩, differ⟩
        simp only [List.mem_append, List.mem_cons] at all ⊢
        rcases all with inPre | rfl | inPost
        · exact ⟨v, .inl inPre, rfl⟩
        · exact absurd rfl differ
        · exact ⟨v, .inr inPost, rfl⟩

theorem Holds.remove (holds : Holds s nodes) {i : Interval V} {key : Nat} (stored : i ∈ contents s)
    (inside : i.Contains key) :
    ∃ s' nodes', rbTreeRemove (some s) key = .ok (some s', 0) ∧ Holds s' nodes' ∧
      contents s' = contents s \ {i} := by
  obtain ⟨r, call, removed⟩ := rbTreeRemove_holds holds key
  obtain ⟨s', ret, call', found, removes, -⟩ := remove_implements holds key
  rw [holds.contents_eq] at stored ⊢
  obtain rfl : ret = 0 := found.mpr ⟨i, stored, inside⟩
  obtain rfl : r = (some s', 0) := Except.ok.inj (call.symm.trans call')
  cases removed with
  | done split cover holds' => exact ⟨s', _, call, holds', removes i stored inside⟩

theorem Holds.insert (holds : Holds s nodes) (i : Interval V) {a : Addr} (fresh : s.heap a = none)
    (valid : i.start ≤ i.stop) (apart : ∀ j ∈ contents s, ¬ i.Overlaps j) :
    ∃ s' nodes', rbTreeInsert (some s) i.start i.stop i.value (some a) = .ok (some s', some a) ∧
      Holds s' nodes' ∧ contents s' = Insert.insert i (contents s) := by
  rw [holds.contents_eq] at apart ⊢
  have free : Fresh (some s) (some a) := by
    rintro _ _ ⟨⟩ ⟨⟩
    exact fresh
  obtain ⟨r, call, inserted⟩ := rbTreeInsert_holds holds i.start i.stop i.value (some a)
    fun b same => free s b rfl same
  obtain ⟨s', node, call', done, grows, -⟩ := insert_implements holds i (some a) free
  have stored : node ≠ none := done.mpr ⟨by simp, valid, apart⟩
  obtain rfl : r = (some s', node) := Except.ok.inj (call.symm.trans call')
  cases inserted with
  | failed cause => exact absurd rfl stored
  | done _ _ allocated _ holds' =>
    obtain rfl := Option.some.inj allocated
    exact ⟨s', _, call, holds', grows stored⟩

private theorem iterate_implements (holds : Holds s nodes) :
    ∃ order : List (Addr × Interval V),
      (∀ u ∈ order, ∃ n, s.heap u.1 = some n ∧ intervalOf n.item = u.2) ∧
        order.Pairwise (fun u v => u.2.stop < v.2.start) ∧
          {i | ∃ a, (a, i) ∈ order} = (mapOf nodes holds.sorted).items ∧
            ∀ (σ : Type) (callback : Ptr → σ → Int × σ) (priv : σ),
              rbTreeIterate (some s) callback priv =
                .ok (visit callback (order.map Prod.fst) priv) := by
  refine ⟨nodes.map fun u => (u.1, intervalOf u.2), ?_, ?_, ?_, fun σ callback priv => ?_⟩
  · intro u member
    obtain ⟨v, inNodes, rfl⟩ := List.mem_map.mp member
    obtain ⟨⟨t, rep, rfl, -⟩, -⟩ := holds
    obtain ⟨n, cell, same⟩ := rep.shows.cell_of_mem inNodes
    exact ⟨n, cell, congrArg intervalOf same⟩
  · exact List.pairwise_map.mpr holds.sorted.1
  · ext i
    simp [mapOf, eq_comm]
  · rw [rbTreeIterate_holds holds, List.map_map]
    rfl

/-- Every tree reached by insertions and removals implements the map of its intervals. -/
theorem rbTree_run_implements {allocated : Bool} {s : RbTree V}
    (run : TreeRun allocated (some s)) :
    ∃ m : IntervalMap V, Implements s m := by
  obtain ⟨nodes, holds⟩ := run.inv s rfl
  exact ⟨mapOf nodes holds.sorted, holds.contents_eq, search_implements holds,
    insert_implements holds, remove_implements holds, iterate_implements holds⟩

theorem rbTree_run_implements_sample :
    ∃ (s : RbTree Nat) (m : IntervalMap Nat), s.root = some 5 ∧ Implements s m := by
  obtain ⟨s, run, root⟩ := sample_run
  obtain ⟨m, implements⟩ := rbTree_run_implements run
  exact ⟨s, m, root, implements⟩

end OhMyOs.Libs.RedBlackTree
