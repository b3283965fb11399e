/- GID: OhMyOs/Libs/RedBlackTreeHeight
   generality: I
   digest: The trees of libs/rb_tree.c are shallow, and no walk or recursion goes deeper than they
   are high. -/

import Mathlib.Data.Set.Card
import OhMyOs.Libs.RedBlackTreeRuns

set_option autoImplicit false
set_option relaxedAutoImplicit false

namespace OhMyOs.Libs.RedBlackTree

open OhMyOs.Lib.Outcome
open OhMyOs.Lib.RedBlack (Side)
open OhMyOs.Lib.RedBlack.Tree
open OhMyOs.Lib.LinkedTree

variable {V : Type} {s : RbTree V} {t l r : Tree V} {nodes : List (Addr × Item V)} {a : Addr}
  {parent : Ptr} {h : Heap Addr (Item V)} {fuel : Nat}

inductive Descent (h : Heap Addr (Item V)) : Ptr → Nat → Prop
  | null : Descent h none 0
  | down {a : Addr} {n : RbNode V} {k : Nat} (side : Side) (cell : h a = some n)
      (rest : Descent h (n.child side) k) : Descent h (some a) (k + 1)

private theorem descent_le {k : Nat} (shown : Shows h parent t) (path : Descent h t.ptr k) :
    k ≤ t.height := by
  induction t generalizing parent k with
  | nil =>
    cases path
    exact Nat.le_refl 0
  | node a red x l r ihl ihr =>
    obtain ⟨cell, left, right⟩ := shown
    rw [OhMyOs.Lib.RedBlack.Tree.height]
    cases path with
    | down side cell' rest =>
      obtain rfl := Option.some.inj (cell.symm.trans cell')
      cases side with
      | left =>
        have below := ihl left rest
        omega
      | right =>
        have below := ihr right rest
        omega

/-! ### Deletion -/

def freeAll (s : RbTree V) (nodes : List Addr) : RbTree V :=
  { s with heap := fun a => if a ∈ nodes then none else s.heap a }

private theorem kfree_freeAll (s : RbTree V) (a : Addr) (first second : List Addr) :
    kfree (freeAll (freeAll s first) second) (some a) = freeAll s (first ++ a :: second) := by
  simp only [kfree, freeAll, RbTree.mk.injEq, and_self, and_true]
  funext b
  by_cases same : b = a
  · simp [same]
  · by_cases inFirst : b ∈ first
    · simp [same, inFirst]
    · simp [same, inFirst]

private theorem treeDelete_height (shown : Shows s.heap parent t) (nodup : t.addrs.Nodup)
    (enough : t.height < fuel) : treeDelete fuel s t.ptr = .ok (freeAll s t.addrs) := by
  induction t generalizing parent fuel s with
  | nil =>
    obtain ⟨fuel, rfl⟩ : ∃ k, fuel = k + 1 := ⟨fuel - 1, by omega⟩
    simp [treeDelete, freeAll, addrs_nil]
  | node a red x l r ihl ihr =>
    obtain ⟨fuel, rfl⟩ : ∃ k, fuel = k + 1 := ⟨fuel - 1, by omega⟩
    rw [OhMyOs.Lib.RedBlack.Tree.height] at enough
    obtain ⟨⟨notLeft, -⟩, nodupL, nodupR, apart⟩ := nodup_node.mp nodup
    obtain ⟨cell, left, right⟩ := id shown
    -- when the left subtree is gone, the node and its right subtree are still there
    have here : (freeAll s l.addrs).heap a = some ⟨x, red, parent, l.ptr, r.ptr⟩ :=
      (if_neg notLeft).trans cell
    have other : Shows (freeAll s l.addrs).heap (some a) r :=
      right.frame fun b member => if_neg fun inLeft => apart inLeft member
    have child : childOf (freeAll s l.addrs) .right (some a) = .ok r.ptr := by
      simp [childOf, load_some here, ok_bind, pure_eq_ok, Cell.child]
    simp only [treeDelete, ptr_node, Option.isNone_some, Bool.false_eq_true, if_false, ok_bind,
      childOf_left shown, ihl left nodupL (show l.height < fuel by omega), child,
      ihr other nodupR (show r.height < fuel by omega), pure_eq_ok, kfree_freeAll, addrs_node]

/-! ### Depth -/

/-- No way down from the root passes more than `depth` nodes, and with that many nested calls (and
the last one, for NULL) every walk and every recursion ends with its result. -/
structure Shallow (s : RbTree V) (depth : Nat) : Prop where
  paths : ∀ k, Descent s.heap s.root k → k ≤ depth
  search : ∀ key, ∃ found, searchFrom (depth + 1) s s.root key = .ok found ∧
    rbTreeSearch (some s) key = .ok found
  validate : ∃ blacks, treeValidate (depth + 1) s s.root none = .ok (blacks, none) ∧
    treeValidate loopFuel s s.root none = .ok (blacks, none)
  iterate : ∀ (σ : Type) (callback : Ptr → σ → Int × σ) (priv : σ), ∃ result,
    treeIterate callback (depth + 1) s s.root priv = .ok result ∧
      rbTreeIterate (some s) callback priv = .ok result
  delete : ∃ s', treeDelete (depth + 1) s s.root = .ok s' ∧
    rbTreeDelete (some s) = .ok (some s'.heap) ∧ ∀ a, Reach s.heap s.root a → s'.heap a = none

private theorem ncard_reach (rep : Rep s t) :
    {a | Reach s.heap s.root a}.ncard = t.addrs.length := by
  have same : {a | Reach s.heap s.root a} = (t.addrs.toFinset : Set Addr) := by
    ext a
    rw [Set.mem_ofPred_eq, rep.root_eq, reach_iff rep.shows, Finset.mem_coe, List.mem_toFinset]
  rw [same, Set.ncard_coe_finset, List.toFinset_card_of_nodup rep.nodup]

private theorem shallow_of_height {depth n : Nat} (rep : Rep s t) (sorted : Sorted t.inorder)
    (bal : Balanced t n) (high : t.height ≤ depth) : Shallow s depth := by
  have long : t.height < loopFuel :=
    Nat.lt_of_le_of_lt (height_le_length t) (length_lt_loopFuel rep.nodup)
  have short : t.height < depth + 1 := Nat.lt_succ_of_le high
  have root := rep.root_eq
  refine ⟨fun k path => ?_, fun key => ?_, ?_, fun σ callback priv => ?_, ?_⟩
  · exact Nat.le_trans (descent_le rep.shows (root ▸ path)) high
  · rw [rbTreeSearch, root]
    exact ⟨_, searchFrom_height key rep.shows sorted short,
      searchFrom_height key rep.shows sorted long⟩
  · rw [root]
    exact ⟨n, treeValidate_height rep.shows sorted bal short,
      treeValidate_height rep.shows sorted bal long⟩
  · rw [rbTreeIterate, root]
    exact ⟨_, treeIterate_height callback priv rep.shows short,
      treeIterate_height callback priv rep.shows long⟩
  · simp only [rbTreeDelete, root]
    refine ⟨_, treeDelete_height rep.shows rep.nodup short, ?_, fun a reach => ?_⟩
    · rw [treeDelete_height rep.shows rep.nodup long]
      rfl
    · exact if_pos ((reach_iff rep.shows).mp reach)

/-- Every tree reached from `rb_tree_create` by insertions and removals is at most twice the
logarithm of its number of nodes high, and so deep go `rb_tree_search` and the recursions of
`tree_validate`, `tree_iterate` and `tree_delete`. -/
theorem rbTree_run_shallow {allocated : Bool} {s : RbTree V} (run : TreeRun allocated (some s)) :
    Shallow s (2 * Nat.log 2 ({a | Reach s.heap s.root a}.ncard + 1)) := by
  obtain ⟨nodes, ⟨t, rep, rfl, ⟨n, bal⟩, black⟩, sorted⟩ := run.inv s rfl
  refine shallow_of_height rep sorted bal ?_
  rw [ncard_reach rep]
  exact bal.height_le_log black

theorem rbTree_run_shallow_sample : ∃ s : RbTree Nat, s.root = some 5 ∧
    Shallow s (2 * Nat.log 2 ({a | Reach s.heap s.root a}.ncard + 1)) := by
  obtain ⟨s, run, root⟩ := sample_run
  exact ⟨s, root, rbTree_run_shallow run⟩

end OhMyOs.Libs.RedBlackTree
