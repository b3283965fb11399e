/- GID: OhMyOs/Libs/RedBlackTreeRuns
   generality: I
   digest: Every run of insertions and removals from rb_tree_create keeps a red-black tree. -/

import OhMyOs.Lib.Runs
import OhMyOs.Libs.RedBlackTreeCalls

set_option autoImplicit false
set_option relaxedAutoImplicit false

namespace OhMyOs.Libs.RedBlackTree

open OhMyOs.Lib.Outcome
open OhMyOs.Lib.Runs
open OhMyOs.Lib.RedBlack (Side Path fill up Hole exists_path)
open OhMyOs.Lib.RedBlack.Tree
open OhMyOs.Lib.LinkedTree

variable {V : Type} {s : RbTree V} {t : Tree V} {nodes : List (Addr × Item V)} {a : Addr}
  {parent : Ptr} {h : Heap Addr (Item V)}

/-! ### The invariant in terms of pointers -/

/-- The node can be reached from the pointer by following child pointers. -/
inductive Reach (h : Heap Addr (Item V)) : Ptr → Addr → Prop
  | here {a : Addr} {n : RbNode V} (cell : h a = some n) : Reach h (some a) a
  | down {a b : Addr} {n : RbNode V} (side : Side) (cell : h a = some n)
      (rest : Reach h (n.child side) b) : Reach h (some a) b

/-- A path of child pointers down to NULL passes the given number of black nodes. -/
inductive NullPath (h : Heap Addr (Item V)) : Ptr → Nat → Prop
  | null : NullPath h none 0
  | down {a : Addr} {n : RbNode V} {k : Nat} (side : Side) (cell : h a = some n)
      (rest : NullPath h (n.child side) k) :
      NullPath h (some a) (k + if n.red then 0 else 1)

def Stored (s : RbTree V) (a : Addr) (n : RbNode V) : Prop :=
  Reach s.heap s.root a ∧ s.heap a = some n

structure RedBlackInv (s : RbTree V) : Prop where
  rootBlack : ∀ a, s.root = some a → ∃ n, s.heap a = some n ∧ n.red = false ∧ n.parent = none
  parents : ∀ a n side b, Stored s a n → n.child side = some b →
    ∃ m, s.heap b = some m ∧ m.parent = some a
  noRedRed : ∀ a n side b m, Stored s a n → n.red = true → n.child side = some b →
    s.heap b = some m → m.red = false
  blackHeight : ∃! k, NullPath s.heap s.root k
  valid : ∀ a n, Stored s a n → n.item.start ≤ n.item.stop
  leftBelow : ∀ a n b m, Stored s a n → Reach s.heap n.left b → s.heap b = some m →
    m.item.stop < n.item.start
  rightAbove : ∀ a n b m, Stored s a n → Reach s.heap n.right b → s.heap b = some m →
    n.item.stop < m.item.start

theorem reach_iff (shown : Shows h parent t) : Reach h t.ptr a ↔ a ∈ t.addrs := by
  induction t generalizing parent with
  | nil =>
    refine ⟨fun reach => ?_, fun member => ?_⟩
    · cases reach
    · simp [addrs_nil] at member
  | node b red x l r ihl ihr =>
    obtain ⟨cell, left, right⟩ := shown
    simp only [addrs_node, List.mem_append, List.mem_cons]
    constructor
    · intro reach
      cases reach with
      | here => exact .inr (.inl rfl)
      | down side cell' rest =>
        obtain rfl := Option.some.inj (cell.symm.trans cell')
        cases side with
        | left => exact .inl ((ihl left).mp rest)
        | right => exact .inr (.inr ((ihr right).mp rest))
    · rintro (inLeft | rfl | inRight)
      · exact .down .left cell ((ihl left).mpr inLeft)
      · exact .here cell
      · exact .down .right cell ((ihr right).mpr inRight)

private theorem nullPath_iff {n k : Nat} (shown : Shows h parent t) (bal : Balanced t n) :
    NullPath h t.ptr k ↔ k = n := by
  induction bal generalizing parent k with
  | nil =>
    refine ⟨fun path => ?_, fun same => same ▸ .null⟩
    cases path
    rfl
  | red _ _ _ _ ihl ihr =>
    obtain ⟨cell, left, right⟩ := shown
    constructor
    · intro path
      cases path with
      | down side cell' rest =>
        obtain rfl := Option.some.inj (cell.symm.trans cell')
        cases side with
        | left => exact (ihl left).mp rest
        | right => exact (ihr right).mp rest
    · rintro rfl
      exact .down .left cell ((ihl left).mpr rfl)
  | black _ _ ihl ihr =>
    obtain ⟨cell, left, right⟩ := shown
    constructor
    · intro path
      cases path with
      | down side cell' rest =>
        obtain rfl := Option.some.inj (cell.symm.trans cell')
        cases side with
        | left => exact congrArg (· + 1) ((ihl left).mp rest)
        | right => exact congrArg (· + 1) ((ihr right).mp rest)
    · rintro rfl
      exact .down .left cell ((ihl left).mpr rfl)

private theorem stored_inside {n : RbNode V} (rep : Rep s t) (stored : Stored s a n) :
    ∃ p l r, t = fill p (.node a n.red n.item l r) ∧ n = ⟨n.item, n.red, up p, l.ptr, r.ptr⟩ ∧
      Shows s.heap (some a) l ∧ Shows s.heap (some a) r := by
  obtain ⟨reach, cell⟩ := stored
  rw [rep.root_eq, reach_iff rep.shows] at reach
  obtain ⟨p, red, x, l, r, rfl⟩ := exists_path reach
  obtain ⟨⟨-, cell', left, right⟩, -, -⟩ := linked_fill.mp rep
  obtain rfl := Option.some.inj (cell.symm.trans cell')
  exact ⟨p, l, r, rfl, rfl, left, right⟩

private theorem child_shows {l r : Tree V} {n : RbNode V} {side : Side} {b : Addr} {p : Ptr}
    (fields : n = ⟨n.item, n.red, p, l.ptr, r.ptr⟩) (left : Shows h (some a) l)
    (right : Shows h (some a) r) (child : n.child side = some b) :
    ∃ u, (u = l ∨ u = r) ∧ u.ptr = some b ∧ Shows h (some a) u := by
  rw [fields] at child
  cases side with
  | left => exact ⟨l, .inl rfl, child, left⟩
  | right => exact ⟨r, .inr rfl, child, right⟩

private theorem root_cell {b : Addr} (shown : Shows h parent t) (root : t.ptr = some b) :
    ∃ m, h b = some m ∧ m.parent = parent ∧ m.red = t.isRed := by
  cases t with
  | nil => cases root
  | node c red x l r =>
    obtain rfl := Option.some.inj root
    exact ⟨_, shown.1, rfl, rfl⟩

theorem item_of_reach {b : Addr} {m : RbNode V} (shown : Shows h parent t)
    (reach : Reach h t.ptr b) (cell : h b = some m) : (b, m.item) ∈ t.inorder := by
  obtain ⟨⟨c, x⟩, member, rfl⟩ := List.mem_map.mp ((reach_iff shown).mp reach)
  obtain ⟨n, cell', rfl⟩ := shown.cell_of_mem member
  obtain rfl := Option.some.inj (cell.symm.trans cell')
  exact member

private theorem Holds.redBlackInv (holds : Holds s nodes) : RedBlackInv s := by
  obtain ⟨⟨t, rep, rfl, ⟨height, bal⟩, black⟩, sorted⟩ := holds
  refine ⟨?_, ?_, ?_, ?_, ?_, ?_, ?_⟩
  · intro a root
    obtain ⟨m, cell, parent, colour⟩ := root_cell rep.shows (rep.root_eq.symm.trans root)
    exact ⟨m, cell, colour.trans black, parent⟩
  · intro a n side b stored child
    obtain ⟨p, l, r, -, fields, left, right⟩ := stored_inside rep stored
    obtain ⟨u, -, root, shown⟩ := child_shows fields left right child
    obtain ⟨m, cell, parent, -⟩ := root_cell shown root
    exact ⟨m, cell, parent⟩
  · intro a n side b m stored red child cell
    obtain ⟨p, l, r, rfl, fields, left, right⟩ := stored_inside rep stored
    obtain ⟨u, which, root, shown⟩ := child_shows fields left right child
    obtain ⟨m', cell', -, colour⟩ := root_cell shown root
    obtain rfl := Option.some.inj (cell.symm.trans cell')
    obtain ⟨k, sub, -, -⟩ := Hole.of_fill bal black
    rw [red] at sub
    cases sub with
    | red _ _ leftBlack rightBlack =>
      rcases which with rfl | rfl
      · exact colour.trans leftBlack
      · exact colour.trans rightBlack
  · exact ⟨height, rep.root_eq ▸ (nullPath_iff rep.shows bal).mpr rfl, fun k path =>
      (nullPath_iff rep.shows bal).mp (rep.root_eq ▸ path)⟩
  · intro a n stored
    obtain ⟨p, l, r, rfl, -⟩ := stored_inside rep stored
    exact (sorted_node (sorted_fill sorted)).2.1
  · intro a n b m stored reach cell
    obtain ⟨p, l, r, rfl, fields, left, -⟩ := stored_inside rep stored
    rw [fields] at reach
    exact (sorted_node (sorted_fill sorted)).2.2.1 _ (item_of_reach left reach cell)
  · intro a n b m stored reach cell
    obtain ⟨p, l, r, rfl, fields, -, right⟩ := stored_inside rep stored
    rw [fields] at reach
    exact (sorted_node (sorted_fill sorted)).2.2.2 _ (item_of_reach right reach cell)

/-! ### Runs -/

inductive TreeOp (V : Type)
  | insert (start stop : Nat) (value : V) (newNode : Ptr)
  | remove (key : Nat)

def treeCall (tree : Option (RbTree V)) : TreeOp V → Except Fault (Option (RbTree V))
  | .insert start stop value newNode => do
    return (← rbTreeInsert tree start stop value newNode).1
  | .remove key => do return (← rbTreeRemove tree key).1

def treeStep (tree : Option (RbTree V)) (op : TreeOp V) : Option (Option (RbTree V)) :=
  (treeCall tree op).toOption

def Fresh (tree : Option (RbTree V)) (newNode : Ptr) : Prop :=
  ∀ s a, tree = some s → newNode = some a → s.heap a = none

def KmallocFresh (tree : Option (RbTree V)) : TreeOp V → Prop
  | .insert _ _ _ newNode => Fresh tree newNode
  | .remove _ => True

def TreeRun (allocated : Bool) (tree : Option (RbTree V)) : Prop :=
  Run treeStep KmallocFresh (rbTreeCreate allocated) tree

def TreeInv (tree : Option (RbTree V)) : Prop := ∀ s, tree = some s → ∃ nodes, Holds s nodes

theorem rbTreeCreate_inv (allocated : Bool) :
    TreeInv (rbTreeCreate allocated : Option (RbTree V)) := by
  intro s created
  cases allocated with
  | false => cases created
  | true =>
    obtain rfl := Option.some.inj created
    exact ⟨[], holds_empty⟩

private theorem treeCall_inv {tree : Option (RbTree V)} (inv : TreeInv tree) (op : TreeOp V)
    (fresh : KmallocFresh tree op) : Ensures (treeCall tree op) TreeInv := by
  cases tree with
  | none =>
    cases op with
    | insert => exact .ok inv
    | remove => exact .ok inv
  | some s =>
    obtain ⟨nodes, holds⟩ := inv s rfl
    cases op with
    | insert start stop value newNode =>
      refine Ensures.bind (rbTreeInsert_holds holds start stop value newNode fun a same =>
        fresh s a rfl same) ?_
      intro r inserted
      cases inserted with
      | failed => exact .ok inv
      | done _ _ _ _ holds' =>
        refine .ok fun s' same => ?_
        obtain rfl := Option.some.inj same
        exact ⟨_, holds'⟩
    | remove key =>
      refine Ensures.bind (rbTreeRemove_holds holds key) ?_
      intro r removed
      cases removed with
      | failed => exact .ok inv
      | done _ _ holds' =>
        refine .ok fun s' same => ?_
        obtain rfl := Option.some.inj same
        exact ⟨_, holds'⟩

theorem TreeRun.inv {allocated : Bool} {tree : Option (RbTree V)} (run : TreeRun allocated tree) :
    TreeInv tree := by
  refine Run.invariant run (rbTreeCreate_inv allocated) ?_
  intro tree op tree' inv fresh step
  obtain ⟨next, call, inv'⟩ := treeCall_inv inv op fresh
  rw [treeStep, call] at step
  exact Option.some.inj step ▸ inv'

/-- In every reachable state the tree is a red-black tree with correct parent pointers and
ordered intervals, validation accepts it, and every further call returns without a fault. -/
theorem rbTree_run_valid {allocated : Bool} {tree : Option (RbTree V)}
    (run : TreeRun allocated tree) :
    (∀ s, tree = some s → RedBlackInv s ∧ rbTreeValidate s = .ok ()) ∧
      ∀ op, KmallocFresh tree op → ∃ tree', treeCall tree op = .ok tree' := by
  refine ⟨fun s same => ?_, fun op fresh => ?_⟩
  · obtain ⟨nodes, holds⟩ := run.inv s same
    exact ⟨holds.redBlackInv, rbTreeValidate_sound holds.sound holds.sorted⟩
  · obtain ⟨tree', call, -⟩ := treeCall_inv run.inv op fresh
    exact ⟨tree', call⟩

def kmallocFresh (tree : Option (RbTree V)) : TreeOp V → Bool
  | .insert _ _ _ (some a) => tree.all fun s => (s.heap a).isNone
  | _ => true

theorem kmallocFresh_sound {tree : Option (RbTree V)} {op : TreeOp V}
    (ok : kmallocFresh tree op = true) : KmallocFresh tree op := by
  cases op with
  | remove => trivial
  | insert start stop value newNode =>
    rintro s a rfl rfl
    simpa [kmallocFresh] using ok

def sampleOps : List (TreeOp Nat) :=
  [.insert 20 29 1 (some 1), .insert 0 9 2 (some 2),
    .insert 5 6 3 (some 3), .insert 40 49 4 (some 4),
    .insert 30 39 5 (some 5), .remove 25]

theorem sample_run : ∃ s : RbTree Nat, TreeRun true (some s) ∧ s.root = some 5 := by
  have done : (exec treeStep kmallocFresh (rbTreeCreate true) sampleOps).map
      (fun tree => tree.map fun s => s.root) = some (some (some 5)) := by decide +kernel
  obtain ⟨tree, executed, root⟩ := Option.map_eq_some_iff.mp done
  obtain ⟨s, rfl, top⟩ := Option.map_eq_some_iff.mp root
  exact ⟨s, (Run.of_exec executed).mono fun _ _ => kmallocFresh_sound, top⟩

theorem rbTree_run_valid_sample :
    ∃ s : RbTree Nat, s.root = some 5 ∧ RedBlackInv s ∧ rbTreeValidate s = .ok () := by
  obtain ⟨s, run, root⟩ := sample_run
  exact ⟨s, root, (rbTree_run_valid run).1 s rfl⟩

end OhMyOs.Libs.RedBlackTree
