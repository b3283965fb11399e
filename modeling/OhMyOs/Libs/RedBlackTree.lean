/- GID: OhMyOs/Libs/RedBlackTree
   generality: I
   digest: libs/rb_tree.c: the interval red-black tree over a heap of nodes. -/

import Mathlib.Algebra.GroupWithZero.Nat
import OhMyOs.Include.Constants
import OhMyOs.Lib.LinkedTree

set_option autoImplicit false
set_option relaxedAutoImplicit false

namespace OhMyOs.Libs.RedBlackTree

open OhMyOs.Include.Constants
open OhMyOs.Lib.RedBlack (Side)
open OhMyOs.Lib.LinkedTree (Cell Heap adjust)

/-- Pointers are 32 bits wide; `none` is NULL. -/
abbrev Addr := Fin (2 ^ 32)
abbrev Ptr := Option Addr

instance addrNeZero : NeZero (2 ^ 32) := ⟨by decide⟩

/-- What stops a call: a NULL or dangling pointer is followed, an assert fails, a loop has run
longer than there are addresses. -/
inductive Fault
  | nullPointer | assertion | endless
  deriving DecidableEq, Repr

/-- The part of `struct rb_node` that does not link it into the tree. -/
structure Item (V : Type) where
  id : Nat
  start : Nat
  stop : Nat
  value : V
  deriving DecidableEq, Repr

abbrev RbNode (V : Type) := Cell Addr (Item V)

structure RbTree (V : Type) where
  heap : Heap Addr (Item V)
  total : Nat
  root : Ptr

/-- More rounds than any walk over distinct addresses takes. -/
def loopFuel : Nat := 2 ^ 32 + 2

variable {V : Type}

def load (s : RbTree V) (node : Ptr) : Except Fault (RbNode V) :=
  match node.bind s.heap with
  | some n => .ok n
  | none => .error .nullPointer

def store (s : RbTree V) (node : Ptr) (g : RbNode V → RbNode V) : Except Fault (RbTree V) := do
  let _ ← load s node
  return { s with heap := adjust s.heap node g }

def kfree (s : RbTree V) : Ptr → RbTree V
  | none => s
  | some a => { s with heap := Function.update s.heap a none }

def parentOf (s : RbTree V) (node : Ptr) : Except Fault Ptr := do
  return (← load s node).parent

/-- `node->left` or `node->right` -/
def childOf (s : RbTree V) (side : Side) (node : Ptr) : Except Fault Ptr := do
  return (← load s node).child side

def setColour (red : Bool) (s : RbTree V) (node : Ptr) : Except Fault (RbTree V) :=
  if node.isNone then .ok s else store s node (Cell.setRed red)

def setRed (s : RbTree V) (node : Ptr) : Except Fault (RbTree V) := setColour true s node

def setBlack (s : RbTree V) (node : Ptr) : Except Fault (RbTree V) := setColour false s node

def isRed (s : RbTree V) (node : Ptr) : Except Fault Bool :=
  if node.isNone then .ok false else do return (← load s node).red

def isBlack (s : RbTree V) (node : Ptr) : Except Fault Bool := do
  return !(← isRed s node)

def setParent (s : RbTree V) (node parent : Ptr) : Except Fault (RbTree V) :=
  if node.isNone then .ok s else store s node (Cell.setParent parent)

/-- Which branch `if (node == parent->left) … else …` takes. -/
def whichSide (s : RbTree V) (node parent : Ptr) : Except Fault Side := do
  return if node = (← load s parent).left then .left else .right

/-- `if (node == parent->left) parent->left = child; else parent->right = child;` -/
def relink (s : RbTree V) (parent node child : Ptr) : Except Fault (RbTree V) := do
  store s parent (Cell.setChild (← whichSide s node parent) child)

/-! ### Rotations -/

def rotateTop (s : RbTree V) (nodex nodey : Ptr) : Except Fault (RbTree V) :=
  if nodex = s.root then .ok { s with root := nodey }
  else do relink s (← parentOf s nodex) nodex nodey

def rotate (side : Side) (s : RbTree V) (nodex : Ptr) : Except Fault (RbTree V) := do
  let nodey ← childOf s side.other nodex
  let inner ← childOf s side nodey
  let s ← store s nodex (Cell.setChild side.other inner)
  let s ← setParent s inner nodex
  let s ← store s nodey (Cell.setParent (← parentOf s nodex))
  let s ← rotateTop s nodex nodey
  let s ← store s nodey (Cell.setChild side nodex)
  store s nodex (Cell.setParent nodey)

def rotateLeft (s : RbTree V) (nodex : Ptr) : Except Fault (RbTree V) := rotate .left s nodex

def rotateRight (s : RbTree V) (nodex : Ptr) : Except Fault (RbTree V) := rotate .right s nodex

/-! ### Validation -/

def assert (expr : Bool) : Except Fault Unit :=
  if expr then .ok () else .error .assertion

def validateLeft (s : RbTree V) (node : Ptr) : Except Fault Unit := do
  let n ← load s node
  match n.left with
  | none => return ()
  | some left =>
    let l ← load s (some left)
    assert (l.item.stop < n.item.start)
    assert (l.parent = node)

def validateRight (s : RbTree V) (node : Ptr) : Except Fault Unit := do
  let n ← load s node
  match n.right with
  | none => return ()
  | some right =>
    let r ← load s (some right)
    assert (n.item.stop < r.item.start)
    assert (r.parent = node)

/-- `assert(!(is_red(node) && is_red(child)));` -/
def validateColours (s : RbTree V) (node child : Ptr) : Except Fault Unit := do
  if ← isRed s node then assert (!(← isRed s child)) else return ()

def nodeValidate (s : RbTree V) (node : Ptr) : Except Fault Unit :=
  if node.isNone then .ok () else do
    validateLeft s node
    validateRight s node
    validateColours s node (← childOf s .left node)
    validateColours s node (← childOf s .right node)

def treeValidate : Nat → RbTree V → Ptr → Ptr → Except Fault (Int × Ptr)
  | 0, _, _, _ => .error .endless
  | fuel + 1, s, root, failNode =>
    if root.isNone then .ok (0, failNode)
    else if failNode.isSome then .ok (-einval, failNode)
    else do
      nodeValidate s root
      let (left, failNode) ← treeValidate fuel s (← childOf s .left root) failNode
      if left < 0 then return (left, failNode)
      else
        let (right, failNode) ← treeValidate fuel s (← childOf s .right root) failNode
        if right < 0 then return (right, failNode)
        else if left ≠ right then return (-einval, root)
        else return (left + (if ← isBlack s root then 1 else 0), failNode)

def rbTreeValidate (s : RbTree V) : Except Fault Unit :=
  if s.root.isNone then .ok () else do
    assert (← isBlack s s.root)
    let (ret, _) ← treeValidate loopFuel s s.root none
    assert (0 ≤ ret)

/-! ### Search -/

def searchFrom : Nat → RbTree V → Ptr → Nat → Except Fault Ptr
  | 0, _, _, _ => .error .endless
  | fuel + 1, s, node, key =>
    if node.isNone then .ok none else do
      let n ← load s node
      if key < n.item.start then searchFrom fuel s n.left key
      else if key > n.item.stop then searchFrom fuel s n.right key
      else return node

/-- A NULL tree is followed without a check. -/
def rbTreeSearch (tree : Option (RbTree V)) (key : Nat) : Except Fault Ptr :=
  match tree with
  | none => .error .nullPointer
  | some s => searchFrom loopFuel s s.root key

/-! ### Insertion -/

def insertTurn (side : Side) (s : RbTree V) (nodex : Ptr) : Except Fault (RbTree V × Ptr) := do
  if nodex = (← childOf s side.other (← parentOf s nodex)) then
    let nodex ← parentOf s nodex
    let s ← rotate side s nodex
    return (s, nodex)
  else return (s, nodex)

/-- The loop body, where the parent is the child of the grandparent on `side`. -/
def insertFixupSide (side : Side) (s : RbTree V) (nodex : Ptr) :
    Except Fault (RbTree V × Ptr) := do
  let nodey ← childOf s side.other (← parentOf s (← parentOf s nodex))
  if ← isRed s nodey then
    let s ← setBlack s nodey
    let s ← setBlack s (← parentOf s nodex)
    let s ← setRed s (← parentOf s (← parentOf s nodex))
    return (s, ← parentOf s (← parentOf s nodex))
  else
    let (s, nodex) ← insertTurn side s nodex
    let s ← setBlack s (← parentOf s nodex)
    let s ← setRed s (← parentOf s (← parentOf s nodex))
    let s ← rotate side.other s (← parentOf s (← parentOf s nodex))
    return (s, nodex)

/-- `nodex != *root && is_red(nodex->parent)` -/
def insertFixupGoes (s : RbTree V) (nodex : Ptr) : Except Fault Bool :=
  if nodex = s.root then .ok false else do isRed s (← parentOf s nodex)

def insertFixup : Nat → RbTree V → Ptr → Except Fault (RbTree V)
  | 0, _, _ => .error .endless
  | fuel + 1, s, nodex => do
    if ← insertFixupGoes s nodex then
      let parent ← parentOf s nodex
      let side ← whichSide s parent (← parentOf s parent)
      let (s, nodex) ← insertFixupSide side s nodex
      insertFixup fuel s nodex
    else setBlack s s.root

/-- The walk down to the place of a new interval: its parent, or `none` on an overlap. -/
def insertPlace : Nat → RbTree V → Nat → Nat → Ptr → Ptr → Except Fault (Option Ptr)
  | 0, _, _, _, _, _ => .error .endless
  | fuel + 1, s, start, stop, node, parent =>
    if node.isNone then .ok (some parent) else do
      let n ← load s node
      if start > n.item.stop then insertPlace fuel s start stop n.right node
      else if stop < n.item.start then insertPlace fuel s start stop n.left node
      else return none

/-- Hang the new node below its parent; `none` is the jump to `fail`. -/
def insertLink (s : RbTree V) (parent newNode : Ptr) : Except Fault (Option (RbTree V)) :=
  if parent.isNone then .ok (some { s with root := newNode }) else do
    let n ← load s newNode
    let p ← load s parent
    if n.item.stop < p.item.start then return some (← store s parent (Cell.setChild .left newNode))
    else if n.item.start > p.item.stop then
      return some (← store s parent (Cell.setChild .right newNode))
    else return none

/-- The new node, filled in; `a` is what kmalloc returned. -/
def insertNode (s : RbTree V) (start stop : Nat) (value : V) (parent : Ptr) (a : Addr) : RbTree V :=
  { s with
    heap := Function.update s.heap a
      (some ⟨⟨s.total, start, stop, value⟩, true, parent, none, none⟩)
    total := (s.total + 1) % 2 ^ 32 }

/-- `newNode` is what kmalloc returns, if it is called. -/
def rbTreeInsert (tree : Option (RbTree V)) (start stop : Nat) (value : V) (newNode : Ptr) :
    Except Fault (Option (RbTree V) × Ptr) :=
  match tree with
  | none => .ok (none, none)
  | some s =>
    if start > stop then .ok (some s, none) else do
      match ← insertPlace loopFuel s start stop s.root none, newNode with
      | none, _ => return (some s, none)
      | some _, none => return (some s, none)
      | some parent, some a =>
        let s := insertNode s start stop value parent a
        match ← insertLink s parent newNode with
        | none => return (some (kfree s newNode), none)
        | some s =>
          let s ← insertFixup loopFuel s newNode
          rbTreeValidate s
          return (some s, newNode)

/-! ### Removal -/

/-- A red sibling is rotated away first; the sibling afterwards is returned. -/
def removeSibling (side : Side) (s : RbTree V) (parent : Ptr) :
    Except Fault (RbTree V × Ptr) := do
  let nodey ← childOf s side.other parent
  if ← isRed s nodey then
    let s ← setBlack s nodey
    let s ← setRed s parent
    let s ← rotate side s parent
    return (s, ← childOf s side.other parent)
  else return (s, nodey)

/-- `!nodey || (is_black(nodey->left) && is_black(nodey->right))` -/
def nephewsBlack (s : RbTree V) (nodey : Ptr) : Except Fault Bool :=
  if nodey.isNone then .ok true else do
    if ← isBlack s (← childOf s .left nodey) then isBlack s (← childOf s .right nodey)
    else return false

/-- `is_red(nodey->left) && is_black(nodey->right)`, or its mirror image. -/
def onlyInnerRed (side : Side) (s : RbTree V) (nodey : Ptr) : Except Fault Bool := do
  if ← isRed s (← childOf s side nodey) then isBlack s (← childOf s side.other nodey)
  else return false

/-- A red inner nephew is rotated outwards; the sibling afterwards is returned. -/
def removeInner (side : Side) (s : RbTree V) (parent nodey : Ptr) :
    Except Fault (RbTree V × Ptr) := do
  if ← onlyInnerRed side s nodey then
    let s ← setRed s nodey
    let s ← setBlack s (← childOf s side nodey)
    let s ← rotate side.other s nodey
    return (s, ← childOf s side.other parent)
  else return (s, nodey)

/-- The loop body, where `nodex` is the child of `parent` on `side`; the new `nodex` is returned. -/
def removeFixupSide (side : Side) (s : RbTree V) (parent : Ptr) :
    Except Fault (RbTree V × Ptr) := do
  let (s, nodey) ← removeSibling side s parent
  if ← nephewsBlack s nodey then
    let s ← setRed s nodey
    return (s, parent)
  else
    let (s, nodey) ← removeInner side s parent nodey
    let s ← store s nodey (Cell.setRed (← load s parent).red)
    let s ← setBlack s parent
    let s ← setBlack s (← childOf s side.other nodey)
    let s ← rotate side s parent
    return (s, s.root)

/-- `nodex != *root && is_black(nodex)` -/
def removeFixupGoes (s : RbTree V) (nodex : Ptr) : Except Fault Bool :=
  if nodex = s.root then .ok false else isBlack s nodex

def removeFixup : Nat → RbTree V → Ptr → Ptr → Except Fault (RbTree V)
  | 0, _, _, _ => .error .endless
  | fuel + 1, s, parent, nodex => do
    if ← removeFixupGoes s nodex then
      assert (!(nodex.isNone && parent.isNone))
      -- without a parent a round changes nothing
      if parent.isNone then removeFixup fuel s parent nodex
      else
        let side ← whichSide s nodex parent
        let (s, nodex) ← removeFixupSide side s parent
        removeFixup fuel s (← parentOf s nodex) nodex
    else setBlack s nodex

/-- `while (nodey->left) nodey = nodey->left;` -/
def leftmost : Nat → RbTree V → Ptr → Except Fault Ptr
  | 0, _, _ => .error .endless
  | fuel + 1, s, nodey => do
    let left ← childOf s .left nodey
    if left.isNone then return nodey else leftmost fuel s left

/-- The node that is unlinked: `nodez` itself or its successor. -/
def removeTarget (s : RbTree V) (nodez : Ptr) : Except Fault Ptr := do
  let z ← load s nodez
  if z.left.isNone || z.right.isNone then return nodez else leftmost loopFuel s z.right

def attach (s : RbTree V) (parent node child : Ptr) : Except Fault (RbTree V) :=
  if parent.isNone then .ok { s with root := child } else relink s parent node child

/-- Unlink `nodey`, whose place its only child `nodex` takes. -/
def unlinkNode (s : RbTree V) (nodey nodex : Ptr) : Except Fault (RbTree V) := do
  let s ← setParent s nodex (← parentOf s nodey)
  attach s (← parentOf s nodey) nodey nodex

def replaceNode (s : RbTree V) (nodez nodey : Ptr) : Except Fault (RbTree V) := do
  let s ← store s nodey (Cell.setParent (← parentOf s nodez))
  let s ← attach s (← parentOf s nodez) nodez nodey
  let s ← store s nodey (Cell.setRed (← load s nodez).red)
  let s ← store s nodey (Cell.setChild .left (← childOf s .left nodez))
  let s ← store s nodey (Cell.setChild .right (← childOf s .right nodez))
  let s ← setParent s (← childOf s .left nodez) nodey
  setParent s (← childOf s .right nodez) nodey

def removeReplace (s : RbTree V) (nodez nodey : Ptr) : Except Fault (RbTree V × Ptr) := do
  let nodexParent ← parentOf s nodey
  if nodey ≠ nodez then
    let s ← replaceNode s nodez nodey
    return (s, if nodexParent = nodez then nodey else nodexParent)
  else return (s, nodexParent)

def removeNode (s : RbTree V) (nodez : Ptr) : Except Fault (RbTree V) := do
  let nodey ← removeTarget s nodez
  let y ← load s nodey
  let nodex := if y.left.isSome then y.left else y.right
  let s ← unlinkNode s nodey nodex
  let fixup ← isBlack s nodey
  let (s, nodexParent) ← removeReplace s nodez nodey
  let s ← (if fixup then removeFixup loopFuel s nodexParent nodex else .ok s)
  let s := kfree s nodez
  rbTreeValidate s
  return s

def rbTreeRemove (tree : Option (RbTree V)) (key : Nat) : Except Fault (Option (RbTree V) × Int) :=
  match tree with
  | none => .ok (none, -einval)
  | some s => do
    let nodez ← searchFrom loopFuel s s.root key
    if nodez.isNone then return (some s, -einval)
    else return (some (← removeNode s nodez), 0)

/-! ### Creation, deletion and iteration -/

/-- The flag says whether kmalloc succeeds. -/
def rbTreeCreate (allocated : Bool) : Option (RbTree V) :=
  if allocated then some ⟨fun _ => none, 0, none⟩ else none

def treeDelete : Nat → RbTree V → Ptr → Except Fault (RbTree V)
  | 0, _, _ => .error .endless
  | fuel + 1, s, root =>
    if root.isNone then .ok s else do
      let s ← treeDelete fuel s (← childOf s .left root)
      let s ← treeDelete fuel s (← childOf s .right root)
      return kfree s root

def rbTreeDelete (tree : Option (RbTree V)) : Except Fault (Option (Heap Addr (Item V))) :=
  match tree with
  | none => .ok none
  | some s => do return some (← treeDelete loopFuel s s.root).heap

/-- The callback gets the node and reads and changes what `priv` points to. -/
def treeIterate {σ : Type} (callback : Ptr → σ → Int × σ) :
    Nat → RbTree V → Ptr → σ → Except Fault (Int × σ)
  | 0, _, _, _ => .error .endless
  | fuel + 1, s, node, priv =>
    if node.isNone then .ok (0, priv) else do
      let (ret, priv) ← treeIterate callback fuel s (← childOf s .left node) priv
      if ret ≠ 0 then return (ret, priv)
      else
        let (ret, priv) := callback node priv
        if ret ≠ 0 then return (ret, priv)
        else treeIterate callback fuel s (← childOf s .right node) priv

def rbTreeIterate {σ : Type} (tree : Option (RbTree V)) (callback : Ptr → σ → Int × σ) (priv : σ) :
    Except Fault (Int × σ) :=
  match tree with
  | none => .error .nullPointer
  | some s => treeIterate callback loopFuel s s.root priv

end OhMyOs.Libs.RedBlackTree
