/- GID: OhMyOs/Mm/Vmalloc
   generality: I
   digest: The virtual address areas of mm/vmalloc.c. -/

import OhMyOs.Include.IntrusiveList
import OhMyOs.Include.Log2
import OhMyOs.Include.Memory
import OhMyOs.Libs.RedBlackTree

set_option autoImplicit false
set_option relaxedAutoImplicit false

namespace OhMyOs.Mm.Vmalloc

open OhMyOs.Lib.Ring OhMyOs.Include.IntrusiveList OhMyOs.Include.Bitops OhMyOs.Include.Memory
open OhMyOs.Include.Log2
open OhMyOs.Libs.RedBlackTree (RbTree Ptr rbTreeInsert rbTreeRemove rbTreeCreate loopFuel)

def maxVmaOrder : Nat := 20

/-- The fields of `struct vm_area` that hold no link; `stop` is `end`. -/
structure VmArea where
  start : Nat
  stop : Nat
  free : Bool

inductive Fault
  | assertion
  | lockHeld
  | wildPointer
  | endless
  | tree (fault : OhMyOs.Libs.RedBlackTree.Fault)

/-- The areas by address, their `node` fields with `vma_list`, their `free_node` fields with
`free_vma_lists`, the tree, the lock, and the areas that are allocated. -/
structure VmState where
  area : Nat → VmArea
  vmaList : Links Unit Nat
  freeVmaLists : Links Nat Nat
  vmaTree : Option (RbTree Nat)
  vmaLock : Bool
  heap : List Nat

def assert (expr : Bool) : Except Fault Unit :=
  if expr then .ok () else .error .assertion

namespace VmState

def setArea (s : VmState) (vma : Nat) (g : VmArea → VmArea) : VmState :=
  { s with area := Function.update s.area vma (g (s.area vma)) }

/-- `spin_lock(&vma_lock)` by the only CPU. -/
def spinLock (s : VmState) : Except Fault VmState :=
  if s.vmaLock then .error .lockHeld else .ok { s with vmaLock := true }

def spinUnlock (s : VmState) : VmState := { s with vmaLock := false }

end VmState

def vmaLength (s : VmState) (vma : Nat) : Nat := wsub (s.area vma).stop (s.area vma).start

def vmaPrev (s : VmState) (vma : Nat) : Option Nat := containerOf (s.vmaList.prev (.node vma))

def vmaNext (s : VmState) (vma : Nat) : Option Nat := containerOf (s.vmaList.next (.node vma))

/-! ### `free_vma` -/

/-- The two loops of `free_vma`. -/
inductive Way
  | prev | next

def neighbour (s : VmState) : Way → Nat → Option Nat
  | .prev => vmaPrev s
  | .next => vmaNext s

/-- The adjacency assert of either loop. -/
def adjacent (s : VmState) (vma other : Nat) : Way → Bool
  | .prev => (s.area other).stop = (s.area vma).start
  | .next => (s.area vma).stop = (s.area other).start

/-- `vma->start = prev->start` or `vma->end = next->end` -/
def extend (s : VmState) (vma other : Nat) : Way → VmState
  | .prev => s.setArea vma fun a => { a with start := (s.area other).start }
  | .next => s.setArea vma fun a => { a with stop := (s.area other).stop }

def absorbOne (way : Way) (s : VmState) (vma other : Nat) : VmState :=
  let s := extend s vma other way
  { s with
    vmaList := listRemove s.vmaList (.node other)
    freeVmaLists := listRemove s.freeVmaLists (.node other)
    heap := s.heap.erase other }

/-- `while ((prev = vma_prev(vma)) && prev->free)`, and the same with `next`. -/
def absorb (way : Way) : Nat → VmState → Nat → Except Fault VmState
  | 0, _, _ => .error .endless
  | fuel + 1, s, vma =>
    match neighbour s way vma with
    | none => .ok s
    | some other =>
      if (s.area other).free then do
        assert (adjacent s vma other way)
        absorb way fuel (absorbOne way s vma other) vma
      else .ok s

def freeVma (s : VmState) (vma : Option Nat) : Except Fault VmState :=
  match vma with
  | none => .error .assertion
  | some vma => do
    assert (vmallocStart ≤ (s.area vma).start ∧ (s.area vma).stop < vmallocEnd)
    let s ← s.spinLock
    let (tree, _) ← (rbTreeRemove s.vmaTree (s.area vma).start).mapError .tree
    let s := { s with vmaTree := tree }
    let s ← absorb .prev loopFuel s vma
    let s ← absorb .next loopFuel s vma
    return (s.setArea vma fun a => { a with free := true }).spinUnlock

/-! ### `alloc_vma` -/

/-- Split off what is left of the area above `len` bytes. -/
def splitVma (s : VmState) (vma vmaBuddy len : Nat) : Except Fault VmState := do
  let s := s.setArea vmaBuddy fun a => { a with stop := (s.area vma).stop }
  let s := s.setArea vma fun a => { a with stop := ((s.area vma).start + len) % 2 ^ 32 }
  let s := s.setArea vmaBuddy fun a => { a with start := (s.area vma).stop, free := true }
  let buddyOrder := ilog2 (vmaLength s vmaBuddy >>> pageShift)
  assert (buddyOrder ≤ maxVmaOrder)
  return { s with
    vmaList := listInsert s.vmaList (.node vma) (.node vmaBuddy)
    freeVmaLists := listInsert s.freeVmaLists (.head buddyOrder) (.node vmaBuddy)
    heap := vmaBuddy :: s.heap }

/-- The end of the branch that has found an area; the result of `rb_tree_insert`, for which
`newNode` is allocated, is not looked at. -/
def takeVma (s : VmState) (vma : Nat) (newNode : Ptr) : Except Fault VmState := do
  let s := { s with freeVmaLists := listRemove s.freeVmaLists (.node vma) }
  let s := s.setArea vma fun a => { a with free := false }
  let start := (s.area vma).start
  let (tree, _) ←
    (rbTreeInsert s.vmaTree start (wsub (s.area vma).stop 1) vma newNode).mapError .tree
  return { s with vmaTree := tree }

/-- The first list of order `order` or more that is not empty. -/
def findOrder (s : VmState) (order : Nat) : Option Nat :=
  (List.range' order (maxVmaOrder + 1 - order)).find? fun i => !listEmpty s.freeVmaLists (.head i)

/-- `vmaBuddy` and `newNode` are what kmalloc returns for the rest of the area and for the tree
node; `vma` is the uninitialised local variable. -/
def allocVma (s : VmState) (len : Nat) (vma vmaBuddy : Option Nat) (newNode : Ptr) :
    Except Fault (VmState × Option Nat) := do
  let order := ilog2Roundup (len >>> pageShift)
  let s ← s.spinLock
  match findOrder s order with
  | none => return (s.spinUnlock, vma)
  | some i =>
    match containerOf (listNext s.freeVmaLists (.head i)) with
    | none => .error .wildPointer
    | some vma =>
      assert ((s.area vma).free && len ≤ vmaLength s vma)
      if (len + pageSize) % 2 ^ 32 ≤ vmaLength s vma then
        match vmaBuddy with
        | none => return (s.spinUnlock, none)
        | some vmaBuddy =>
          let s ← splitVma s vma vmaBuddy len
          let s ← takeVma s vma newNode
          return (s.spinUnlock, some vma)
      else
        let s ← takeVma s vma newNode
        return (s.spinUnlock, some vma)

/-! ### `vmalloc_init` -/

def initLists (links : Links Nat Nat) : Links Nat Nat :=
  (List.range (maxVmaOrder + 1)).foldl (fun links order => listInit links (.head order)) links

/-- `vma` is what kmalloc returns, and the flag says whether the tree can be allocated. -/
def vmallocInit (s : VmState) (vma : Option Nat) (created : Bool) : Except Fault VmState := do
  let s :=
    { s with freeVmaLists := initLists s.freeVmaLists, vmaList := listInit s.vmaList (.head ()) }
  match vma with
  | none => .error .assertion
  | some vma =>
    let s := s.setArea vma fun _ => ⟨vmallocStart, vmallocEnd, true⟩
    let order := ilog2 (vmaLength s vma >>> pageShift)
    let s := { s with
      vmaList := listInsert s.vmaList (.head ()) (.node vma)
      freeVmaLists := listInsert s.freeVmaLists (.head order) (.node vma)
      heap := vma :: s.heap }
    let tree : Option (RbTree Nat) := rbTreeCreate created
    assert tree.isSome
    return { s with vmaTree := tree, vmaLock := false }

end OhMyOs.Mm.Vmalloc
