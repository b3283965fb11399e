/- GID: OhMyOs/Mm/EarlyHeap
   generality: I
   digest: The early buddy heap of mm/kmalloc.c as state-passing functions. -/

import OhMyOs.Include.IntrusiveList

set_option autoImplicit false
set_option relaxedAutoImplicit false

namespace OhMyOs.Mm.EarlyHeap

open OhMyOs.Lib.Ring OhMyOs.Include.IntrusiveList

/-- `MAX_ORDER` of mm/kmalloc.c. -/
def maxOrder : Nat := 12

/-- `struct block`; the embedded list node is the cell `.node index`. -/
structure BlockInfo where
  order : Nat
  free : Bool

/-- The globals `blocks` and `free_lists`, with the count of failed assertions. A
`struct block *` is the index of its entry in `blocks`. -/
structure HeapState where
  blocks : Nat → BlockInfo
  links : Links Nat Nat
  bugs : Nat

namespace HeapState

def setOrder (s : HeapState) (block order : Nat) : HeapState :=
  { s with blocks := Function.update s.blocks block { s.blocks block with order := order } }

def setFree (s : HeapState) (block : Nat) (free : Bool) : HeapState :=
  { s with blocks := Function.update s.blocks block { s.blocks block with free := free } }

/-- `assert`: a false condition is reported and counted. -/
def assert (s : HeapState) (cond : Bool) : HeapState :=
  if cond then s else { s with bugs := s.bugs + 1 }

end HeapState

def blockBuddy (s : HeapState) (block : Nat) : Nat := block ^^^ (1 <<< (s.blocks block).order)

def splitLoop (order block : Nat) : Nat → HeapState → HeapState
  | 0, s => s
  | fuel + 1, s =>
      if (s.blocks block).order > order then
        let s := s.setOrder block ((s.blocks block).order - 1)
        let buddy := blockBuddy s block
        let s := s.setOrder buddy (s.blocks block).order
        let s := s.setFree buddy true
        splitLoop order block fuel
          { s with links := listInsert s.links (.head (s.blocks buddy).order) (.node buddy) }
      else s

def allocTake (s : HeapState) (i order block : Nat) : HeapState :=
  let s := { s with links := listRemove s.links (.node block) }
  let s := s.assert (i == (s.blocks block).order)
  let s := splitLoop order block (s.blocks block).order s
  s.setFree block false

/-- The outer loop of `alloc_blocks` with `n` lists left. The node found on a list is
embedded in a block while the lists are well formed; where it is a list head, `none`
stands for the stray block that the code goes on with. -/
def allocScan (order : Nat) : Nat → HeapState → Nat → Option Nat × HeapState
  | 0, s, _ => (none, s)
  | n + 1, s, i =>
      if listEmpty s.links (.head i) then allocScan order n s (i + 1)
      else match containerOf (listNext s.links (.head i)) with
        | none => (none, s)
        | some block => (some block, allocTake s i order block)

def allocBlocks (s : HeapState) (order : Nat) : Option Nat × HeapState :=
  let s := s.assert (order ≤ maxOrder)
  allocScan order (maxOrder + 1 - order) s order

def mergeLoop : Nat → HeapState → Nat → HeapState × Nat
  | 0, s, block => (s, block)
  | fuel + 1, s, block =>
      if (s.blocks block).order < maxOrder then
        let buddy := blockBuddy s block
        if !(s.blocks buddy).free then (s, block)
        else
          let s := { s with links := listRemove s.links (.node buddy) }
          let block := if buddy < block then buddy else block
          mergeLoop fuel (s.setOrder block (((s.blocks block).order + 1) % 2 ^ 32)) block
      else (s, block)

def mergeFuel : Nat := 2 ^ maxOrder * (maxOrder + 1)

def freeBlocks (s : HeapState) (block : Nat) : HeapState :=
  let (s, block) := mergeLoop mergeFuel s block
  let s := s.setFree block true
  { s with links := listInsert s.links (.head (s.blocks block).order) (.node block) }

def initLoop : Nat → Links Nat Nat → Nat → Links Nat Nat
  | 0, l, _ => l
  | n + 1, l, i => initLoop n (listInit l (.head i)) (i + 1)

/-- The state after `kmalloc_early_init`: the block array is zeroed at boot, the list
nodes hold whatever they held. -/
def kmallocEarlyInit (links : Links Nat Nat) : HeapState :=
  let s : HeapState := ⟨fun _ => ⟨0, false⟩, initLoop (maxOrder + 1) links 0, 0⟩
  let s := s.setOrder 0 maxOrder
  let s := s.setFree 0 true
  { s with links := listInsert s.links (.head maxOrder) (.node 0) }

end OhMyOs.Mm.EarlyHeap
