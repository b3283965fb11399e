/- GID: OhMyOs/Mm/PageAllocator
   generality: I
   digest: The page allocator of mm/page.c as state-passing functions. -/

import OhMyOs.Include.IntrusiveList
import OhMyOs.Include.Bitops

set_option autoImplicit false
set_option relaxedAutoImplicit false

namespace OhMyOs.Mm.PageAllocator

open OhMyOs.Lib.Ring OhMyOs.Include.IntrusiveList OhMyOs.Include.Bitops

def totalPages : Nat := 1024 * 1024

def maxOrder : Nat := 10

/-- The `PAGE_*` flags; the source passes these values as bit numbers. -/
def pageValid : Nat := bit 0
def pageFree : Nat := bit 1
def pageHighmem : Nat := bit 2
def pageSlab : Nat := bit 3

def gfpHighmem : BitVec 32 := 0x01#32

/-- The fields of `struct page` that the buddy allocator uses; the embedded list node
is the cell `.node pfn` of the free-list links. -/
structure Page where
  flags : BitVec 32
  order : Nat

/-- `free_lists` and `highmem_free_lists`. -/
inductive Zone
  | linear
  | highmem
  deriving DecidableEq

/-- The globals of mm/page.c. A `struct page *` is the index of its entry in `pages`;
`bugs` counts the assertions that have failed. -/
structure PageState where
  pages : Nat → Page
  links : Links (Zone × Nat) Nat
  highmemStartPfn : Nat
  bugs : Nat

namespace PageState

def setFlags (s : PageState) (page : Nat) (flags : BitVec 32) : PageState :=
  { s with pages := Function.update s.pages page { s.pages page with flags := flags } }

def setOrder (s : PageState) (page order : Nat) : PageState :=
  { s with pages := Function.update s.pages page { s.pages page with order := order } }

/-- `assert`: a false condition is reported and counted. -/
def assert (s : PageState) (cond : Bool) : PageState :=
  if cond then s else { s with bugs := s.bugs + 1 }

def test (s : PageState) (nr page : Nat) : Bool := testBit nr (s.pages page).flags

end PageState

def pageBuddy (s : PageState) (page : Nat) : Nat := page ^^^ (1 <<< (s.pages page).order)

def freePage (s : PageState) (page order : Nat) : PageState :=
  let s := s.setFlags page (setBit pageFree (s.pages page).flags)
  let s := s.setOrder page order
  if s.test pageHighmem page then
    { s with links := listInsert s.links (.head (.highmem, order)) (.node page) }
  else
    { s with links := listInsert s.links (.head (.linear, order)) (.node page) }

/-- The loop of `init_free_pages`; every round advances by at least one page. -/
def initFreeLoop (start nrPages order : Nat) : Nat → PageState → Nat → PageState × Nat
  | 0, s, count => (s, count)
  | fuel + 1, s, count =>
      if count < nrPages then
        initFreeLoop start nrPages order fuel (freePage s (start + count) order)
          (count + 1 <<< order)
      else (s, count)

def initFreePages (s : PageState) (start nrPages order : Nat) : PageState :=
  let (s, count) := initFreeLoop start nrPages order nrPages s 0
  s.assert (count == nrPages)

def markLoop (highmem : Bool) : Nat → PageState → Nat → PageState
  | 0, s, _ => s
  | n + 1, s, pfn =>
      let s := s.setFlags pfn (setBit pageValid (s.pages pfn).flags)
      let s := if highmem then s.setFlags pfn (setBit pageHighmem (s.pages pfn).flags) else s
      markLoop highmem n s (pfn + 1)

/-- The part of `add_free_pages` after the zone of the range is known. -/
def addFreeZone (s : PageState) (startPfn endPfn : Nat) (highmem : Bool) : PageState :=
  let s := markLoop highmem (endPfn - startPfn) s startPfn
  let splitStart := roundUp startPfn (1 <<< maxOrder)
  let splitEnd := roundDown endPfn (1 <<< maxOrder)
  if splitStart ≥ splitEnd then
    initFreePages s startPfn (wsub endPfn startPfn) 0
  else
    let s := initFreePages s startPfn (wsub splitStart startPfn) 0
    let s := initFreePages s splitStart (wsub splitEnd splitStart) maxOrder
    initFreePages s splitEnd (wsub endPfn splitEnd) 0

/-- `add_free_pages` with `depth` nested calls left. -/
def addFreePagesRec : Nat → PageState → Nat → Nat → PageState
  | depth, s, startPfn, endPfn =>
      let s := s.assert (startPfn ≤ endPfn)
      if startPfn ≥ s.highmemStartPfn then addFreeZone s startPfn endPfn true
      else if endPfn ≤ s.highmemStartPfn then addFreeZone s startPfn endPfn false
      else match depth with
        | 0 => s
        | depth + 1 =>
            let s := addFreePagesRec depth s startPfn s.highmemStartPfn
            addFreePagesRec depth s s.highmemStartPfn endPfn

/-- `add_free_pages`: a range across the zone boundary is cut there once, and neither
half is cut again. -/
def addFreePages (s : PageState) (startPfn endPfn : Nat) : PageState :=
  addFreePagesRec 1 s startPfn endPfn

def getFreeList (gfpMask : BitVec 32) (order : Nat) : Zone × Nat :=
  if gfpMask &&& gfpHighmem ≠ 0#32 then (.highmem, order) else (.linear, order)

/-- The inner loop of `alloc_pages`, which halves the block and frees the upper part. -/
def splitLoop (order page : Nat) : Nat → PageState → PageState
  | 0, s => s
  | fuel + 1, s =>
      if (s.pages page).order > order then
        let s := s.setOrder page ((s.pages page).order - 1)
        let buddy := pageBuddy s page
        let s := s.assert (s.test pageValid buddy)
        splitLoop order page fuel (freePage s buddy (s.pages page).order)
      else s

def allocTake (s : PageState) (i order page : Nat) : PageState :=
  let s := { s with links := listRemove s.links (.node page) }
  let s := s.assert (i == (s.pages page).order)
  let s := splitLoop order page (s.pages page).order s
  s.setFlags page (clearBit pageFree (s.pages page).flags)

/-- The outer loop of `alloc_pages` with `n` lists left. The node found on a list is
always embedded in a page. -/
def allocScan (gfpMask : BitVec 32) (order : Nat) : Nat → PageState → Nat → Option Nat × PageState
  | 0, s, _ => (none, s)
  | n + 1, s, i =>
      let list := getFreeList gfpMask i
      if listEmpty s.links (.head list) then allocScan gfpMask order n s (i + 1)
      else match containerOf (listNext s.links (.head list)) with
        | none => (none, s)
        | some page => (some page, allocTake s i order page)

def allocPages (s : PageState) (gfpMask : BitVec 32) (order : Nat) : Option Nat × PageState :=
  if order > maxOrder then (none, s)
  else allocScan gfpMask order (maxOrder + 1 - order) s order

def mergeLoop : Nat → PageState → Nat → PageState × Nat
  | 0, s, page => (s, page)
  | fuel + 1, s, page =>
      if (s.pages page).order < maxOrder then
        let buddy := pageBuddy s page
        if !s.test pageValid buddy || !s.test pageFree buddy then (s, page)
        else
          let s := { s with links := listRemove s.links (.node buddy) }
          let page := if buddy < page then buddy else page
          mergeLoop fuel (s.setOrder page (((s.pages page).order + 1) % 2 ^ 32)) page
      else (s, page)

/-- Rounds that the loop of `free_pages` never exceeds: the head only moves down inside
one group of `2 ^ MAX_ORDER` pages, and stays in place for at most `MAX_ORDER` rounds. -/
def mergeFuel : Nat := 2 ^ maxOrder * (maxOrder + 1)

def freePages (s : PageState) (page : Nat) : PageState :=
  let (s, page) := mergeLoop mergeFuel s page
  freePage s page (s.pages page).order

def pageInitLoop : Nat → Links (Zone × Nat) Nat → Nat → Links (Zone × Nat) Nat
  | 0, l, _ => l
  | n + 1, l, order =>
      let l := listInit l (.head (.highmem, order))
      pageInitLoop n (listInit l (.head (.linear, order))) (order + 1)

/-- The state after `page_init`: the page array is zeroed at boot, the list nodes hold
whatever they held. -/
def pageInit (links : Links (Zone × Nat) Nat) (highmemStartPfn : Nat) : PageState where
  pages := fun _ => ⟨0#32, 0⟩
  links := pageInitLoop (maxOrder + 1) links 0
  highmemStartPfn := highmemStartPfn
  bugs := 0

end OhMyOs.Mm.PageAllocator
