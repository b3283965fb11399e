/- GID: OhMyOs/Mm/Slab
   generality: I
   digest: The slab allocator of mm/slab.c and the caches of mm/kmalloc.c. -/

import OhMyOs.Include.Constants
import OhMyOs.Include.Log2
import OhMyOs.Include.Memory
import OhMyOs.Mm.PageAllocator

set_option autoImplicit false
set_option relaxedAutoImplicit false

namespace OhMyOs.Mm.Slab

open OhMyOs.Include.Constants
open OhMyOs.Lib.Ring OhMyOs.Include.IntrusiveList OhMyOs.Include.Bitops OhMyOs.Include.Log2
  OhMyOs.Include.Memory
open OhMyOs.Mm.PageAllocator (pageHighmem pageSlab)

/-- `MIN_SIZE`, `KMEM_CACHE_MAX_ORDER` and `KMEM_CACHE_MAX_SIZE` of mm/kmalloc.c. -/
def minSize : Nat := 8
def kmemCacheMaxOrder : Nat := 7
def kmemCacheMaxSize : Nat := minSize <<< kmemCacheMaxOrder

/-- The orders that `kmalloc` computes for the caches and for the page allocator. -/
def cacheOrder (size : Nat) : Nat := ilog2Roundup (roundUp size minSize / minSize)
def pageOrder (size : Nat) : Nat := ilog2Roundup (roundUp size pageSize / pageSize)

theorem cacheOrder_le {size : Nat} (small : size ≤ kmemCacheMaxSize) :
    cacheOrder size ≤ kmemCacheMaxOrder := by
  have limit : size ≤ 1024 := small
  have round := (roundUp_bounds (a := size) (n := minSize) (by decide)
    (by simp only [minSize]; omega)).2
  have units : roundUp size minSize / minSize ≤ 2 ^ kmemCacheMaxOrder := by
    have whole : minSize ∣ roundUp size minSize := dvd_roundUp _ _
    simp only [minSize, kmemCacheMaxOrder] at *
    omega
  have fits : roundUp size minSize / minSize ≤ 2 ^ 32 := units.trans (by decide)
  exact (ilog2Roundup_bounds fits).2 _ units

/-- The two list heads of a cache. -/
inductive SlabList
  | slabsFull | slabsPartial
  deriving DecidableEq

/-- The fields of `struct page` that the slab allocator uses; a cache is its index in
`kmalloc_cache`, and `none` is NULL. -/
structure Page where
  flags : BitVec 32
  sMem : Nat
  freelist : Nat
  active : Nat
  total : Nat
  slabCache : Option Nat

/-- The page structs, the caches with their sizes, lists and locks, the bytes of the linear
mapping, and the number of failed assertions. -/
structure SlabState where
  pages : Nat → Page
  size : Nat → Nat
  links : Links (SlabList × Nat) Nat
  locked : Nat → Bool
  mem : Nat → BitVec 8
  bugs : Nat

namespace SlabState

def setPage (s : SlabState) (page : Nat) (g : Page → Page) : SlabState :=
  { s with pages := Function.update s.pages page (g (s.pages page)) }

def assert (s : SlabState) (cond : Bool) : SlabState :=
  if cond then s else { s with bugs := s.bugs + 1 }

/-- `spin_lock` by the only CPU: it never returns if the lock is held. -/
def spinLock (s : SlabState) (cache : Nat) : Option SlabState :=
  if s.locked cache then none else some { s with locked := Function.update s.locked cache true }

def spinUnlock (s : SlabState) (cache : Nat) : SlabState :=
  { s with locked := Function.update s.locked cache false }

end SlabState

def pageToVirt (page : Nat) : Nat := physToVirt (pageSize * page)

def virtToPage (virt : Nat) : Nat := virtToPhys virt >>> pageShift

def isVmallocAddr (addr : Nat) : Bool := vmallocStart ≤ addr ∧ addr < vmallocEnd

/-- `page_address`; `vmap` is what mapping a highmem page returns. -/
def pageAddress (s : SlabState) (page vmap : Nat) : Nat :=
  if !testBit pageHighmem (s.pages page).flags then pageToVirt page else vmap

def indexToObj (s : SlabState) (cache page idx : Nat) : Nat :=
  (s.pages page).sMem + s.size cache * idx

def objToIndex (s : SlabState) (cache page obj : Nat) : Nat :=
  wsub obj (s.pages page).sMem / s.size cache

/-- The loop that numbers the slots; `freelist[i] = i` keeps the low byte. -/
def fillFreelist (mem : Nat → BitVec 8) (freelist total : Nat) : Nat → BitVec 8 :=
  (List.range total).foldl (fun mem i => Function.update mem (freelist + i) (BitVec.ofNat 8 i)) mem

def slabPageInit (s : SlabState) (cache page vmap : Nat) : SlabState × Int :=
  let s := s.setPage page fun p => { p with sMem := pageAddress s page vmap }
  let sMem := (s.pages page).sMem
  if sMem = 0 then (s, -enomem)
  else
    let total := pageSize / s.size cache
    let freelist := sMem + pageSize - total
    let s := s.setPage page fun p =>
      { p with
        freelist := freelist
        total := (pageSize - total) / s.size cache
        active := 0
        slabCache := some cache }
    let s := { s with mem := fillFreelist s.mem freelist total }
    (s.setPage page fun p => { p with flags := setBit pageSlab p.flags }, 0)

def slabPageDeinit (s : SlabState) (page : Nat) : SlabState :=
  s.setPage page fun p =>
    { p with
      freelist := 0
      total := 0
      active := 0
      slabCache := none
      flags := clearBit pageSlab p.flags }

def allocBlock (s : SlabState) (cache page : Nat) : SlabState × Nat :=
  let s := s.assert ((s.pages page).active < (s.pages page).total)
  let index := (s.mem ((s.pages page).freelist + (s.pages page).active)).toNat
  let s := s.setPage page fun p => { p with active := (p.active + 1) % 2 ^ 16 }
  let obj := indexToObj s cache page index
  if (s.pages page).active = (s.pages page).total then
    let links := listRemove s.links (.node page)
    ({ s with links := listInsert links (.head (.slabsFull, cache)) (.node page) }, obj)
  else (s, obj)

/-- The page goes back to the page allocator once nothing on it is in use. -/
def freeBlock (s : SlabState) (cache page obj : Nat) : SlabState :=
  let index := objToIndex s cache page obj
  let s := s.assert (0 < (s.pages page).active)
  let s := s.setPage page fun p => { p with active := (p.active + (2 ^ 16 - 1)) % 2 ^ 16 }
  let slot := (s.pages page).freelist + (s.pages page).active
  let s := { s with mem := Function.update s.mem slot (BitVec.ofNat 8 index) }
  if (s.pages page).active = 0 then
    slabPageDeinit { s with links := listRemove s.links (.node page) } page
  else s

/-- The page that `free_block` passes to `free_pages` on its way out, if it does. -/
def freeBlockReturns (s : SlabState) (page : Nat) : Option Nat :=
  if ((s.pages page).active + (2 ^ 16 - 1)) % 2 ^ 16 = 0 then some page else none

/-- The state and the object, 0 for NULL. `newPage` is what `alloc_page` returns if it is
called; following a NULL page ends the run, as does a lock that is never released. -/
def kmemCacheAlloc (s : SlabState) (cache : Nat) (newPage : Option Nat) (vmap : Nat) :
    Option (SlabState × Nat) := do
  let s ← s.spinLock cache
  if listEmpty s.links (.head (.slabsPartial, cache)) then
    let page ← newPage
    match slabPageInit s cache page vmap with
    | (s, 0) =>
      let s := { s with links := listInsert s.links (.head (.slabsPartial, cache)) (.node page) }
      let (s, obj) := allocBlock s cache page
      return (s.spinUnlock cache, obj)
    | (s, _) => return (s, 0)
  else
    let page ← containerOf (listNext s.links (.head (.slabsPartial, cache)))
    let (s, obj) := allocBlock s cache page
    return (s.spinUnlock cache, obj)

def kmemCacheFree (s : SlabState) (cache obj : Nat) : Option SlabState := do
  let s := s.assert (!isVmallocAddr obj)
  let page := virtToPage obj
  let s := s.assert ((s.pages page).slabCache = some cache ∧
    !testBit pageHighmem (s.pages page).flags)
  let s ← s.spinLock cache
  return (freeBlock s cache page obj).spinUnlock cache

/-- The page that `kmem_cache_free` gives back to the page allocator, if any. -/
def kmemCacheFreeReturns (s : SlabState) (obj : Nat) : Option Nat :=
  freeBlockReturns s (virtToPage obj)

def kmemCacheCreate (s : SlabState) (cache size : Nat) : SlabState × Int :=
  if size > pageSize then (s, -einval)
  else
    let links := listInit s.links (.head (.slabsFull, cache))
    let links := listInit links (.head (.slabsPartial, cache))
    ({ s with
      links := links
      size := Function.update s.size cache size
      locked := Function.update s.locked cache false }, 0)

def kmallocInit (s : SlabState) : SlabState :=
  (List.range (kmemCacheMaxOrder + 1)).foldl
    (fun s i => (kmemCacheCreate s i (minSize <<< i)).1) s

end OhMyOs.Mm.Slab
