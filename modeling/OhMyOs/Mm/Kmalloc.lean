/- GID: OhMyOs/Mm/Kmalloc
   generality: I
   digest: kmalloc and kfree of mm/kmalloc.c; a freed pointer goes back to its allocator. -/

import OhMyOs.Mm.EarlyHeapRuns
import OhMyOs.Mm.MemorySlots
import OhMyOs.Mm.SlabCounts

set_option autoImplicit false
set_option relaxedAutoImplicit false

namespace OhMyOs.Mm.Kmalloc

open OhMyOs.Lib.Ring OhMyOs.Lib.Runs OhMyOs.Lib.Dyadic
open OhMyOs.Include.Bitops OhMyOs.Include.Log2 OhMyOs.Include.Memory
open OhMyOs.Include.IntrusiveList
open OhMyOs.Mm.PageAllocator (pageHighmem pageSlab)
open OhMyOs.Mm.MemorySlots (physToPfn roundUpPage)
open OhMyOs.Mm.EarlyHeap OhMyOs.Mm.EarlyHeapRuns
open OhMyOs.Mm.Slab OhMyOs.Mm.SlabSafety OhMyOs.Mm.SlabCounts

/-- `MAX_SIZE` of mm/kmalloc.c. -/
def maxSize : Nat := minSize <<< maxOrder

/-- Where the linker puts `block_buffer` and the symbol `end`. -/
structure Placement where
  blockBuffer : Nat
  kernelEnd : Nat
  base : kernelVirtBase ≤ blockBuffer
  below : blockBuffer + maxSize ≤ kernelEnd
  linear : kernelEnd ≤ kernelVirtBase + physHighmemStart

namespace Placement

/-- `kernel_end_pfn` as `scan_memory_slot` sets it. -/
def kernelEndPfn (place : Placement) : Nat :=
  physToPfn (roundUpPage (virtToPhys place.kernelEnd))

/-- `block_buffer + MAX_SIZE` -/
def bufferEnd (place : Placement) : Nat := place.blockBuffer + maxSize

end Placement

/-- The globals of mm/kmalloc.c, with the page structs the caches use. -/
structure KmallocState where
  early : HeapState
  slab : SlabState
  initKmemCache : Bool

def KmallocState.bugs (s : KmallocState) : Nat := s.early.bugs + s.slab.bugs

/-- The allocator that a pointer comes from, with what that allocator returned. -/
inductive Origin
  | early (block : Block)
  | slab (cache obj : Nat)
  | pages (block : Block)
  deriving DecidableEq

def isEarlyBlockAddr (place : Placement) (addr : Nat) : Bool :=
  place.blockBuffer ≤ addr ∧ addr ≤ (place.blockBuffer + maxSize) % 2 ^ 32

def indexToAddr (place : Placement) (index : Nat) : Nat :=
  (place.blockBuffer + index * minSize) % 2 ^ 32

def addrToIndex (place : Placement) (addr : Nat) : Nat := wsub addr place.blockBuffer / minSize

def Origin.ptr (place : Placement) : Origin → Nat
  | .early block => indexToAddr place block.base
  | .slab _ obj => obj
  | .pages block => pageToVirt block.base

def kmallocEarly (s : HeapState) (size : Nat) : HeapState × Option Origin :=
  let order := ilog2Roundup (size / minSize)
  match allocBlocks s order with
  | (none, s) => (s, none)
  | (some block, s) => (s, some (.early ⟨block, order⟩))

def kfreeEarly (place : Placement) (s : HeapState) (ptr : Nat) : HeapState :=
  let offset := wsub ptr place.blockBuffer
  let s := s.assert (offset < maxSize ∧ offset &&& (minSize - 1) = 0)
  freeBlocks s (addrToIndex place ptr)

/-- The outer `none` is a call that does not return, the inner one is NULL. `newPage` is what
`alloc_page` or `alloc_pages` returns if it is called. -/
def kmalloc (s : KmallocState) (size : Nat) (newPage : Option Nat) (vmap : Nat) :
    Option (KmallocState × Option Origin) :=
  if !s.initKmemCache then
    let (early, origin) := kmallocEarly s.early size
    some ({ s with early := early }, origin)
  else if size ≤ kmemCacheMaxSize then do
    let order := cacheOrder size
    let slab := s.slab.assert (order ≤ kmemCacheMaxOrder)
    let (slab, obj) ← kmemCacheAlloc slab order newPage vmap
    return ({ s with slab := slab }, if obj = 0 then none else some (.slab order obj))
  else some (s, newPage.map fun page => .pages ⟨page, pageOrder size⟩)

/-- The function that `kfree` hands the pointer to: `kfree_early`, `kmem_cache_free` with a
cache, or `free_pages` on a page. -/
inductive Route
  | early
  | slab (cache : Nat)
  | pages (page : Nat)
  deriving DecidableEq

/-- Giving the block back to the page allocator changes nothing here. A NULL cache has no lock,
so the call does not return. -/
def kfree (place : Placement) (s : KmallocState) (ptr : Nat) : Option (KmallocState × Route) :=
  if isEarlyBlockAddr place ptr then
    some ({ s with early := kfreeEarly place s.early ptr }, .early)
  else
    let page := virtToPage ptr
    if testBit pageSlab (s.slab.pages page).flags then do
      let slab := s.slab.assert ((s.slab.pages page).slabCache ≠ none)
      let cache ← (slab.pages page).slabCache
      let slab ← kmemCacheFree slab cache ptr
      return ({ s with slab := slab }, .slab cache)
    else some (s, .pages page)

/-! ### Runs -/

/-- The allocators with what they have handed out: blocks of the early heap, objects with their
caches, and page blocks. -/
structure KmallocRun where
  state : KmallocState
  out : List Block
  objs : List (Nat × Nat)
  blocks : List Block

def Origin.Live (r : KmallocRun) : Origin → Prop
  | .early block => block ∈ r.out
  | .slab cache obj => (cache, obj) ∈ r.objs
  | .pages block => block ∈ r.blocks

instance (r : KmallocRun) (origin : Origin) : Decidable (origin.Live r) :=
  match origin with
  | .early block => inferInstanceAs (Decidable (block ∈ r.out))
  | .slab cache obj => inferInstanceAs (Decidable ((cache, obj) ∈ r.objs))
  | .pages block => inferInstanceAs (Decidable (block ∈ r.blocks))

def KmallocRun.add (r : KmallocRun) : Option Origin → KmallocRun
  | none => r
  | some (.early block) => { r with out := block :: r.out }
  | some (.slab cache obj) => { r with objs := (cache, obj) :: r.objs }
  | some (.pages block) => { r with blocks := block :: r.blocks }

def KmallocRun.remove (r : KmallocRun) : Origin → KmallocRun
  | .early block => { r with out := r.out.erase block }
  | .slab cache obj => { r with objs := r.objs.erase (cache, obj) }
  | .pages block => { r with blocks := r.blocks.erase block }

inductive KmallocOp
  | kmalloc (size : Nat) (newPage : Option Nat) (vmap : Nat)
  | kmallocInit
  | kfree (origin : Origin)

/-- One call; `memory_init` calls `kmalloc_init` once, and only live pointers are freed. -/
def kmallocStep (place : Placement) (r : KmallocRun) : KmallocOp → Option KmallocRun
  | .kmalloc size newPage vmap =>
    (kmalloc r.state size newPage vmap).map fun (s, origin) => { r with state := s }.add origin
  | .kmallocInit =>
    if r.state.initKmemCache then none
    else some
      { r with
        state := { r.state with slab := kmallocInit r.state.slab, initKmemCache := true } }
  | .kfree origin =>
    if origin.Live r then
      (kfree place r.state (origin.ptr place)).map fun (s, _) => { r with state := s }.remove origin
    else none

def wantedBlock (size page : Nat) : Block :=
  ⟨page, if size ≤ kmemCacheMaxSize then 0 else pageOrder size⟩

/-- A block for GFP_NORMAL lies between `kernel_end_pfn` and the end of the linear mapping, and
none of its pages is in use. -/
def freshBlock (place : Placement) (r : KmallocRun) (block : Block) : Bool :=
  place.kernelEndPfn ≤ block.base ∧ block.stop ≤ linearPages ∧
    testBit pageHighmem (r.state.slab.pages block.base).flags = false ∧
      (∀ i < 2 ^ block.order, isSlab r.state.slab (block.base + i) = false) ∧
        ∀ other ∈ r.blocks, block.Apart other

/-- What the page allocator is assumed to return. -/
def allowed (place : Placement) (r : KmallocRun) : KmallocOp → Bool
  | .kmalloc size (some page) _ => freshBlock place r (wantedBlock size page)
  | _ => true

/-- No page starts where `block_buffer` ends, and a block of the early heap is merged with
buddies of the order it is merging only. -/
def calm (place : Placement) (r : KmallocRun) : KmallocOp → Bool
  | .kmalloc _ (some page) _ => pageToVirt page ≠ place.bufferEnd
  | .kfree (.early block) =>
    mergesMatch r.state.early block.base (r.state.early.blocks block.base).order
  | _ => true

/-- The state after `kmalloc_early_init`; list nodes, caches and page structs hold whatever they
held. -/
def kmallocBoot (links : Links Nat Nat) (s : SlabState) : KmallocRun :=
  ⟨⟨kmallocEarlyInit links, s, false⟩, [], [], []⟩

/-- `kfree` of each live pointer returns, no assertion fails, and the pointer reaches
`kfree_early`, `kmem_cache_free` with a cache or `free_pages` with a page exactly if it is from
there. -/
def ReturnsHome (place : Placement) (r : KmallocRun) : Prop :=
  ∀ origin : Origin, origin.Live r → ∃ s route,
    kfree place r.state (origin.ptr place) = some (s, route) ∧
      (route = .early ↔ ∃ block, origin = .early block) ∧
        (∀ cache, route = .slab cache ↔ ∃ obj, origin = .slab cache obj) ∧
          (∀ page, route = .pages page ↔ ∃ order, origin = .pages ⟨page, order⟩) ∧
            s.bugs = r.state.bugs

/-! ### Addresses -/

variable {place : Placement} {r : KmallocRun} {block : Block} {cache obj page size : Nat}

private theorem bufferEnd_fits (place : Placement) : place.bufferEnd < 2 ^ 32 := by
  have below := place.below
  have linear := place.linear
  unfold Placement.bufferEnd
  simp only [kernelVirtBase, physHighmemStart] at linear
  omega

private theorem isEarlyBlockAddr_iff {addr : Nat} :
    isEarlyBlockAddr place addr = true ↔ place.blockBuffer ≤ addr ∧ addr ≤ place.bufferEnd := by
  have fits := bufferEnd_fits place
  unfold Placement.bufferEnd at *
  rw [isEarlyBlockAddr, decide_eq_true_iff, Nat.mod_eq_of_lt fits]

private theorem bufferEnd_le (above : place.kernelEndPfn ≤ page) (linear : page < linearPages) :
    place.bufferEnd ≤ pageToVirt page := by
  have base := place.base
  have below := place.below
  have top := place.linear
  have phys : virtToPhys place.kernelEnd = place.kernelEnd - kernelVirtBase := by
    apply wsub_eq
    · omega
    · simp only [kernelVirtBase, physHighmemStart] at top
      omega
  have round : virtToPhys place.kernelEnd ≤ roundUpPage (virtToPhys place.kernelEnd) := by
    apply (roundUp_bounds (by decide) _).1
    rw [phys]
    simp only [kernelVirtBase, physHighmemStart, pageSize] at *
    omega
  have pages : pageSize ∣ roundUpPage (virtToPhys place.kernelEnd) := dvd_roundUp _ _
  rw [pageToVirt_eq linear]
  unfold Placement.kernelEndPfn physToPfn at above
  rw [Nat.shiftRight_eq_div_pow] at above
  unfold Placement.bufferEnd
  simp only [pageShift, pageSize] at *
  omega

theorem early_addr (place : Placement) {index : Nat} (inside : index < 2 ^ maxOrder) :
    indexToAddr place index = place.blockBuffer + index * minSize ∧
      wsub (indexToAddr place index) place.blockBuffer = index * minSize ∧
        index * minSize < maxSize ∧ addrToIndex place (indexToAddr place index) = index := by
  have fits := bufferEnd_fits place
  have small : index * minSize < maxSize := by
    simp only [maxSize, minSize, maxOrder, Nat.shiftLeft_eq] at *
    omega
  have addr : indexToAddr place index = place.blockBuffer + index * minSize := by
    apply Nat.mod_eq_of_lt
    unfold Placement.bufferEnd at fits
    omega
  have offset : wsub (indexToAddr place index) place.blockBuffer = index * minSize := by
    unfold Placement.bufferEnd at fits
    rw [addr, wsub_eq (by omega) (by omega), Nat.add_sub_cancel_left]
  refine ⟨addr, offset, small, ?_⟩
  rw [addrToIndex, offset]
  exact Nat.mul_div_cancel _ (by decide)

/-! ### Freeing -/

private theorem mergeLoop_bugs (fuel : Nat) : ∀ (s : HeapState) (block : Nat),
    (mergeLoop fuel s block).1.bugs = s.bugs := by
  induction fuel with
  | zero =>
    intro s block
    rfl
  | succ fuel ih =>
    intro s block
    unfold mergeLoop
    split
    · dsimp only
      split
      · rfl
      · rw [ih]
        rfl
    · rfl

private theorem freeBlocks_bugs (s : HeapState) (block : Nat) :
    (freeBlocks s block).bugs = s.bugs :=
  mergeLoop_bugs mergeFuel s block

private theorem kfreeEarly_eq (s : HeapState) {index : Nat} (inside : index < 2 ^ maxOrder) :
    kfreeEarly place s (indexToAddr place index) = freeBlocks s index := by
  obtain ⟨-, offset, small, back⟩ := early_addr place inside
  have aligned : index * minSize &&& (minSize - 1) = 0 := by
    rw [show minSize - 1 = 2 ^ 3 - 1 from rfl, Nat.and_two_pow_sub_one_eq_mod]
    simp only [minSize]
    omega
  unfold kfreeEarly
  simp only [offset, back]
  rw [assert_true s (decide_eq_true ⟨small, aligned⟩)]

private theorem kfree_early {s : KmallocState} {index : Nat} (inside : index < 2 ^ maxOrder) :
    kfree place s (indexToAddr place index) =
      some ({ s with early := freeBlocks s.early index }, .early) := by
  obtain ⟨addr, -, small, -⟩ := early_addr place inside
  have early : isEarlyBlockAddr place (indexToAddr place index) = true := by
    rw [isEarlyBlockAddr_iff, addr]
    unfold Placement.bufferEnd
    omega
  rw [kfree, if_pos early, kfreeEarly_eq s.early inside]

private theorem kfree_bufferEnd (place : Placement) (s : KmallocState) :
    ∃ t, kfree place s place.bufferEnd = some (t, .early) ∧ t.bugs = s.bugs + 1 := by
  have early : isEarlyBlockAddr place place.bufferEnd = true := by
    rw [isEarlyBlockAddr_iff]
    unfold Placement.bufferEnd
    omega
  have offset : wsub place.bufferEnd place.blockBuffer = maxSize := by
    have above : place.blockBuffer ≤ place.bufferEnd := Nat.le_add_right _ _
    rw [wsub_eq above (bufferEnd_fits place)]
    exact Nat.add_sub_cancel_left _ _
  refine ⟨_, if_pos early, ?_⟩
  simp [KmallocState.bugs, kfreeEarly, offset, freeBlocks_bugs, HeapState.assert]
  omega

private theorem kfree_slab {s : KmallocState} {objs : List (Nat × Nat)}
    (counted : SlabCount s.slab objs)
    (mem : (cache, obj) ∈ objs) (outside : isEarlyBlockAddr place obj = false) :
    ∃ slab, kfree place s obj = some ({ s with slab := slab }, .slab cache) ∧
      SlabCount slab (objs.erase (cache, obj)) ∧ slab.bugs = s.slab.bugs ∧
        ∀ q, isSlab slab q = true → isSlab s.slab q = true := by
  obtain ⟨-, -, -, bit, owner⟩ := counted.obj_page mem
  obtain ⟨slab, call, counted', quiet, fewer⟩ := kmemCacheFree_counted counted mem
  unfold isSlab at bit
  refine ⟨slab, ?_, counted', quiet, fewer⟩
  simp [kfree, outside, bit, owner, SlabState.assert, call]

private theorem kfree_pages {s : KmallocState} (linear : page < linearPages)
    (outside : isEarlyBlockAddr place (pageToVirt page) = false)
    (clear : isSlab s.slab page = false) :
    kfree place s (pageToVirt page) = some (s, .pages page) := by
  have inside : 0 < pageSize := by decide
  have back := virtToPage_eq linear inside
  rw [Nat.add_zero] at back
  unfold isSlab at clear
  simp [kfree, outside, back, clear]

/-! ### Invariant -/

/-- Before `kmalloc_init` no page has the slab bit and no object is out; afterwards the caches
count their objects. -/
def CachesOk (s : KmallocState) (objs : List (Nat × Nat)) : Prop :=
  if s.initKmemCache then SlabCount s.slab objs
  else objs = [] ∧ ∀ page, isSlab s.slab page = false

/-- The invariant of runs: what the caches and the page allocator have handed out lies above the
buffer, and the head of a page block has no slab bit. -/
structure KmallocInv (place : Placement) (r : KmallocRun) : Prop where
  early : HeapInv ⟨r.state.early, r.out⟩
  caches : CachesOk r.state r.objs
  slabs : ∀ page, isSlab r.state.slab page = true → place.bufferEnd < pageToVirt page
  blocks : ∀ block ∈ r.blocks, block.base < linearPages ∧
    place.bufferEnd < pageToVirt block.base ∧ isSlab r.state.slab block.base = false

private theorem outside_of_above {addr : Nat} (above : place.bufferEnd < addr) :
    isEarlyBlockAddr place addr = false := by
  rw [← Bool.not_eq_true, isEarlyBlockAddr_iff]
  omega

namespace KmallocInv

private theorem counted (inv : KmallocInv place r) (mem : (cache, obj) ∈ r.objs) :
    SlabCount r.state.slab r.objs := by
  have caches := inv.caches
  unfold CachesOk at caches
  split at caches
  · exact caches
  · rw [caches.1] at mem
    cases mem

private theorem obj_outside (inv : KmallocInv place r) (mem : (cache, obj) ∈ r.objs) :
    isEarlyBlockAddr place obj = false := by
  obtain ⟨-, -, low, slab, -⟩ := (inv.counted mem).obj_page mem
  have above := inv.slabs _ slab
  apply outside_of_above
  omega

private theorem returnsHome (inv : KmallocInv place r) : ReturnsHome place r := by
  intro origin live
  cases origin with
  | early block =>
    have inside := inv.early.base_lt live
    refine ⟨_, _, kfree_early inside, by simp, by simp, by simp, ?_⟩
    simp [KmallocState.bugs, freeBlocks_bugs]
  | slab cache obj =>
    obtain ⟨slab, call, -, quiet, -⟩ := kfree_slab (inv.counted live) live (inv.obj_outside live)
    refine ⟨_, _, call, by simp, by simp, by simp, ?_⟩
    simp [KmallocState.bugs, quiet]
  | pages block =>
    obtain ⟨linear, above, clear⟩ := inv.blocks block live
    refine ⟨_, _, kfree_pages linear (outside_of_above above) clear, by simp, by simp, ?_, rfl⟩
    intro page
    obtain ⟨base, order⟩ := block
    simp

/-! ### Steps -/

theorem fresh_above {vmap : Nat} (fresh : allowed place r (.kmalloc size (some page) vmap) = true)
    (quiet : calm place r (.kmalloc size (some page) vmap) = true) :
    page < linearPages ∧ testBit pageHighmem (r.state.slab.pages page).flags = false ∧
      isSlab r.state.slab page = false ∧ place.bufferEnd < pageToVirt page ∧
        ∀ other ∈ r.blocks, (wantedBlock size page).Apart other := by
  simp only [allowed, freshBlock, decide_eq_true_eq] at fresh
  obtain ⟨above, linear, lowmem, unused, apart⟩ := fresh
  have differ : pageToVirt page ≠ place.bufferEnd := by simpa [calm] using quiet
  have inside : page < linearPages := lt_of_lt_of_le (wantedBlock size page).base_lt_stop linear
  have least := bufferEnd_le above inside
  have first := unused 0 (Nat.two_pow_pos _)
  rw [Nat.add_zero] at first
  exact ⟨inside, lowmem, first, lt_of_le_of_ne least (Ne.symm differ), apart⟩

private theorem kmallocEarly_inv (inv : KmallocInv place r) (size : Nat) :
    KmallocInv place ({ r with
      state := { r.state with early := (kmallocEarly r.state.early size).1 } }.add
        (kmallocEarly r.state.early size).2) := by
  obtain ⟨early, caches, slabs, blocks⟩ := inv
  have next := heapStep_inv ⟨r.state.early, r.out⟩ (.alloc (ilog2Roundup (size / minSize)))
  unfold kmallocEarly
  simp only [heapStep] at next ⊢
  cases call : allocBlocks r.state.early (ilog2Roundup (size / minSize)) with
  | mk result t =>
    rw [call] at next
    cases result with
    | none => exact ⟨next _ early rfl rfl, caches, slabs, blocks⟩
    | some index => exact ⟨next _ early rfl rfl, caches, slabs, blocks⟩

private theorem kmemCacheAlloc_inv {newPage : Option Nat} {vmap : Nat} {slab : SlabState}
    (inv : KmallocInv place r) (init : r.state.initKmemCache = true)
    (small : size ≤ kmemCacheMaxSize)
    (fresh : allowed place r (.kmalloc size newPage vmap) = true)
    (quiet : calm place r (.kmalloc size newPage vmap) = true)
    (call : kmemCacheAlloc r.state.slab (cacheOrder size) newPage vmap = some (slab, obj)) :
    KmallocInv place ({ r with state := { r.state with slab := slab } }.add
      (if obj = 0 then none else some (.slab (cacheOrder size) obj))) := by
  have known : cacheOrder size < 8 := Nat.lt_succ_of_le (cacheOrder_le small)
  have counted : SlabCount r.state.slab r.objs := by
    have caches := inv.caches
    rwa [CachesOk, if_pos init] at caches
  have page : ∀ page, newPage = some page → page < linearPages ∧
      testBit pageHighmem (r.state.slab.pages page).flags = false ∧
        isSlab r.state.slab page = false := by
    rintro page rfl
    obtain ⟨linear, lowmem, unused, -⟩ := fresh_above fresh quiet
    exact ⟨linear, lowmem, unused⟩
  obtain ⟨next, -, more⟩ := kmemCacheAlloc_counted counted known page call
  obtain ⟨-, linear, low, -⟩ := next.obj_page List.mem_cons_self
  have nonzero : obj ≠ 0 := by
    rw [pageToVirt_eq linear] at low
    simp only [kernelVirtBase] at low
    omega
  rw [if_neg nonzero]
  refine ⟨inv.early, ?_, ?_, ?_⟩
  · simp only [KmallocRun.add, CachesOk, init, if_true]
    exact next
  · intro q bit
    rcases more q bit with old | rfl
    · exact inv.slabs q old
    · exact (fresh_above fresh quiet).2.2.2.1
  · intro block mem
    obtain ⟨inside, above, clear⟩ := inv.blocks block mem
    refine ⟨inside, above, Bool.eq_false_iff.mpr ?_⟩
    intro bit
    rcases more block.base bit with old | rfl
    · rw [clear] at old
      cases old
    · have apart := (fresh_above fresh quiet).2.2.2.2 block mem
      have stop := block.base_lt_stop
      have stop' := (wantedBlock size block.base).base_lt_stop
      have base : (wantedBlock size block.base).base = block.base := rfl
      unfold Block.Apart at apart
      omega

private theorem allocPages_inv {newPage : Option Nat} {vmap : Nat} (inv : KmallocInv place r)
    (fresh : allowed place r (.kmalloc size newPage vmap) = true)
    (quiet : calm place r (.kmalloc size newPage vmap) = true) :
    KmallocInv place (r.add (newPage.map fun page => .pages ⟨page, pageOrder size⟩)) := by
  cases newPage with
  | none => exact inv
  | some page =>
    obtain ⟨linear, -, unused, above, -⟩ := fresh_above fresh quiet
    refine ⟨inv.early, inv.caches, inv.slabs, ?_⟩
    intro block mem
    rcases List.mem_cons.mp mem with rfl | old
    · exact ⟨linear, above, unused⟩
    · exact inv.blocks block old

private theorem kmalloc_inv {newPage : Option Nat} {vmap : Nat} {s : KmallocState}
    {origin : Option Origin}
    (inv : KmallocInv place r) (fresh : allowed place r (.kmalloc size newPage vmap) = true)
    (quiet : calm place r (.kmalloc size newPage vmap) = true)
    (call : kmalloc r.state size newPage vmap = some (s, origin)) :
    KmallocInv place ({ r with state := s }.add origin) := by
  unfold kmalloc at call
  by_cases init : r.state.initKmemCache = true
  · rw [if_neg (by simp [init])] at call
    by_cases small : size ≤ kmemCacheMaxSize
    · rw [if_pos small] at call
      have passes : r.state.slab.assert (cacheOrder size ≤ kmemCacheMaxOrder) = r.state.slab := by
        simp [SlabState.assert, cacheOrder_le small]
      simp only [passes] at call
      obtain ⟨⟨slab, obj⟩, taken, done⟩ := Option.bind_eq_some_iff.mp call
      obtain ⟨rfl, rfl⟩ := Prod.mk.inj (Option.some.inj done)
      exact inv.kmemCacheAlloc_inv init small fresh quiet taken
    · rw [if_neg small] at call
      obtain ⟨rfl, rfl⟩ := Prod.mk.inj (Option.some.inj call)
      exact inv.allocPages_inv fresh quiet
  · rw [if_pos (by simp [init])] at call
    obtain ⟨rfl, rfl⟩ := Prod.mk.inj (Option.some.inj call)
    exact inv.kmallocEarly_inv size

private theorem kmallocInit_inv (inv : KmallocInv place r) (early : r.state.initKmemCache = false) :
    KmallocInv place { r with
      state := { r.state with slab := kmallocInit r.state.slab, initKmemCache := true } } := by
  have caches := inv.caches
  rw [CachesOk, if_neg (by simp [early])] at caches
  obtain ⟨none, clean⟩ := caches
  obtain ⟨counted, -, pages⟩ := kmallocInit_counted clean
  have bits : ∀ page, isSlab (kmallocInit r.state.slab) page = isSlab r.state.slab page := by
    intro page
    rw [isSlab, pages, isSlab]
  refine ⟨inv.early, ?_, ?_, ?_⟩
  · simp only [CachesOk, if_true, none]
    exact counted
  · intro page bit
    exact inv.slabs page ((bits page).symm.trans bit)
  · intro block mem
    obtain ⟨linear, above, clear⟩ := inv.blocks block mem
    exact ⟨linear, above, (bits block.base).trans clear⟩

private theorem kfree_inv {origin : Origin} {s : KmallocState} {route : Route}
    (inv : KmallocInv place r)
    (live : origin.Live r) (quiet : calm place r (.kfree origin) = true)
    (call : kfree place r.state (origin.ptr place) = some (s, route)) :
    KmallocInv place ({ r with state := s }.remove origin) := by
  cases origin with
  | early block =>
    have mem : block ∈ r.out := live
    have field : (r.state.early.blocks block.base).order = block.order := by
      obtain ⟨f, held⟩ := inv.early.tiled
      exact (held.given block mem).1
    simp only [calm, field] at quiet
    obtain ⟨tiled, -⟩ := freeBlocks_tiled inv.early.tiled mem (inv.early.small block mem) quiet
    simp only [Origin.ptr] at call
    rw [kfree_early (inv.early.base_lt mem)] at call
    obtain ⟨rfl, -⟩ := Prod.mk.inj (Option.some.inj call)
    refine ⟨⟨tiled, ?_⟩, inv.caches, inv.slabs, inv.blocks⟩
    intro b kept
    exact inv.early.small b (List.mem_of_mem_erase kept)
  | slab cache obj =>
    have mem : (cache, obj) ∈ r.objs := live
    obtain ⟨slab, freed, counted, -, fewer⟩ :=
      kfree_slab (inv.counted mem) mem (inv.obj_outside mem)
    simp only [Origin.ptr] at call
    rw [freed] at call
    obtain ⟨rfl, -⟩ := Prod.mk.inj (Option.some.inj call)
    have init : r.state.initKmemCache = true := by
      have caches := inv.caches
      unfold CachesOk at caches
      split at caches
      · assumption
      · rw [caches.1] at mem
        cases mem
    refine ⟨inv.early, ?_, fun q bit => inv.slabs q (fewer q bit), ?_⟩
    · simp only [KmallocRun.remove, CachesOk, init, if_true]
      exact counted
    · intro block listed
      obtain ⟨linear, above, clear⟩ := inv.blocks block listed
      refine ⟨linear, above, Bool.eq_false_iff.mpr ?_⟩
      intro bit
      have old := fewer block.base bit
      rw [clear] at old
      cases old
  | pages block =>
    obtain ⟨linear, above, clear⟩ := inv.blocks block live
    simp only [Origin.ptr] at call
    rw [kfree_pages linear (outside_of_above above) clear] at call
    obtain ⟨rfl, -⟩ := Prod.mk.inj (Option.some.inj call)
    refine ⟨inv.early, inv.caches, inv.slabs, ?_⟩
    intro b kept
    exact inv.blocks b (List.mem_of_mem_erase kept)

theorem step {t : KmallocRun} {op : KmallocOp} (inv : KmallocInv place r)
    (ok : allowed place r op = true ∧ calm place r op = true)
    (next : kmallocStep place r op = some t) : KmallocInv place t := by
  cases op with
  | kmalloc size newPage vmap =>
    obtain ⟨⟨s, origin⟩, call, rfl⟩ := Option.map_eq_some_iff.mp next
    exact inv.kmalloc_inv ok.1 ok.2 call
  | kmallocInit =>
    simp only [kmallocStep] at next
    split_ifs at next with init
    obtain rfl := Option.some.inj next
    exact inv.kmallocInit_inv (by simpa using init)
  | kfree origin =>
    simp only [kmallocStep] at next
    split_ifs at next with live
    obtain ⟨⟨s, route⟩, call, rfl⟩ := Option.map_eq_some_iff.mp next
    exact inv.kfree_inv live ok.2 call

theorem start (links : Links Nat Nat) {s : SlabState} (clean : ∀ page, isSlab s page = false) :
    KmallocInv place (kmallocBoot links s) := by
  refine ⟨⟨kmallocEarlyInit_tiled links, by simp [kmallocBoot]⟩, ⟨rfl, clean⟩, ?_, ?_⟩
  · intro page bit
    rw [kmallocBoot, clean page] at bit
    cases bit
  · simp [kmallocBoot]

end KmallocInv

/-- In every run in which no page is handed out that starts where `block_buffer` ends and blocks of
the early heap merge with buddies of their own order, `kfree` gives each live pointer back to the
allocator it came from, and no assertion fails on the way. -/
theorem kmalloc_run_home (place : Placement) (links : Links Nat Nat) (s : SlabState)
    (clean : ∀ page, isSlab s page = false) (t : KmallocRun)
    (run : Run (kmallocStep place)
      (fun r op => allowed place r op = true ∧ calm place r op = true) (kmallocBoot links s) t) :
    ReturnsHome place t := by
  have inv : KmallocInv place t := by
    apply run.invariant (KmallocInv.start links clean)
    intro r op u inv ok next
    exact inv.step ok next
  exact inv.returnsHome

def roomyPlacement : Placement := ⟨0xC0118000, 0xC0121000, by decide, by decide, by decide⟩

def sampleOps : List KmallocOp :=
  [.kmalloc 100 none 0, .kmalloc 8 none 0, .kmallocInit, .kmalloc 24 (some 0x121) 0,
    .kmalloc 5000 (some 0x122) 0, .kfree (.early ⟨0, 4⟩), .kmalloc 24 none 0,
    .kfree (.slab 2 0xC0121000), .kmalloc 1024 (some 0x124) 0]

/-- Pointers from all three allocators, some of them freed. -/
theorem kmalloc_run_home_sample :
    ∃ t, exec (kmallocStep roomyPlacement)
        (fun r op => allowed roomyPlacement r op && calm roomyPlacement r op)
        (kmallocBoot ⟨id, id⟩ SlabRuns.blank) sampleOps = some t ∧
      t.out = [⟨16, 0⟩] ∧ t.objs = [(7, 0xC0124000), (2, 0xC0121020)] ∧ t.blocks = [⟨0x122, 1⟩] ∧
        ReturnsHome roomyPlacement t := by
  have eval : (exec (kmallocStep roomyPlacement)
      (fun r op => allowed roomyPlacement r op && calm roomyPlacement r op)
      (kmallocBoot ⟨id, id⟩ SlabRuns.blank) sampleOps).map
        (fun t => (t.out, t.objs, t.blocks)) =
      some ([⟨16, 0⟩], [(7, 0xC0124000), (2, 0xC0121020)], [⟨0x122, 1⟩]) := by decide +kernel
  obtain ⟨t, eq, lists⟩ := Option.map_eq_some_iff.mp eval
  obtain ⟨out, rest⟩ := Prod.mk.inj lists
  obtain ⟨objs, blocks⟩ := Prod.mk.inj rest
  refine ⟨t, eq, out, objs, blocks, kmalloc_run_home _ ⟨id, id⟩ SlabRuns.blank blank_clean t ?_⟩
  exact (Run.of_exec eq).mono fun _ _ ok => by simpa using ok

def tightPlacement : Placement := ⟨0xC0118000, 0xC0120000, by decide, by decide, by decide⟩

/-- Two pages of memory right behind the kernel are freed as a block of the early heap. -/
theorem kmalloc_run_misrouted :
    ¬ ∀ (place : Placement) (links : Links Nat Nat) (s : SlabState),
      (∀ page, isSlab s page = false) → ∀ t,
        Run (kmallocStep place) (fun r op => allowed place r op = true) (kmallocBoot links s) t →
          ReturnsHome place t := by
  intro claim
  have eval : (exec (kmallocStep tightPlacement) (allowed tightPlacement)
      (kmallocBoot ⟨id, id⟩ SlabRuns.blank)
      [.kmallocInit, .kmalloc 5000 (some 0x120) 0]).map (fun t => t.blocks) =
        some [⟨0x120, 1⟩] := by decide +kernel
  obtain ⟨t, eq, blocks⟩ := Option.map_eq_some_iff.mp eval
  have live : (Origin.pages ⟨0x120, 1⟩).Live t := by
    show (⟨0x120, 1⟩ : Block) ∈ t.blocks
    rw [blocks]
    exact List.mem_cons_self
  obtain ⟨u, route, call, early, -⟩ :=
    claim tightPlacement ⟨id, id⟩ SlabRuns.blank blank_clean t (Run.of_exec eq) _ live
  have address : (Origin.pages ⟨0x120, 1⟩).ptr tightPlacement = tightPlacement.bufferEnd := by
    decide
  obtain ⟨v, wrong, -⟩ := kfree_bufferEnd tightPlacement t.state
  rw [address, wrong] at call
  obtain ⟨-, rfl⟩ := Prod.mk.inj (Option.some.inj call)
  obtain ⟨block, absurd'⟩ := early.mp rfl
  cases absurd'

def headOps : List KmallocOp :=
  [.kmalloc 64 none 0, .kmalloc 16 none 0, .kmalloc 128 none 0, .kfree (.early ⟨0, 3⟩),
    .kfree (.early ⟨16, 4⟩), .kmalloc 16 none 0, .kmalloc 8 none 0, .kfree (.early ⟨8, 1⟩),
    .kmalloc 32 none 0, .kfree (.early ⟨12, 0⟩)]

/-- Without matching buddies the first node on a list need not belong to a block: the next
`kmalloc(64)` takes the head of another list for one. -/
private theorem kmalloc_run_meets_head :
    ∃ t, exec (kmallocStep roomyPlacement) (allowed roomyPlacement)
        (kmallocBoot ⟨id, id⟩ SlabRuns.blank) headOps = some t ∧
      listEmpty t.state.early.links (.head 3) = false ∧
        containerOf (listNext t.state.early.links (.head 3)) = none := by
  have eval : (exec (kmallocStep roomyPlacement) (allowed roomyPlacement)
      (kmallocBoot ⟨id, id⟩ SlabRuns.blank) headOps).map (fun t =>
        (listEmpty t.state.early.links (.head 3),
          containerOf (listNext t.state.early.links (.head 3)))) = some (false, none) := by
    decide +kernel
  obtain ⟨t, eq, both⟩ := Option.map_eq_some_iff.mp eval
  obtain ⟨filled, head⟩ := Prod.mk.inj both
  exact ⟨t, eq, filled, head⟩

end OhMyOs.Mm.Kmalloc
