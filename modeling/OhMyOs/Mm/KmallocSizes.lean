/- GID: OhMyOs/Mm/KmallocSizes
   generality: I
   digest: How many bytes kmalloc_early, kmalloc and __vmalloc deliver for a size. -/

import OhMyOs.Mm.Kmalloc
import OhMyOs.Mm.VmallocPages

set_option autoImplicit false
set_option relaxedAutoImplicit false

namespace OhMyOs.Mm.KmallocSizes

open OhMyOs.Include.Constants
open OhMyOs.Lib.Ring OhMyOs.Lib.Runs OhMyOs.Lib.Dyadic OhMyOs.Lib.Buddy
open OhMyOs.Include.IntrusiveList OhMyOs.Include.Bitops OhMyOs.Include.Log2 OhMyOs.Include.Memory
open OhMyOs.Mm.EarlyHeap OhMyOs.Mm.EarlyHeapRuns
open OhMyOs.Mm.Slab (minSize kmemCacheMaxOrder kmemCacheMaxSize cacheOrder pageOrder cacheOrder_le)
open OhMyOs.Mm.Kmalloc

/-! ### The early heap -/

variable {s t : HeapState} {f : Nat → List Nat} {order block size : Nat}

structure FreeInside (s : HeapState) (f : Nat → List Nat) : Prop where
  rings : Rings s.links {k | k ≤ maxOrder} f
  order : ∀ k ≤ maxOrder, ∀ block ∈ f k, (s.blocks block).order = k
  inside : ∀ k ≤ maxOrder, ∀ block ∈ f k, block + 2 ^ k ≤ 2 ^ maxOrder

private theorem freeInside_of_tiled {out : List Block} (tiled : Tiled s [] out) :
    ∃ f, FreeInside s f := by
  obtain ⟨f, held⟩ := tiled
  have keys : {k : Nat | k ≤ maxOrder} = {k | k ∈ orders} := by
    ext k
    exact (mem_orders k).symm
  refine ⟨f, keys ▸ held.rings, fun k small block member => ?_, fun k small block member => ?_⟩
  · exact (held.listed k ((mem_orders k).mpr small) block member).1
  · -- the last index of the block is covered, so it is one of the arena
    have filed : (⟨block, k⟩ : Block) ∈ filed orders id f :=
      mem_filed.mpr ⟨k, (mem_orders k).mpr small, member, rfl⟩
    have positive : 0 < 2 ^ k := Nat.two_pow_pos k
    have last : block + 2 ^ k - 1 ∈ arena := by
      refine (held.tiling.cover _).mp ⟨⟨block, k⟩, by simp [filed], ?_, ?_⟩
      · show block ≤ block + 2 ^ k - 1
        omega
      · show block + 2 ^ k - 1 < block + 2 ^ k
        omega
    have below : block + 2 ^ k - 1 < 2 ^ maxOrder := last
    omega

private theorem splitLoop_order (fuel : Nat) (above : order ≤ (s.blocks block).order)
    (enough : (s.blocks block).order ≤ order + fuel) :
    ((splitLoop order block fuel s).blocks block).order = order := by
  induction fuel generalizing s with
  | zero =>
    rw [splitLoop]
    omega
  | succ fuel ih =>
    rw [splitLoop]
    split_ifs with more
    · have lower : ∀ u : HeapState, blockBuddy u block ≠ block := by
        intro u same
        rw [blockBuddy, Nat.one_shiftLeft] at same
        have cancel := congrArg (block ^^^ ·) same
        simp at cancel
      have cut : ∀ (u : HeapState) (k : Nat) (links : Links Nat Nat),
          (({ (u.setOrder (blockBuddy u block) k).setFree (blockBuddy u block) true with
            links := links } : HeapState).blocks block).order = (u.blocks block).order := by
        intro u k links
        rw [setFree_order, setOrder_order_ne _ _ (lower u).symm]
      apply ih
      · rw [cut, setOrder_order_self]
        omega
      · rw [cut, setOrder_order_self]
        omega
    · omega

private theorem allocScan_some (n : Nat) {i : Nat}
    (found : allocScan order n s i = (some block, t)) :
    ∃ j, i ≤ j ∧ j < i + n ∧ containerOf (listNext s.links (.head j)) = some block ∧
      t = allocTake s j order block := by
  induction n generalizing i with
  | zero => cases found
  | succ n ih =>
    rw [allocScan] at found
    split_ifs at found with empty
    · obtain ⟨j, low, high, rest⟩ := ih found
      exact ⟨j, by omega, by omega, rest⟩
    · cases next : containerOf (listNext s.links (.head i)) with
      | none =>
        rw [next] at found
        cases found
      | some first =>
        rw [next] at found
        cases found
        exact ⟨i, le_rfl, by omega, next, rfl⟩

private theorem allocBlocks_inside (inside : FreeInside s f)
    (call : allocBlocks s order = (some block, t)) :
    (t.blocks block).order = order ∧ block + 2 ^ order ≤ 2 ^ maxOrder := by
  rw [allocBlocks] at call
  obtain ⟨j, low, high, next, rfl⟩ := allocScan_some _ call
  have small : j ≤ maxOrder := by omega
  have passes : decide (order ≤ maxOrder) = true := decide_eq_true (low.trans small)
  rw [assert_true s passes] at next ⊢
  have member : block ∈ f j := by
    have heads : j ∈ {k | k ≤ maxOrder} := small
    cases list : f j with
    | nil =>
      have head : s.links.next (.head j) = .head j := (inside.rings.empty_iff heads).mpr list
      rw [listNext, head] at next
      cases next
    | cons first others =>
      rw [listNext_cons inside.rings heads list] at next
      rw [← Option.some.inj next]
      exact List.mem_cons_self
  have field := inside.order j small block member
  refine ⟨?_, ?_⟩
  · rw [allocTake, setFree_order]
    have same : ({ s with links := listRemove s.links (.node block) } : HeapState).blocks =
        s.blocks := rfl
    have matches' : (j == (s.blocks block).order) = true := by simp [field]
    rw [same, assert_true _ matches']
    exact splitLoop_order _ (same ▸ field ▸ low) (same ▸ Nat.le_add_left _ _)
  · have whole := inside.inside j small block member
    have smaller : 2 ^ order ≤ 2 ^ j := Nat.pow_le_pow_right (by decide) low
    omega

/-! ### What `kmalloc_early` delivers -/

private theorem units_enough_iff (word : size < 2 ^ 32) :
    size ≤ minSize <<< ilog2Roundup (size / minSize) ↔
      ¬ (size % minSize ≠ 0 ∧ ∃ k, size / minSize = 2 ^ k) := by
  have split := Nat.div_add_mod size minSize
  have rest := Nat.mod_lt size (show minSize > 0 by decide)
  have fits : size / minSize ≤ 2 ^ 32 := (Nat.div_le_self _ _).trans word.le
  obtain ⟨above, least⟩ := ilog2Roundup_bounds fits
  generalize ilog2Roundup (size / minSize) = order at above least ⊢
  have exact_iff : (∃ k, size / minSize = 2 ^ k) ↔ size / minSize = 2 ^ order := by
    constructor
    · rintro ⟨k, eq⟩
      have atMost := Nat.pow_le_pow_right (show 2 > 0 by decide) (least k eq.le)
      omega
    · exact fun eq => ⟨order, eq⟩
  rw [exact_iff, Nat.shiftLeft_eq]
  simp only [minSize] at split rest above ⊢
  omega

/-- `kmalloc_early` returns a block that lies in `block_buffer`, and that is long enough unless the
size leaves a rest over a power of two of units. -/
theorem kmallocEarly_enough_iff (place : Placement) {origin : Origin} (inside : FreeInside s f)
    (word : size < 2 ^ 32) (call : kmallocEarly s size = (t, some origin)) :
    ∃ block : Block, origin = .early block ∧ (t.blocks block.base).order = block.order ∧
      place.blockBuffer ≤ origin.ptr place ∧
        origin.ptr place + minSize <<< block.order ≤ place.bufferEnd ∧
          (size ≤ minSize <<< block.order ↔
            ¬ (size % minSize ≠ 0 ∧ ∃ k, size / minSize = 2 ^ k)) := by
  rw [kmallocEarly] at call
  cases blocks : allocBlocks s (ilog2Roundup (size / minSize)) with
  | mk result u =>
    rw [blocks] at call
    cases result with
    | none => cases call
    | some index =>
      cases call
      obtain ⟨order, fits⟩ := allocBlocks_inside inside blocks
      have enough := units_enough_iff word
      generalize ilog2Roundup (size / minSize) = k at order fits enough ⊢
      have positive := Nat.two_pow_pos k
      obtain ⟨addr, -, -, -⟩ := early_addr place (show index < 2 ^ maxOrder by omega)
      refine ⟨⟨index, k⟩, rfl, order, ?_, ?_, enough⟩
      · simp only [Origin.ptr, addr]
        omega
      · simp only [Origin.ptr, addr, Placement.bufferEnd, maxSize, Nat.shiftLeft_eq, minSize]
        omega

def somePlace : Placement where
  blockBuffer := 0xC0100000
  kernelEnd := 0xC0200000
  base := by decide
  below := by decide
  linear := by decide

private theorem bootHeap_inside : ∃ f, FreeInside (kmallocEarlyInit ⟨id, id⟩) f :=
  freeInside_of_tiled (kmallocEarlyInit_tiled ⟨id, id⟩)

/-- 40 bytes: five units, rounded up to eight. -/
theorem kmallocEarly_enough_iff_forty :
    ∃ t, kmallocEarly (kmallocEarlyInit ⟨id, id⟩) 40 = (t, some (.early ⟨0, 3⟩)) ∧
      40 ≤ minSize <<< 3 := by
  obtain ⟨f, inside⟩ := bootHeap_inside
  have call : (kmallocEarly (kmallocEarlyInit ⟨id, id⟩) 40).2 = some (.early ⟨0, 3⟩) := by
    decide +kernel
  refine ⟨_, Prod.ext rfl call, ?_⟩
  obtain ⟨block, same, -, -, -, enough⟩ :=
    kmallocEarly_enough_iff somePlace inside (by decide) (Prod.ext rfl call)
  obtain rfl := Origin.early.inj same
  refine enough.mpr ?_
  rintro ⟨rest, -⟩
  exact rest (by decide)

/-- The two allocations of `vmalloc_init`: the area struct of 36 bytes gets 32, and the block after
it is handed out for the tree. -/
theorem kmallocEarly_vm_area_short :
    ∃ t u, kmallocEarly (kmallocEarlyInit ⟨id, id⟩) 36 = (t, some (.early ⟨0, 2⟩)) ∧
      minSize <<< 2 < 36 ∧ kmallocEarly t 8 = (u, some (.early ⟨4, 0⟩)) ∧
        indexToAddr somePlace 4 < indexToAddr somePlace 0 + 36 := by
  have first : (kmallocEarly (kmallocEarlyInit ⟨id, id⟩) 36).2 = some (.early ⟨0, 2⟩) := by
    decide +kernel
  have second : (kmallocEarly (kmallocEarly (kmallocEarlyInit ⟨id, id⟩) 36).1 8).2 =
      some (.early ⟨4, 0⟩) := by decide +kernel
  exact ⟨_, _, Prod.ext rfl first, by decide, Prod.ext rfl second, by decide⟩

/-! ### Rounding up to pages -/

section Slab

open OhMyOs.Mm.Slab OhMyOs.Mm.SlabSafety

variable {s s' : SlabState} {cache page obj vmap : Nat} {newPage : Option Nat}

def SizesSet (s : KmallocState) : Prop :=
  s.initKmemCache = true → ∀ cache < 8, s.slab.size cache = objSize cache

private theorem SizesSet.congr {k k' : KmallocState} (sizes : SizesSet k)
    (init : k'.initKmemCache = k.initKmemCache) (same : k'.slab.size = k.slab.size) :
    SizesSet k' := by
  intro set cache known
  rw [same]
  exact sizes (init ▸ set) cache known

/-- The bytes that a pointer of `kmalloc` stands for: a block, a slot of the cache, or pages. -/
def room (s : KmallocState) : Origin → Nat
  | .early block => minSize <<< block.order
  | .slab cache _ => s.slab.size cache
  | .pages block => pageSize <<< block.order

section
variable {place : Placement} {r : KmallocRun}

end

end Slab

/-! ### What `__vmalloc` delivers -/

section Vmalloc

open OhMyOs.Lib.Outcome
open OhMyOs.Mm.MemorySlots (roundUpPage)
open OhMyOs.Mm.PageTable OhMyOs.Mm.StartPaging
open OhMyOs.Mm.Vmalloc OhMyOs.Mm.VmallocSafety OhMyOs.Mm.VmallocRuns OhMyOs.Mm.VmallocExact
open OhMyOs.Mm.VmallocFrees OhMyOs.Mm.VmallocPages

end Vmalloc

end OhMyOs.Mm.KmallocSizes
