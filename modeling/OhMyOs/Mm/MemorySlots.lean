/- GID: OhMyOs/Mm/MemorySlots
   generality: I
   digest: The firmware memory map and scan_memory_slot of mm/memory.c. -/

import OhMyOs.Include.Memory
import OhMyOs.Mm.PageAllocator

set_option autoImplicit false
set_option relaxedAutoImplicit false

namespace OhMyOs.Mm.MemorySlots

open OhMyOs.Include.Bitops OhMyOs.Include.Memory OhMyOs.Mm.PageAllocator

def e820Max : Nat := 20
def e820Ram : BitVec 32 := 1

structure E820Map where
  addr : BitVec 64
  size : BitVec 64
  type : BitVec 32
  deriving DecidableEq

/-- `struct e820`; `n` is the number of entries. -/
structure E820 where
  map : List E820Map
  fits : map.length ≤ e820Max

/-- The macro `phys_to_pfn` on a 32-bit address. -/
def physToPfn (x : Nat) : Nat := x >>> pageShift

def roundUpPage (x : Nat) : Nat := roundUp x pageSize

namespace E820Map

/-- `phys_to_pfn(map->addr)` -/
def startPfn (map : E820Map) : Nat := physToPfn (map.addr.toNat % 2 ^ 32)

/-- `phys_to_pfn(map->addr + map->size)`: the cast of the macro reaches only `map->addr`, the sum
and the shift are 64 bits wide, and the result goes into an `unsigned long`. -/
def endPfn (map : E820Map) : Nat :=
  (((map.addr.toNat % 2 ^ 32 + map.size.toNat) % 2 ^ 64) >>> pageShift) % 2 ^ 32

end E820Map

/-- The globals of mm/memory.c with the page allocator, whose `highmem_start_pfn` is set here,
and the arguments of each call of `add_free_pages`. -/
structure MemoryState where
  kernelStartPfn : Nat
  kernelEndPfn : Nat
  linearStartPfn : Nat
  linearEndPfn : Nat
  highmemEndPfn : Nat
  pages : PageState
  added : List (Nat × Nat)

def MemoryState.addFreePages (s : MemoryState) (startPfn endPfn : Nat) : MemoryState :=
  { s with
    pages := PageAllocator.addFreePages s.pages startPfn endPfn
    added := s.added ++ [(startPfn, endPfn)] }

/-- The test of the first loop, in 64 bits; `phys` is `virt_to_phys(end)`. -/
def enclosesKernelEnd (phys : Nat) (map : E820Map) : Bool :=
  map.type == e820Ram && map.addr.toNat < phys && phys < (map.addr + map.size).toNat

/-- The first loop; `index` is not initialised before it. -/
def scanLoop (phys : Nat) : List E820Map → Nat → Option Nat → Option Nat
  | [], _, index => index
  | map :: rest, i, index =>
    scanLoop phys rest (i + 1) (if enclosesKernelEnd phys map then some i else index)

/-- The second loop, over the entries behind the kernel's. -/
def addLoop : List E820Map → MemoryState → MemoryState
  | [], s => s
  | map :: rest, s =>
    addLoop rest (if map.type = e820Ram then s.addFreePages map.startPfn map.endPfn else s)

def setGlobals (s : MemoryState) (kernelEndPfn freeEndPfn : Nat) : MemoryState :=
  let highmemStartPfn := physToPfn physHighmemStart
  { s with
    kernelStartPfn := 0
    kernelEndPfn := kernelEndPfn
    linearStartPfn := kernelEndPfn
    linearEndPfn := if freeEndPfn ≤ highmemStartPfn then freeEndPfn else highmemStartPfn
    highmemEndPfn := if freeEndPfn ≤ highmemStartPfn then highmemStartPfn else freeEndPfn
    pages := { s.pages with highmemStartPfn := highmemStartPfn } }

/-- `scan_memory_slot`; `kernelEnd` is the linker's symbol `end`. Without an entry around it
`index` is read uninitialised, which is `none`. -/
def scanMemorySlot (s : MemoryState) (e820 : E820) (kernelEnd : Nat) : Option MemoryState := do
  let index ← scanLoop (virtToPhys kernelEnd) e820.map 0 none
  let map ← e820.map[index]?
  let kernelEndPfn := physToPfn (roundUpPage (virtToPhys kernelEnd))
  let freeEndPfn := map.endPfn
  let s := setGlobals s kernelEndPfn freeEndPfn
  let s := s.addFreePages kernelEndPfn freeEndPfn
  return addLoop (e820.map.drop (index + 1)) s

end OhMyOs.Mm.MemorySlots
