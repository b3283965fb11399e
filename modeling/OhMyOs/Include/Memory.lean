/- GID: OhMyOs/Include/Memory
   generality: I
   digest: Page size and address layout of include/memory.h. -/

import OhMyOs.Include.Bitops

set_option autoImplicit false
set_option relaxedAutoImplicit false

namespace OhMyOs.Include.Memory

open OhMyOs.Include.Bitops

def pageShift : Nat := 12

def pageSize : Nat := 4096

def kernelVirtBase : Nat := 0xC0000000

def physHighmemStart : Nat := 0x38000000

/-- `VMALLOC_START` and `VMALLOC_END`. -/
def vmallocStart : Nat := pageSize
def vmallocEnd : Nat := kernelVirtBase

/-- The macro `virt_to_phys`; the subtraction is one of 32-bit words. -/
def virtToPhys (x : Nat) : Nat := wsub x kernelVirtBase

def physToVirt (x : Nat) : Nat := (x + kernelVirtBase) % 2 ^ 32

end OhMyOs.Include.Memory
