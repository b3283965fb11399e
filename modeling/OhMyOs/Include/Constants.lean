/- GID: OhMyOs/Include/Constants
   generality: I
   digest: The integer types and the constants that several parts of the kernel share. -/

set_option autoImplicit false
set_option relaxedAutoImplicit false

namespace OhMyOs.Include.Constants

abbrev Byte := BitVec 8

abbrev Word := BitVec 32

/-! ### include/error.h -/

def enoent : Int := 2
def enomem : Int := 12
def enodev : Int := 19
def einval : Int := 22
def enospc : Int := 28

/-! ### include/smp.h, include/asm-generic/mmu.h -/

def maxCpu : Nat := 8

def kernelStackSize : Nat := 4096 * 2

end OhMyOs.Include.Constants
