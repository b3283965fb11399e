/- GID: OhMyOs/Kernel/Descriptors
   generality: I
   digest: Segment and gate descriptors as mm/memory.c, kernel/irq.c and SEG_ASM write them, and as
     the processor reads them. -/

import OhMyOs.Include.Memory
import OhMyOs.Lib.Bitfields

set_option autoImplicit false
set_option relaxedAutoImplicit false

namespace OhMyOs.Kernel.Descriptors

open OhMyOs.Include.Bitops OhMyOs.Include.Memory OhMyOs.Lib.Bitfields

/-! ### The code -/

structure SegDesc where
  lim15_0 : Nat
  base15_0 : Nat
  base23_16 : Nat
  type : Nat
  s : Nat
  dpl : Nat
  present : Nat
  lim19_16 : Nat
  avl : Nat
  l : Nat
  db : Nat
  gran : Nat
  base31_24 : Nat

def SegDesc.fields (d : SegDesc) : List Field :=
  [(16, d.lim15_0), (16, d.base15_0), (8, d.base23_16), (4, d.type), (1, d.s), (2, d.dpl),
    (1, d.present), (4, d.lim19_16), (1, d.avl), (1, d.l), (1, d.db), (1, d.gran),
    (8, d.base31_24)]

def SegDesc.word (d : SegDesc) : Nat := pack d.fields

def segInit (type base limit dpl : Nat) (gran : Bool) : SegDesc :=
  let limit := if gran then limit >>> 12 else limit
  { lim15_0 := limit &&& 0xffff
    base15_0 := base &&& 0xffff
    base23_16 := (base >>> 16) &&& 0xff
    type := type
    s := 1
    dpl := dpl
    present := 1
    lim19_16 := (limit >>> 16) &&& 0xf
    avl := 0
    l := 0
    db := 1
    gran := gran.toNat
    base31_24 := (base >>> 24) &&& 0xff }

def segAsm (type base lim : Nat) : Nat :=
  pack [(16, (lim >>> 12) &&& 0xffff), (16, base &&& 0xffff), (8, (base >>> 16) &&& 0xff),
    (8, 0x90 ||| type), (8, 0xC0 ||| ((lim >>> 28) &&& 0xf)), (8, (base >>> 24) &&& 0xff)]

def staX : Nat := 0x8
def staW : Nat := 0x2
def staR : Nat := 0x2

def segKtext : Nat := 1
def segKdata : Nat := 2
def segUtext : Nat := 3
def segUdata : Nat := 4

def gdKtext : Nat := segKtext <<< 3
def gdKdata : Nat := segKdata <<< 3

def dplKernel : Nat := 0
def dplUser : Nat := 3

def kernelCs : Nat := gdKtext ||| dplKernel
def kernelDs : Nat := gdKdata ||| dplKernel

def stsIg32 : Nat := 0xE
def stsTg32 : Nat := 0xF

structure GateDesc where
  offset15_0 : Nat
  selector : Nat
  args : Nat
  rsv : Nat
  type : Nat
  s : Nat
  dpl : Nat
  p : Nat
  offset31_16 : Nat

def GateDesc.fields (d : GateDesc) : List Field :=
  [(16, d.offset15_0), (16, d.selector), (5, d.args), (3, d.rsv), (4, d.type), (1, d.s),
    (2, d.dpl), (1, d.p), (16, d.offset31_16)]

def GateDesc.word (d : GateDesc) : Nat := pack d.fields

def setGate (istrap : Bool) (selector offset dpl : Nat) : GateDesc where
  offset15_0 := offset &&& 0xffff
  selector := selector
  args := 0
  rsv := 0
  type := if istrap then stsTg32 else stsIg32
  s := 0
  dpl := dpl
  p := 1
  offset31_16 := (offset >>> 16) &&& 0xffff

/-! ### The processor -/

def segBase (w : Nat) : Nat := bits w 16 24 + 2 ^ 24 * bits w 56 8

/-- The last byte of a segment; the granularity bit makes the unit of the limit a page. -/
def segLimit (w : Nat) : Nat :=
  let limit := bits w 0 16 + 2 ^ 16 * bits w 48 4
  if bits w 55 1 = 1 then limit * 4096 + 4095 else limit

def gateOffset (w : Nat) : Nat := bits w 0 16 + 2 ^ 16 * bits w 48 16
def gateSelector (w : Nat) : Nat := bits w 16 16
def gateAttributes (w : Nat) : Nat := bits w 40 8

/-! ### What is written is what is read -/

section
variable {type base limit dpl selector offset : Nat}

private theorem low_bits (n w : Nat) :
    n &&& (2 ^ w - 1) = n % 2 ^ w := Nat.and_two_pow_sub_one_eq_mod n w

private theorem bits_at (n k w : Nat) : (n >>> k) &&& (2 ^ w - 1) = n / 2 ^ k % 2 ^ w := by
  rw [low_bits, Nat.shiftRight_eq_div_pow]

private theorem SegDesc.base_word (d : SegDesc) : segBase d.word =
    d.base15_0 % 2 ^ 16 + 2 ^ 16 * (d.base23_16 % 2 ^ 8) + 2 ^ 24 * (d.base31_24 % 2 ^ 8) := by
  have low : bits d.word 16 24 = pack [(16, d.base15_0), (8, d.base23_16)] :=
    bits_pack 1 2 (by simp [SegDesc.fields]) (by simp [SegDesc.fields])
  have high : bits d.word 56 8 = pack [(8, d.base31_24)] :=
    bits_pack 12 1 (by simp [SegDesc.fields]) (by simp [SegDesc.fields])
  rw [segBase, low, high]
  simp only [pack]
  omega

private theorem SegDesc.limit_word (d : SegDesc) : segLimit d.word =
    let limit := d.lim15_0 % 2 ^ 16 + 2 ^ 16 * (d.lim19_16 % 2 ^ 4)
    if d.gran % 2 = 1 then limit * 4096 + 4095 else limit := by
  have low : bits d.word 0 16 = pack [(16, d.lim15_0)] :=
    bits_pack 0 1 (by simp [SegDesc.fields]) (by simp [SegDesc.fields])
  have high : bits d.word 48 4 = pack [(4, d.lim19_16)] :=
    bits_pack 7 1 (by simp [SegDesc.fields]) (by simp [SegDesc.fields])
  have unit : bits d.word 55 1 = pack [(1, d.gran)] :=
    bits_pack 11 1 (by simp [SegDesc.fields]) (by simp [SegDesc.fields])
  rw [segLimit, low, high, unit, pack_singleton, pack_singleton, pack_singleton, Nat.pow_one]

theorem segBase_segInit (fits : base < 2 ^ 32) (gran : Bool) :
    segBase (segInit type base limit dpl gran).word = base := by
  rw [SegDesc.base_word]
  change (base &&& (2 ^ 16 - 1)) % 2 ^ 16 + 2 ^ 16 * (((base >>> 16) &&& (2 ^ 8 - 1)) % 2 ^ 8) +
    2 ^ 24 * (((base >>> 24) &&& (2 ^ 8 - 1)) % 2 ^ 8) = base
  rw [low_bits, bits_at, bits_at]
  omega

theorem segLimit_segInit (fits : limit < 2 ^ 32) :
    segLimit (segInit type base limit dpl true).word = limit / 4096 * 4096 + 4095 := by
  rw [SegDesc.limit_word]
  change (((limit >>> 12) &&& (2 ^ 16 - 1)) % 2 ^ 16 +
    2 ^ 16 * (((limit >>> 12 >>> 16) &&& (2 ^ 4 - 1)) % 2 ^ 4)) * 4096 + 4095 = _
  rw [bits_at, ← Nat.shiftRight_add, bits_at]
  omega

private theorem nibble_or (high : Nat) (fits : type < 2 ^ 4) :
    high * 2 ^ 4 ||| type = high * 2 ^ 4 + type := by
  rw [Nat.mul_comm]
  exact (Nat.two_pow_add_eq_or_of_lt fits high).symm

theorem segInit_eq_segAsm (nibble : type < 2 ^ 4) :
    (segInit type base limit dplKernel true).word = segAsm type base limit := by
  have kind : 0x90 ||| type = 0x90 + type := nibble_or 9 nibble
  have top : limit / 2 ^ 28 % 2 ^ 4 < 2 ^ 4 := Nat.mod_lt _ (by decide)
  have flags : 0xC0 ||| limit / 2 ^ 28 % 2 ^ 4 = 0xC0 + limit / 2 ^ 28 % 2 ^ 4 := nibble_or 12 top
  have shifted : (limit >>> 28) &&& 0xf = limit / 2 ^ 28 % 2 ^ 4 := bits_at limit 28 4
  have again : (limit >>> 12 >>> 16) &&& 0xf = limit / 2 ^ 28 % 2 ^ 4 := by
    rw [← Nat.shiftRight_add]
    exact bits_at limit 28 4
  -- the flags on both sides of the upper limit are one byte each for the assembler
  have first : pack [(4, type), (1, 1), (2, dplKernel), (1, 1)] = pack [(8, 0x90 ||| type)] := by
    rw [kind, pack_singleton]
    simp only [pack, dplKernel]
    omega
  have second : pack [(4, (limit >>> 12 >>> 16) &&& 0xf), (1, 0), (1, 0), (1, 1), (1, 1)] =
      pack [(8, 0xC0 ||| ((limit >>> 28) &&& 0xf))] := by
    rw [again, shifted, flags, pack_singleton]
    simp only [pack]
    omega
  have eight : width [(4, type), (1, 1), (2, dplKernel), (1, 1)] = width [(8, 0x90 ||| type)] := by
    simp
  have eight' : width [(4, (limit >>> 12 >>> 16) &&& 0xf), (1, 0), (1, 0), (1, 1), (1, 1)] =
      width [(8, 0xC0 ||| ((limit >>> 28) &&& 0xf))] := by
    simp
  have upper := pack_congr eight first (pack_congr eight' second
    (rfl : pack [(8, (base >>> 24) &&& 0xff)] = pack [(8, (base >>> 24) &&& 0xff)]))
  let low : List Field := [(16, (limit >>> 12) &&& 0xffff), (16, base &&& 0xffff),
    (8, (base >>> 16) &&& 0xff)]
  have whole := pack_congr (rfl : width low = width low) rfl upper
  exact whole

private theorem GateDesc.offset_word (d : GateDesc) : gateOffset d.word =
    d.offset15_0 % 2 ^ 16 + 2 ^ 16 * (d.offset31_16 % 2 ^ 16) := by
  have low : bits d.word 0 16 = pack [(16, d.offset15_0)] :=
    bits_pack 0 1 (by simp [GateDesc.fields]) (by simp [GateDesc.fields])
  have high : bits d.word 48 16 = pack [(16, d.offset31_16)] :=
    bits_pack 8 1 (by simp [GateDesc.fields]) (by simp [GateDesc.fields])
  rw [gateOffset, low, high, pack_singleton, pack_singleton]

theorem gateOffset_setGate (fits : offset < 2 ^ 32) (istrap : Bool) :
    gateOffset (setGate istrap selector offset dpl).word = offset := by
  rw [GateDesc.offset_word]
  change (offset &&& (2 ^ 16 - 1)) % 2 ^ 16 +
    2 ^ 16 * (((offset >>> 16) &&& (2 ^ 16 - 1)) % 2 ^ 16) = offset
  rw [low_bits, bits_at]
  omega

theorem gateSelector_setGate (fits : selector < 2 ^ 16) (istrap : Bool) :
    gateSelector (setGate istrap selector offset dpl).word = selector := by
  have read : gateSelector (setGate istrap selector offset dpl).word = pack [(16, selector)] :=
    bits_pack 1 1 (by simp [GateDesc.fields]) (by simp [GateDesc.fields])
  rw [read, pack_singleton, Nat.mod_eq_of_lt fits]

theorem gateAttributes_setGate (istrap : Bool) :
    gateAttributes (setGate istrap selector offset dplKernel).word =
      if istrap then 0x8F else 0x8E := by
  have read : gateAttributes (setGate istrap selector offset dplKernel).word =
      pack [(4, if istrap then stsTg32 else stsIg32), (1, 0), (2, dplKernel), (1, 1)] :=
    bits_pack 4 4 (by simp [GateDesc.fields]) (by simp [GateDesc.fields])
  rw [read]
  cases istrap <;> decide

end

end OhMyOs.Kernel.Descriptors
