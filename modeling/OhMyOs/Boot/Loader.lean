/- GID: OhMyOs/Boot/Loader
   generality: I
   digest: The boot loader of boot/setup/main.c: whole sectors, the last segment wins. -/

import OhMyOs.Include.Bitops
import OhMyOs.Include.Constants
import OhMyOs.Lib.LastWriter
import OhMyOs.Lib.Outcome

set_option autoImplicit false
set_option relaxedAutoImplicit false

namespace OhMyOs.Boot.Loader

open OhMyOs.Include.Constants
open OhMyOs.Include.Bitops OhMyOs.Lib.LastWriter OhMyOs.Lib.Outcome

/-! ### The code -/

abbrev Mem := Nat → Byte
abbrev Disk := Nat → Byte

def sectSize : Nat := 512

def elfhdr : Nat := 0x10000

def elfMagic : Nat := 0x464C457F

inductive Fault
  | badImage
  | endless
  deriving DecidableEq

/-- The registers of the disk keep 28 bits of the sector number. -/
def readsect (disk : Disk) (mem : Mem) (dst secno : Nat) : Mem := fun a =>
  if wsub a dst < sectSize then disk (sectSize * (secno % 2 ^ 28) + wsub a dst) else mem a

/-- The loop of `readseg`. It does not end if `va` wraps around before it reaches the end. -/
def readsegLoop (disk : Disk) : Nat → Mem → Nat → Nat → Nat → Except Fault Mem
  | 0, _, _, _, _ => .error .endless
  | fuel + 1, mem, va, endVa, secno =>
    if va < endVa then
      readsegLoop disk fuel (readsect disk mem va secno) ((va + sectSize) % 2 ^ 32) endVa
        ((secno + 1) % 2 ^ 32)
    else .ok mem

/-- More rounds than there are sectors of memory. -/
def readFuel : Nat := 2 ^ 23 + 1

def readseg (disk : Disk) (mem : Mem) (va count offset : Nat) : Except Fault Mem :=
  let endVa := (va + count) % 2 ^ 32
  readsegLoop disk readFuel mem (wsub va (offset % sectSize)) endVa (offset / sectSize)

def short (mem : Nat → Byte) (a : Nat) : Nat := (mem a).toNat + (mem (a + 1)).toNat * 2 ^ 8

def long (mem : Nat → Byte) (a : Nat) : Nat := short mem a + short mem (a + 2) * 2 ^ 16

/-- The fields of `struct proghdr` that are read here or describe the file. -/
structure ProgHdr where
  offset : Nat
  va : Nat
  filesz : Nat
  memsz : Nat
  deriving DecidableEq

def progHdr (mem : Nat → Byte) (ph : Nat) : ProgHdr :=
  ⟨long mem (ph + 4), long mem (ph + 8), long mem (ph + 16), long mem (ph + 20)⟩

namespace ProgHdr

/-- `ph->p_va & 0xFFFFFF` -/
def target (h : ProgHdr) : Nat := h.va &&& 0xFFFFFF

/-- `SECTSIZE * 4 + ph->p_offset` -/
def source (h : ProgHdr) : Nat := (sectSize * 4 + h.offset) % 2 ^ 32

end ProgHdr

/-- The loop of `bootmain`; every header is read from the scratch space when its turn comes. -/
def loadLoop (disk : Disk) : Nat → Mem → Nat → Nat → Except Fault Mem
  | 0, _, _, _ => .error .endless
  | fuel + 1, mem, ph, eph =>
    if ph < eph then do
      let h := progHdr mem ph
      let mem ← readseg disk mem h.target h.memsz h.source
      loadLoop disk fuel mem ((ph + 32) % 2 ^ 32) eph
    else .ok mem

/-- More rounds than there are headers. -/
def loadFuel : Nat := 2 ^ 16

/-- `bootmain` up to the end of its loop. -/
def loadSegments (disk : Disk) (mem : Mem) : Except Fault Mem := do
  let mem ← readseg disk mem elfhdr (sectSize * 8) (sectSize * 4)
  if long mem elfhdr ≠ elfMagic then .error .badImage
  else
    let ph := (elfhdr + long mem (elfhdr + 28)) % 2 ^ 32
    let eph := (ph + 32 * short mem (elfhdr + 44)) % 2 ^ 32
    loadLoop disk loadFuel mem ph eph

/-! ### The image -/

/-- The file starts at the fifth sector of the disk. -/
def image (disk : Disk) : Nat → Byte := fun n => disk (sectSize * 4 + n)

def headersAt (mem : Nat → Byte) : Nat → Nat → List ProgHdr
  | 0, _ => []
  | n + 1, ph => progHdr mem ph :: headersAt mem n (ph + 32)

def phoff (disk : Disk) : Nat := long (image disk) 28
def phnum (disk : Disk) : Nat := short (image disk) 44

def headers (disk : Disk) : List ProgHdr := headersAt (image disk) (phnum disk) (phoff disk)

def InScratch (x : Nat) : Prop := elfhdr ≤ x ∧ x < elfhdr + sectSize * 8

/-- The images in question: the headers lie in the sectors that are read first, in increasing
order; no two bytes of segments have the same masked address, and none has one of the scratch
space; memory and file agree on the position in a sector. -/
structure Loadable (disk : Disk) : Prop where
  magic : long (image disk) 0 = elfMagic
  table : phoff disk + 32 * phnum disk ≤ sectSize * 8
  increasing : (headers disk).Pairwise fun h h' => h.va < h'.va
  distinct : ∀ h ∈ headers disk, ∀ h' ∈ headers disk, ∀ i < h.memsz, ∀ i' < h'.memsz,
    (h.va + i) &&& 0xFFFFFF = (h'.va + i') &&& 0xFFFFFF → h = h' ∧ i = i'
  away : ∀ h ∈ headers disk, ∀ i < max 1 h.memsz, ¬ InScratch ((h.va + i) &&& 0xFFFFFF)
  aligned : ∀ h ∈ headers disk, h.va % sectSize = h.offset % sectSize
  sizes : ∀ h ∈ headers disk, h.filesz ≤ h.memsz

def Intact (disk : Disk) (mem : Mem) : Prop :=
  ∀ h ∈ headers disk, ∀ i < h.filesz, mem (h.target + i) = image disk (h.offset + i)

def ProgHdr.covers (h : ProgHdr) (x : Nat) : Bool :=
  roundDown h.target sectSize ≤ x ∧ x < roundUp (h.target + h.memsz) sectSize

def ProgHdr.byte (h : ProgHdr) (disk : Disk) (x : Nat) : Byte := disk (h.source + x - h.target)

/-- For every byte of a segment in the file, the last segment whose sectors cover its address has
the same byte on the disk at that place. -/
def Undisturbed (disk : Disk) : Prop :=
  ∀ h ∈ headers disk, ∀ i < h.filesz, ∀ last,
    (headers disk).reverse.find? (fun j => j.covers (h.target + i)) = some last →
      last.byte disk (h.target + i) = image disk (h.offset + i)

/-! ### Reading sectors -/

private theorem wsub_lt_iff {a dst : Nat} (word : a < 2 ^ 32) (room : dst + sectSize ≤ 2 ^ 32) :
    wsub a dst < sectSize ↔ dst ≤ a ∧ a < dst + sectSize := by
  unfold wsub sectSize at *
  omega

private theorem readsect_apply {disk : Disk} {mem : Mem} {dst secno a : Nat} (word : a < 2 ^ 32)
    (room : dst + sectSize ≤ 2 ^ 32) (sector : secno < 2 ^ 28) :
    readsect disk mem dst secno a =
      if dst ≤ a ∧ a < dst + sectSize then disk (sectSize * secno + (a - dst)) else mem a := by
  unfold readsect
  rw [Nat.mod_eq_of_lt sector]
  simp only [wsub_lt_iff word room]
  split
  · rename_i inside
    rw [wsub_eq inside.1 word]
  · rfl

private theorem readsegLoop_apply (disk : Disk) {endVa stop : Nat} (fuel : Nat)
    (whole : sectSize ∣ stop) (low : endVa ≤ stop) (high : stop < endVa + sectSize)
    (room : stop + sectSize ≤ 2 ^ 32) :
    ∀ (mem : Mem) (va secno : Nat), sectSize ∣ va → va ≤ stop → stop ≤ va + sectSize * fuel →
      sectSize * secno + (stop - va) ≤ 2 ^ 37 →
      ∃ new, readsegLoop disk (fuel + 1) mem va endVa secno = .ok new ∧ ∀ a < 2 ^ 32,
        new a = if va ≤ a ∧ a < stop then disk (sectSize * secno + (a - va)) else mem a := by
  induction fuel with
  | zero =>
    intro mem va secno _ below enough _
    refine ⟨mem, if_neg (by omega), fun a _ => ?_⟩
    rw [if_neg (by omega)]
  | succ fuel ih =>
    intro mem va secno aligned below enough bound
    rw [readsegLoop]
    by_cases more : va < endVa
    · have next : va + sectSize ≤ stop := by
        unfold sectSize at *
        omega
      have sector : secno < 2 ^ 28 := by
        unfold sectSize at *
        omega
      have word : (va + sectSize) % 2 ^ 32 = va + sectSize := Nat.mod_eq_of_lt (by omega)
      have count : (secno + 1) % 2 ^ 32 = secno + 1 := Nat.mod_eq_of_lt (by omega)
      rw [if_pos more, word, count]
      obtain ⟨new, loop, filled⟩ := ih (readsect disk mem va secno) (va + sectSize) (secno + 1)
        (Nat.dvd_add aligned (Nat.dvd_refl _)) next (by rw [Nat.mul_add] at enough; omega)
        (by rw [Nat.mul_add]; omega)
      refine ⟨new, loop, fun a fits => ?_⟩
      rw [filled a fits, readsect_apply fits (by omega) sector, Nat.mul_add]
      -- the first sector, those of the rest of the loop, and everything else
      by_cases first : va ≤ a ∧ a < va + sectSize
      · rw [if_neg (by omega), if_pos first, if_pos (by omega)]
      · by_cases later : va + sectSize ≤ a ∧ a < stop
        · have place : sectSize * secno + sectSize * 1 + (a - (va + sectSize)) =
              sectSize * secno + (a - va) := by omega
          rw [if_pos later, if_pos (by omega), place]
        · rw [if_neg later, if_neg first, if_neg (by omega)]
    · have done : va = stop := by
        unfold sectSize at *
        omega
      refine ⟨mem, if_neg more, fun a _ => ?_⟩
      rw [if_neg (by omega)]

private theorem readseg_apply (disk : Disk) (mem : Mem) (va count offset : Nat)
    (aligned : va % sectSize = offset % sectSize) (room : va + count + 2 * sectSize ≤ 2 ^ 32)
    (word : offset < 2 ^ 32) :
    ∃ new, readseg disk mem va count offset = .ok new ∧ ∀ a < 2 ^ 32, new a =
      if roundDown va sectSize ≤ a ∧ a < roundUp (va + count) sectSize then disk (offset + a - va)
      else mem a := by
  have positive : 0 < sectSize := by decide
  have start : wsub va (offset % sectSize) = roundDown va sectSize := by
    rw [← aligned, wsub_eq (Nat.mod_le _ _) (by omega), roundDown]
  have stop : (va + count) % 2 ^ 32 = va + count := by
    apply Nat.mod_eq_of_lt
    omega
  obtain ⟨low, high⟩ := roundUp_bounds (a := va + count) (n := sectSize) (by decide) (by omega)
  have whole := dvd_roundUp (va + count) sectSize
  have below := roundDown_le va sectSize
  generalize roundUp (va + count) sectSize = last at low high whole ⊢
  obtain ⟨new, loop, filled⟩ := readsegLoop_apply disk (2 ^ 23) whole low high (by omega)
    mem (roundDown va sectSize) (offset / sectSize) (dvd_roundDown _ _) (by omega)
    (by unfold sectSize at *; omega) (by unfold sectSize at *; omega)
  refine ⟨new, ?_, fun a fits => ?_⟩
  · rw [readseg, start, stop]
    exact loop
  · rw [filled a fits]
    by_cases inside : roundDown va sectSize ≤ a ∧ a < last
    · have place : sectSize * (offset / sectSize) + (a - roundDown va sectSize) =
          offset + a - va := by
        have parts := Nat.div_add_mod offset sectSize
        have less := Nat.mod_le va sectSize
        unfold roundDown at inside ⊢
        omega
      rw [if_pos inside, if_pos inside, place]
    · rw [if_neg inside, if_neg inside]

/-! ### Loading segments -/

section
variable {disk : Disk} {mem new : Mem} {h : ProgHdr}

private theorem target_eq (h : ProgHdr) : h.target = h.va % 2 ^ 24 :=
  Nat.and_two_pow_sub_one_eq_mod h.va 24

/-- What is used of the headers: nothing wraps around, and the sectors of a segment do not touch
the scratch space. -/
structure Fits (h : ProgHdr) : Prop where
  aligned : h.target % sectSize = h.source % sectSize
  room : h.target + h.memsz + 2 * sectSize ≤ 2 ^ 32
  away : ∀ x, h.covers x = true → ¬ InScratch x

private theorem covers_iff {x : Nat} : h.covers x = true ↔
    roundDown h.target sectSize ≤ x ∧ x < roundUp (h.target + h.memsz) sectSize := by
  rw [ProgHdr.covers, decide_eq_true_iff]

private theorem Loadable.memsz_le (loadable : Loadable disk) (member : h ∈ headers disk) :
    h.memsz ≤ 2 ^ 24 := by
  by_contra large
  have same : (h.va + 0) &&& 0xFFFFFF = (h.va + 2 ^ 24) &&& 0xFFFFFF := by
    rw [Nat.and_two_pow_sub_one_eq_mod _ 24, Nat.and_two_pow_sub_one_eq_mod _ 24]
    omega
  have equal := (loadable.distinct h member h member 0 (by omega) (2 ^ 24) (by omega) same).2
  omega

private theorem Loadable.fits (loadable : Loadable disk) (member : h ∈ headers disk) : Fits h := by
  have small := loadable.memsz_le member
  have low : h.target < 2 ^ 24 := by
    rw [target_eq]
    exact Nat.mod_lt _ (by decide)
  have room : h.target + h.memsz + 2 * sectSize ≤ 2 ^ 32 := by
    unfold sectSize
    omega
  refine ⟨?_, room, fun x covered scratch => ?_⟩
  · have same := loadable.aligned h member
    rw [target_eq, ProgHdr.source]
    unfold sectSize at *
    omega
  · obtain ⟨first, last⟩ := covers_iff.mp covered
    have outside : ∀ i < max 1 h.memsz, ¬ InScratch (h.target + i) := by
      intro i less inside
      refine loadable.away h member i less ?_
      have address : (h.va + i) &&& 0xFFFFFF = h.target + i := by
        rw [Nat.and_two_pow_sub_one_eq_mod _ 24, target_eq]
        have below := inside.2
        rw [target_eq] at below
        unfold elfhdr sectSize at below
        omega
      rwa [address]
    obtain ⟨-, high⟩ :=
      roundUp_bounds (a := h.target + h.memsz) (n := sectSize) (by decide) (by omega)
    have whole := dvd_roundUp (h.target + h.memsz) sectSize
    have start := outside 0 (by omega)
    have stop := outside (h.memsz - 1) (by omega)
    have inner := outside (x - h.target)
    unfold InScratch elfhdr at *
    unfold roundDown at first
    unfold sectSize at *
    omega

private theorem Fits.load (fits : Fits h) (disk : Disk) (mem : Mem) :
    ∃ new, readseg disk mem h.target h.memsz h.source = .ok new ∧
      ∀ a < 2 ^ 32, new a = if h.covers a = true then h.byte disk a else mem a := by
  obtain ⟨new, call, filled⟩ := readseg_apply disk mem h.target h.memsz h.source
    fits.aligned fits.room (Nat.mod_lt _ (by decide))
  refine ⟨new, call, fun a word => ?_⟩
  rw [filled a word]
  simp only [covers_iff]
  rfl

def Scratch (disk : Disk) (mem : Mem) : Prop :=
  ∀ i < sectSize * 8, mem (elfhdr + i) = image disk i

private theorem Scratch.short (scratch : Scratch disk mem) {i : Nat}
    (inside : i + 2 ≤ sectSize * 8) :
    Loader.short mem (elfhdr + i) = Loader.short (image disk) i := by
  unfold Loader.short
  rw [scratch i (by omega), Nat.add_assoc, scratch (i + 1) (by omega)]

private theorem Scratch.long (scratch : Scratch disk mem) {i : Nat}
    (inside : i + 4 ≤ sectSize * 8) :
    Loader.long mem (elfhdr + i) = Loader.long (image disk) i := by
  unfold Loader.long
  rw [scratch.short (by omega), Nat.add_assoc, scratch.short (by omega)]

private theorem Scratch.progHdr (scratch : Scratch disk mem)
    {off : Nat} (inside : off + 32 ≤ sectSize * 8) :
    Loader.progHdr mem (elfhdr + off) = Loader.progHdr (image disk) off := by
  unfold Loader.progHdr
  simp only [Nat.add_assoc]
  rw [scratch.long (by omega), scratch.long (by omega), scratch.long (by omega),
    scratch.long (by omega)]

private theorem Scratch.keep (scratch : Scratch disk mem) (fits : Fits h)
    (filled : ∀ a < 2 ^ 32, new a = if h.covers a = true then h.byte disk a else mem a) :
    Scratch disk new := by
  intro i less
  have word : elfhdr + i < 2 ^ 32 := by
    unfold elfhdr sectSize at *
    omega
  have outside : ¬ h.covers (elfhdr + i) = true := fun covered =>
    fits.away _ covered ⟨by omega, by omega⟩
  rw [filled _ word, if_neg outside]
  exact scratch i less

private theorem loadLoop_apply (n : Nat) : ∀ (fuel : Nat) (mem : Mem) (off : Nat), n < fuel →
    off + 32 * n ≤ sectSize * 8 → Scratch disk mem →
    (∀ h ∈ headersAt (image disk) n off, Fits h) →
    ∃ new, loadLoop disk fuel mem (elfhdr + off) (elfhdr + off + 32 * n) = .ok new ∧
      ∀ a < 2 ^ 32, new a =
        lastWins (fun h : ProgHdr => h.covers a) (fun h => h.byte disk a) (mem a)
        (headersAt (image disk) n off) := by
  induction n with
  | zero =>
    intro fuel mem off enough _ _ _
    obtain ⟨fuel, rfl⟩ := Nat.exists_eq_succ_of_ne_zero (by omega : fuel ≠ 0)
    exact ⟨mem, if_neg (by omega), fun a _ => rfl⟩
  | succ n ih =>
    intro fuel mem off enough inside scratch fit
    obtain ⟨fuel, rfl⟩ := Nat.exists_eq_succ_of_ne_zero (by omega : fuel ≠ 0)
    have fits := fit _ List.mem_cons_self
    obtain ⟨mid, call, filled⟩ := fits.load disk mem
    obtain ⟨new, loop, result⟩ := ih fuel mid (off + 32) (by omega) (by omega)
      (scratch.keep fits filled) fun h member => fit h (List.mem_cons_of_mem _ member)
    have word : (elfhdr + off + 32) % 2 ^ 32 = elfhdr + (off + 32) := by
      unfold elfhdr sectSize at *
      omega
    have stop : elfhdr + off + 32 * (n + 1) = elfhdr + (off + 32) + 32 * n := by omega
    refine ⟨new, ?_, fun a fits' => ?_⟩
    · rw [loadLoop, if_pos (by omega), scratch.progHdr (by omega)]
      simp only [call, ok_bind, word, stop]
      exact loop
    · rw [headersAt, lastWins_cons, ← filled a fits', result a fits']

private theorem Loadable.load (loadable : Loadable disk) (mem : Mem) :
    ∃ start new : Mem, loadSegments disk mem = .ok new ∧ ∀ a < 2 ^ 32,
      new a = lastWins (fun h : ProgHdr => h.covers a) (fun h => h.byte disk a) (start a)
        (headers disk) := by
  obtain ⟨start, call, filled⟩ := readseg_apply disk mem elfhdr (sectSize * 8) (sectSize * 4)
    (by decide) (by decide) (by decide)
  have scratch : Scratch disk start := by
    intro i less
    have bounds : roundDown elfhdr sectSize = elfhdr ∧
        roundUp (elfhdr + sectSize * 8) sectSize = elfhdr + sectSize * 8 := by decide
    have word : elfhdr + i < 2 ^ 32 := by
      unfold elfhdr sectSize at *
      omega
    have place : sectSize * 4 + (elfhdr + i) - elfhdr = sectSize * 4 + i := by omega
    rw [filled _ word, bounds.1, bounds.2, if_pos ⟨by omega, by omega⟩, place]
    rfl
  have table := loadable.table
  obtain ⟨new, loop, result⟩ := loadLoop_apply (phnum disk) loadFuel start (phoff disk)
    (by unfold loadFuel sectSize at *; omega) table scratch fun h member => loadable.fits member
  refine ⟨start, new, ?_, result⟩
  have magic : long start elfhdr = elfMagic := by
    rw [← loadable.magic, ← scratch.long (i := 0) (by decide)]
    rfl
  have first : (elfhdr + phoff disk) % 2 ^ 32 = elfhdr + phoff disk := by
    unfold elfhdr sectSize at *
    omega
  have last : (elfhdr + phoff disk + 32 * phnum disk) % 2 ^ 32 =
      elfhdr + phoff disk + 32 * phnum disk := by
    unfold elfhdr sectSize at *
    omega
  rw [loadSegments, call, ok_bind, if_neg (not_not.mpr magic)]
  simp only [scratch.long (i := 28) (by decide), scratch.short (i := 44) (by decide)]
  rw [show long (image disk) 28 = phoff disk from rfl,
    show short (image disk) 44 = phnum disk from rfl,
    first, last]
  exact loop

private theorem Fits.covers_own (fits : Fits h) {i : Nat} (less : i < h.memsz) :
    h.covers (h.target + i) = true := by
  have low := roundDown_le h.target sectSize
  have room := fits.room
  obtain ⟨high, -⟩ :=
    roundUp_bounds (a := h.target + h.memsz) (n := sectSize) (by decide) (by omega)
  exact covers_iff.mpr ⟨by omega, by omega⟩

/-- The segments are intact after the loading if and only if none is disturbed by the sectors of
a later one. -/
theorem loadSegments_intact_iff (loadable : Loadable disk) (mem : Mem) :
    ∃ new, loadSegments disk mem = .ok new ∧ (Intact disk new ↔ Undisturbed disk) := by
  obtain ⟨start, new, call, result⟩ := loadable.load mem
  refine ⟨new, call, forall_congr' fun h => forall_congr' fun member => forall_congr' fun i =>
    forall_congr' fun less => ?_⟩
  have fits := loadable.fits member
  have inside : i < h.memsz := by
    have sizes := loadable.sizes h member
    omega
  have word : h.target + i < 2 ^ 32 := by
    have room := fits.room
    omega
  have written : ∃ last, (headers disk).reverse.find? (fun j => j.covers (h.target + i)) =
      some last := exists_last member (fits.covers_own inside)
  obtain ⟨last, found⟩ := written
  rw [result _ word, lastWins_of_find found]
  constructor
  · intro same other found'
    rw [← Option.some.inj (found.symm.trans found')]
    exact same
  · intro same
    exact same last found

end

/-! ### Two segments -/

instance (x : Nat) : Decidable (InScratch x) := inferInstanceAs (Decidable (_ ∧ _))

def put (off value : Nat) : List (Nat × Byte) :=
  (List.range 4).map fun k => (off + k, BitVec.ofNat 8 (value >>> (8 * k)))

def putHdr (off : Nat) (h : ProgHdr) : List (Nat × Byte) :=
  put (off + 4) h.offset ++ put (off + 8) h.va ++ put (off + 16) h.filesz ++ put (off + 20) h.memsz

def twoSegments (a b : ProgHdr) : Disk := fun n =>
  let bytes :=
    put 0 elfMagic ++ put 28 52 ++ put 44 2 ++ putHdr 52 a ++ putHdr 84 b ++ [(0x1000, 1)]
  if sectSize * 4 ≤ n then
    ((bytes.find? fun b => b.1 = n - sectSize * 4).map Prod.snd).getD 0
  else 0

def firstHdr : ProgHdr := ⟨0x1000, 0xC0100000, 16, 16⟩
def nextHdr : ProgHdr := ⟨0x1210, 0xC0100010, 16, 16⟩
def apartHdr : ProgHdr := ⟨0x1200, 0xC0100200, 16, 16⟩

private theorem apart_headers : headers (twoSegments firstHdr apartHdr) = [firstHdr, apartHdr] := by
  decide +kernel

private theorem apart_loadable : Loadable (twoSegments firstHdr apartHdr) := by
  refine ⟨by decide +kernel, by decide +kernel, ?_, ?_, ?_, ?_, ?_⟩ <;> rw [apart_headers]
  · decide
  · decide +kernel
  · decide +kernel
  · decide
  · decide

theorem loadSegments_intact_iff_apart :
    ∃ new, loadSegments (twoSegments firstHdr apartHdr) (fun _ => 0) = .ok new ∧
      Intact (twoSegments firstHdr apartHdr) new := by
  obtain ⟨new, call, intact⟩ := loadSegments_intact_iff apart_loadable fun _ => 0
  refine ⟨new, call, intact.mpr ?_⟩
  unfold Undisturbed
  rw [apart_headers]
  decide +kernel

private theorem next_headers : headers (twoSegments firstHdr nextHdr) = [firstHdr, nextHdr] := by
  decide +kernel

private theorem next_loadable : Loadable (twoSegments firstHdr nextHdr) := by
  refine ⟨by decide +kernel, by decide +kernel, ?_, ?_, ?_, ?_, ?_⟩ <;> rw [next_headers]
  · decide
  · decide +kernel
  · decide +kernel
  · decide
  · decide

/-- The second segment starts in the sector in which the first one lies: reading its sector
replaces the first segment by what precedes the second one in the file. -/
theorem loadSegments_shared_sector :
    ∃ new, Loadable (twoSegments firstHdr nextHdr) ∧
      loadSegments (twoSegments firstHdr nextHdr) (fun _ => 0) = .ok new ∧ new 0x100000 = 0 ∧
        image (twoSegments firstHdr nextHdr) 0x1000 = 1 ∧
          ¬ Intact (twoSegments firstHdr nextHdr) new := by
  obtain ⟨start, new, call, result⟩ := next_loadable.load fun _ => 0
  have found : (headers (twoSegments firstHdr nextHdr)).reverse.find?
      (fun h => h.covers 0x100000) = some nextHdr := by
    rw [next_headers]
    decide
  have lost : new 0x100000 = 0 := by
    rw [result _ (by decide), lastWins_of_find found]
    decide +kernel
  have wanted : image (twoSegments firstHdr nextHdr) 0x1000 = 1 := by decide +kernel
  refine ⟨new, next_loadable, call, lost, wanted, fun intact => ?_⟩
  have same : new 0x100000 = image (twoSegments firstHdr nextHdr) 0x1000 :=
    intact firstHdr (by rw [next_headers]; decide) 0 (by decide)
  rw [lost, wanted] at same
  contradiction

end OhMyOs.Boot.Loader
