/- GID: OhMyOs/Mm/PageMapCover
   generality: I
   digest: page_map of mm/page_table.c byte by byte: which requested addresses it maps. -/

import OhMyOs.Mm.StartPaging

set_option autoImplicit false
set_option relaxedAutoImplicit false

namespace OhMyOs.Mm.PageMapCover

open OhMyOs.Include.Constants
open OhMyOs.Include.Bitops OhMyOs.Include.Memory OhMyOs.Mm.PageTable OhMyOs.Mm.StartPaging

def pageOffset (x : Nat) : Nat := x &&& 0xfff

/-- The physical address that the processor uses for a virtual one; `none` is not-present. -/
def translate (mem : Mem) (pgdir : Word) (v : Nat) : Option Nat :=
  (walk mem pgdir v).map fun pte => (pageBase pte).toNat + pageOffset v

def MapsBytes (alloc : Mem → Word) (mem : Mem) (pgdir : Word) (va pa size : Nat) (flag : Word) :
    Prop :=
  ∃ new, pageMap alloc mem pgdir va pa size flag = some new ∧
    ∀ i < size, translate new pgdir (va + i) = some ((pa + i) % 2 ^ 32)

/-! ### Addresses and entries -/

theorem pageOffset_eq (x : Nat) : pageOffset x = x % pageSize :=
  Nat.and_two_pow_sub_one_eq_mod _ 12

theorem pageBase_toNat (w : Word) : (pageBase w).toNat = roundDownPage w.toNat := by
  have shifted : pageBase w = w >>> 12 <<< 12 := by
    have mask : ∀ i : Fin 32, (~~~(0xfff : Word)).getLsbD i = decide (12 ≤ i.val) := by decide
    unfold pageBase
    ext i lt
    have bit : (~~~(0xfff : Word))[i] = decide (12 ≤ i) := mask ⟨i, lt⟩
    rw [BitVec.getElem_and, bit, BitVec.getElem_shiftLeft]
    by_cases low : i < 12
    · simp [low]
    · have rest : 12 + (i - 12) = i := by omega
      simp [low, rest, Nat.le_of_not_lt low, BitVec.getLsbD_eq_getElem lt]
  have small := w.isLt
  rw [shifted, roundDownPage, roundDown_eq_mul]
  simp only [BitVec.toNat_shiftLeft, BitVec.toNat_ushiftRight, Nat.shiftLeft_eq,
    Nat.shiftRight_eq_div_pow, pageSize]
  omega

theorem pageBase_entry {pa : Nat} {flag : Word} (aligned : pageSize ∣ pa)
    (flags : pageBase flag = 0) :
    pageBase (BitVec.ofNat 32 pa ||| flag ||| pteP) = BitVec.ofNat 32 pa := by
  have split : pageBase (BitVec.ofNat 32 pa ||| flag ||| pteP) =
      pageBase (BitVec.ofNat 32 pa) ||| pageBase flag ||| pageBase pteP := by
    unfold pageBase
    grind
  have whole : pageBase (BitVec.ofNat 32 pa) = BitVec.ofNat 32 pa := by
    apply BitVec.eq_of_toNat_eq
    rw [pageBase_toNat, BitVec.toNat_ofNat, roundDownPage, roundDown_eq_mul]
    unfold pageSize at aligned ⊢
    omega
  have present : pageBase pteP = 0 := by decide
  rw [split, whole, flags, present]
  simp

private theorem reached_iff {va size i : Nat} (bound : size ≤ 2 ^ 32 - pageSize) :
    roundDownPage (va + i) < roundDownPage va + size ↔
      pageOffset va + i < roundUp size pageSize := by
  have fits : size + pageSize ≤ 2 ^ 32 := by
    unfold pageSize at bound ⊢
    omega
  obtain ⟨low, high⟩ := roundUp_bounds (show 0 < pageSize by decide) fits
  have whole := dvd_roundUp size pageSize
  have first := Nat.div_add_mod va pageSize
  have page := Nat.div_add_mod (va + i) pageSize
  have offset := Nat.mod_lt (va + i) (show 0 < pageSize by decide)
  rw [pageOffset_eq, roundDownPage, roundDownPage, roundDown_eq_mul, roundDown_eq_mul]
  generalize roundUp size pageSize = last at low high whole ⊢
  unfold pageSize at *
  omega

/-! ### The call -/

section
variable {exempt : Set Nat} {pgdir : Word} {mem : Mem} {alloc : Mem → Word}
  {va pa size : Nat} {flag : Word}

private theorem pageLoop_never (large : 2 ^ 32 - pageSize < size) (entry : Nat → Word) (fuel : Nat)
    {va pa offset : Nat} (aligned : pageSize ∣ offset) (word : offset < 2 ^ 32) :
    pageLoop alloc pgdir entry size fuel mem va pa offset = none := by
  induction fuel generalizing mem va pa offset with
  | zero => rfl
  | succ fuel ih =>
    have more : offset < size := by
      unfold pageSize at aligned large
      omega
    have aligned' : pageSize ∣ (offset + pageSize) % 2 ^ 32 := by
      unfold pageSize at aligned ⊢
      omega
    rw [pageLoop_succ, if_pos more]
    exact ih aligned' (Nat.mod_lt _ (by decide))

private theorem pageMap_translate (tables : Tables exempt pgdir mem)
    (fresh : ∀ mem, Tables exempt pgdir mem → Fresh exempt pgdir mem (alloc mem))
    (word : va < 2 ^ 32) (word' : pa < 2 ^ 32) (offsets : pageOffset va = pageOffset pa)
    (inside : va + size ≤ 2 ^ 32) (bound : size ≤ 2 ^ 32 - pageSize)
    (slots : ∀ v, roundDownPage va ≤ v → v < va + size → pdeIndex v ∉ exempt)
    (flags : pageBase flag = 0) :
    ∃ new, pageMap alloc mem pgdir va pa size flag = some new ∧
      ∀ i < size, translate new pgdir (va + i) =
        if pageOffset va + i < roundUp size pageSize then some ((pa + i) % 2 ^ 32)
        else translate mem pgdir (va + i) := by
  have start : roundDownPage va ≤ va := roundDown_le va pageSize
  have allowed : PtOp.Allowed exempt pgdir (.pageMap va pa size flag alloc) := by
    refine ⟨⟨word, word'⟩, bound, Nat.le_trans (Nat.add_le_add_right start size) inside, ?_, fresh⟩
    intro v covers
    obtain ⟨low, high⟩ := of_decide_eq_true covers
    exact slots v low (Nat.lt_of_lt_of_le high (Nat.add_le_add_right start size))
  obtain ⟨new, call, -, walks⟩ := ptOp_walk tables allowed
  refine ⟨new, call, fun i among => ?_⟩
  have aligned := roundDownPage_aligned (va + i)
  have low : roundDownPage (va + i) ≤ va + i := roundDown_le _ _
  have high : va + i < roundDownPage (va + i) + pageSize := lt_roundDown_add (by decide) _
  have after : roundDownPage va ≤ roundDownPage (va + i) := by
    have whole := roundDownPage_aligned va
    unfold pageSize at aligned whole high
    omega
  have found := walks _ (by omega) aligned (slots _ after (by omega))
  have covered : (PtOp.pageMap va pa size flag alloc).covers (roundDownPage (va + i)) = true ↔
      pageOffset va + i < roundUp size pageSize := by
    rw [← reached_iff bound, covers_iff_between]
    exact and_iff_right after
  rw [translate, translate, walk_page aligned low high, walk_page aligned low high, found]
  simp only [covered]
  split_ifs with reached
  · have page : pageSize ∣ roundDownPage pa + (roundDownPage (va + i) - roundDownPage va) :=
      Nat.dvd_add (roundDownPage_aligned pa) (Nat.dvd_sub aligned (roundDownPage_aligned va))
    rw [PtOp.result, Option.map_some, pageBase_entry page flags, BitVec.toNat_ofNat]
    congr 1
    rw [pageOffset_eq, pageOffset_eq] at offsets
    rw [pageOffset_eq]
    clear found covered call walks
    unfold roundDownPage roundDown pageSize at *
    omega
  · rfl

/-- The loop counts the size from the start of the first page, so the bytes after the last whole
page are mapped only if they were. -/
theorem pageMap_covers_iff (tables : Tables exempt pgdir mem)
    (fresh : ∀ mem, Tables exempt pgdir mem → Fresh exempt pgdir mem (alloc mem))
    (word : va < 2 ^ 32) (word' : pa < 2 ^ 32) (offsets : pageOffset va = pageOffset pa)
    (inside : va + size ≤ 2 ^ 32)
    (slots : ∀ v, roundDownPage va ≤ v → v < va + size → pdeIndex v ∉ exempt)
    (flags : pageBase flag = 0) :
    MapsBytes alloc mem pgdir va pa size flag ↔
      size ≤ 2 ^ 32 - pageSize ∧ ∀ i < size, roundUp size pageSize ≤ pageOffset va + i →
        translate mem pgdir (va + i) = some ((pa + i) % 2 ^ 32) := by
  by_cases bound : size ≤ 2 ^ 32 - pageSize
  · obtain ⟨new, call, bytes⟩ :=
      pageMap_translate tables fresh word word' offsets inside bound slots flags
    rw [and_iff_right bound]
    constructor
    · rintro ⟨same, call', maps⟩ i among beyond
      obtain rfl : new = same := Option.some.inj (call.symm.trans call')
      rw [← maps i among, bytes i among, if_neg (Nat.not_lt.mpr beyond)]
    · intro kept
      refine ⟨new, call, fun i among => ?_⟩
      rw [bytes i among]
      split_ifs with reached
      · rfl
      · exact kept i among (Nat.le_of_not_lt reached)
  · refine iff_of_false ?_ fun both => bound both.1
    rintro ⟨new, call, -⟩
    have never : pageMap alloc mem pgdir va pa size flag = none :=
      pageLoop_never (Nat.lt_of_not_le bound) _ _ (Nat.dvd_zero _) (by decide)
    rw [never] at call
    cases call

end

private theorem low_slots {va size : Nat} (low : va + size ≤ 2 ^ 22) :
    ∀ v, roundDownPage va ≤ v → v < va + size → pdeIndex v ∉ ({pdeIndex vpt} : Set Nat) := by
  intro v _ high
  apply vmalloc_slot
  unfold vmallocEnd kernelVirtBase
  omega

/-- The second half of a page. -/
theorem pageMap_covers_iff_half :
    ∃ alloc, MapsBytes alloc selfMapped 0x1000 0x1800 0x8800 0x800 pteW := by
  obtain ⟨alloc, fresh⟩ := exists_alloc {pdeIndex vpt} 0x1000
  refine ⟨alloc, (pageMap_covers_iff selfMapped_tables fresh (by decide) (by decide) (by decide)
    (by decide) (low_slots (by decide)) (by decide)).mpr ⟨by decide, fun i among beyond => ?_⟩⟩
  have last : roundUp 0x800 pageSize = 0x1000 := by decide
  have first : pageOffset 0x1800 = 0x800 := by decide
  omega

/-- Two bytes on two pages: only the first is mapped. -/
theorem pageMap_misses_byte :
    ∃ (exempt : Set Nat) (pgdir : Word) (mem : Mem) (alloc : Mem → Word) (va pa size : Nat)
      (flag : Word), Tables exempt pgdir mem ∧
        (∀ mem, Tables exempt pgdir mem → Fresh exempt pgdir mem (alloc mem)) ∧
        pageOffset va = pageOffset pa ∧ va + size ≤ 2 ^ 32 ∧ pa + size ≤ 2 ^ 32 ∧
        (∀ v, roundDownPage va ≤ v → v < va + size → pdeIndex v ∉ exempt) ∧
        pageBase flag = 0 ∧ ¬ MapsBytes alloc mem pgdir va pa size flag := by
  obtain ⟨alloc, fresh⟩ := exists_alloc {pdeIndex vpt} 0x1000
  have slots := low_slots (show 0x1fff + 2 ≤ 2 ^ 22 by decide)
  refine ⟨{pdeIndex vpt}, 0x1000, selfMapped, alloc, 0x1fff, 0x8fff, 2, pteW, selfMapped_tables,
    fresh, by decide, by decide, by decide, slots, by decide, ?_⟩
  rintro ⟨new, call, maps⟩
  obtain ⟨same, call', bytes⟩ := pageMap_translate selfMapped_tables fresh (by decide) (by decide)
    (show pageOffset 0x1fff = pageOffset 0x8fff by decide) (by decide) (by decide) slots
    (show pageBase pteW = 0 by decide)
  obtain rfl : new = same := Option.some.inj (call.symm.trans call')
  have unmapped : translate selfMapped 0x1000 (0x1fff + 1) = none := by decide
  have second := bytes 1 (by decide)
  rw [maps 1 (by decide), if_neg (by decide), unmapped] at second
  cases second

end OhMyOs.Mm.PageMapCover
