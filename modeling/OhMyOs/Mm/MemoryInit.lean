/- GID: OhMyOs/Mm/MemoryInit
   generality: I
   digest: memory_init of mm/memory.c up to start_paging: the page directory it builds in a page
   that still holds what was in RAM. -/

import OhMyOs.Mm.MemoryHandover
import OhMyOs.Mm.PageMapCover

set_option autoImplicit false
set_option relaxedAutoImplicit false

namespace OhMyOs.Mm.MemoryInit

open OhMyOs.Include.Constants
open OhMyOs.Include.Bitops OhMyOs.Include.Memory OhMyOs.Mm.PageTable OhMyOs.Mm.StartPaging
open OhMyOs.Mm.PageAllocator (PageState allocPages pageInit totalPages)
open OhMyOs.Mm.PageRuns (PageInv)
open OhMyOs.Mm.MemorySlots OhMyOs.Mm.PageMapCover
open OhMyOs.Lib.Dyadic

/-! ### The code -/

def gfpNormal : BitVec 32 := 0x02#32

structure BootState where
  pages : PageState
  mem : Mem

/-- The physical address of the page that `alloc_page` returns. The callers do not test for NULL,
which is `none`. -/
def allocFrame (pages : PageState) : Option (Word × PageState) :=
  match allocPages pages gfpNormal 0 with
  | (some page, pages) => some (BitVec.ofNat 32 (pageToPhys page), pages)
  | (none, _) => none

namespace BootState

/-- Without a table in the slot the next page becomes one. -/
def getPte (s : BootState) (pgdir : Word) (va : Nat) : Option (BootState × Word × Nat) := do
  let (frame, pages) ←
    if s.mem pgdir (pdeIndex va) &&& pteP = 0 then allocFrame s.pages else some (0, s.pages)
  let (mem, table, index) := PageTable.getPte (fun _ => frame) s.mem pgdir va
  return (⟨pages, mem⟩, table, index)

def mapLoop (pgdir flag : Word) (size : Nat) :
    Nat → BootState → Nat → Nat → Nat → Option BootState :=
  rangeLoop (fun s va pa => do
    let (s, table, index) ← s.getPte pgdir va
    return { s with mem := store s.mem table index (BitVec.ofNat 32 pa ||| flag ||| pteP) }) size

def pageMap (s : BootState) (pgdir : Word) (va pa size : Nat) (flag : Word) : Option BootState :=
  mapLoop pgdir flag size loopFuel s (roundDownPage va) (roundDownPage pa) 0

end BootState

def initialised (s : MemoryState) : MemoryState :=
  { s with pages := pageInit s.pages.links s.pages.highmemStartPfn }

def wordAt (mem : Mem) (pa : Nat) : Word :=
  mem (BitVec.ofNat 32 (roundDownPage pa)) (pa % pageSize / 4)

def setWord (mem : Mem) (pa : Nat) (w : Word) : Mem :=
  store mem (BitVec.ofNat 32 (roundDownPage pa)) (pa % pageSize / 4) w

/-- A store of four bytes, which are in two words if the address is not aligned. -/
def storeBytes (mem : Mem) (pa : Nat) (w : Word) : Mem :=
  let bits := 8 * (pa % 4)
  let low := pa - pa % 4
  let high := (low + 4) % 2 ^ 32
  let mem := setWord mem low (wordAt mem low &&& BitVec.ofNat 32 (2 ^ bits - 1) ||| w <<< bits)
  setWord mem high (wordAt mem high >>> bits <<< bits ||| w >>> (32 - bits))

/-- `current->proc->mm = mm` while `current` is NULL: the pointer `proc`, at offset 12 of the
thread, and the field `mm`, at offset 4 of the process, are where the boot segments lead, which take
`KERNEL_VIRT_BASE` off. A store past the end of the segment faults, and one below the end of the
kernel changes the kernel itself, which is not followed. -/
def setMm (mem : Mem) (mm : Word) (kernelEnd : Nat) : Option Mem :=
  let proc := wordAt mem (virtToPhys 12)
  let field := (proc.toNat + 4) % 2 ^ 32
  let pa := virtToPhys field
  if field + 4 ≤ 2 ^ 32 ∧ virtToPhys kernelEnd ≤ pa ∧ pa + 4 ≤ 2 ^ 32 then
    some (storeBytes mem pa mm)
  else none

/-- Up to `start_paging`, with the directory. The `kmalloc` for the context, which returns `mm`, is
one of the early heap, which is a part of the kernel image. -/
def memoryInit (s : MemoryState) (mem : Mem) (mm : Word) (e820 : E820) (kernelEnd : Nat) :
    Option (Word × BootState) := do
  let s ← scanMemorySlot (initialised s) e820 kernelEnd
  let mem ← setMm mem mm kernelEnd
  let (cr3, pages) ← allocFrame s.pages
  let mem := setPde mem cr3 (pdeIndex vpt) cr3 (pdeP ||| pdeW)
  let size := (s.linearEndPfn <<< pageShift) % 2 ^ 32
  let t ← BootState.pageMap ⟨pages, mem⟩ cr3 kernelVirtBase 0 size pteW
  return (cr3, { t with mem := startPaging t.mem cr3 })

/-! ### What the directory is for -/

def takeFrames : Nat → PageState → Option (List Word)
  | 0, _ => some []
  | n + 1, pages => (allocFrame pages).bind fun (frame, pages) =>
    (takeFrames n pages).map fun frames => frame :: frames

def slotsFor (bytes : Nat) : Nat := (bytes + (2 ^ 22 - 1)) / 2 ^ 22

def firstSlot : Nat := pdeIndex kernelVirtBase

def tableEntry (frame : Word) : Word := frame ||| (pdeP ||| pdeW) ||| pdeP

def linearEntry (v : Nat) : Word :=
  BitVec.ofNat 32 (roundDownPage (v - kernelVirtBase)) ||| pteW ||| pteP

def selfEntry (pgdir : Word) (frames : List Word) (i : Nat) : Option Word :=
  if i = pdeIndex vpt then some (tableEntry pgdir)
  else if firstSlot ≤ i then (frames[i - firstSlot]?).map tableEntry
  else none

def bootWalk (pgdir : Word) (frames : List Word) (linearEndPfn v : Nat) : Option Word :=
  if kernelVirtBase ≤ v ∧ v < kernelVirtBase + linearEndPfn * pageSize then some (linearEntry v)
  else if pdeIndex v = pdeIndex vpt then selfEntry pgdir frames (pteIndex v)
  else none

def LinearSlot (n i : Nat) : Prop := firstSlot ≤ i ∧ i < firstSlot + n

def UnusedSlot (n i : Nat) : Prop := i < 1024 ∧ i ≠ 0 ∧ i ≠ pdeIndex vpt ∧ ¬ LinearSlot n i

/-! ### Pages of the allocator -/

private theorem frame_toNat {page : Nat} (small : page < totalPages) :
    (BitVec.ofNat 32 (pageToPhys page)).toNat = page * 4096 := by
  unfold totalPages at small
  rw [BitVec.toNat_ofNat, pageToPhys, pageSize]
  omega

private theorem frame_aligned (page : Nat) :
    pageBase (BitVec.ofNat 32 (pageToPhys page)) = BitVec.ofNat 32 (pageToPhys page) := by
  apply BitVec.eq_of_toNat_eq
  rw [pageBase_toNat, BitVec.toNat_ofNat, roundDownPage, roundDown_eq_mul, pageToPhys, pageSize]
  omega

private theorem takeFrames_succ {n : Nat} {pages : PageState} {frames : List Word}
    (taken : takeFrames (n + 1) pages = some frames) :
    ∃ frame next tail, allocFrame pages = some (frame, next) ∧ takeFrames n next = some tail ∧
      frames = frame :: tail := by
  obtain ⟨⟨frame, next⟩, first, rest⟩ := Option.bind_eq_some_iff.mp taken
  obtain ⟨tail, taken', rfl⟩ := Option.map_eq_some_iff.mp rest
  exact ⟨frame, next, tail, first, taken', rfl⟩

private theorem takeFrames_nodup {S : Set Nat} {n : Nat} {pages : PageState} {out : List Block}
    {frames : List Word} (inv : PageInv S ⟨pages, out⟩) (below : ∀ p ∈ S, p < totalPages)
    (taken : takeFrames n pages = some frames) :
    frames.Nodup ∧ ∀ frame ∈ frames, pageBase frame = frame ∧ ∃ page < totalPages,
      frame = BitVec.ofNat 32 (pageToPhys page) ∧ ∀ b ∈ out, ¬ b.Covers page := by
  induction n generalizing pages out frames with
  | zero =>
    obtain rfl := Option.some.inj taken
    exact ⟨List.nodup_nil, fun _ member => nomatch member⟩
  | succ n ih =>
    obtain ⟨frame, next, others, first, taken', rfl⟩ := takeFrames_succ taken
    unfold allocFrame at first
    rcases PageSafety.allocPages_tiled inv.tiled inv.valid inv.quiet gfpNormal 0 with
      fail | ⟨p, t, eq, small, tiled, valid, quiet⟩
    · rw [fail] at first
      cases first
    · rw [eq] at first
      obtain ⟨rfl, rfl⟩ := Prod.mk.inj (Option.some.inj first)
      have inv' : PageInv S ⟨t, ⟨p, 0⟩ :: out⟩ := by
        refine ⟨tiled, valid, quiet, fun b member => ?_⟩
        rcases List.mem_cons.mp member with rfl | member
        · exact small
        · exact inv.small b member
      obtain ⟨nodup, fresh⟩ := ih inv' taken'
      obtain ⟨f, held⟩ := tiled
      have covered : (⟨p, 0⟩ : Block).Covers p := ⟨le_rfl, by simp [Block.stop]⟩
      have inside : p ∈ S := (held.tiling.cover p).mp ⟨⟨p, 0⟩, by simp, covered⟩
      have apart : ∀ b ∈ out, ¬ b.Covers p := by
        intro b member both
        have pairs := List.pairwise_append.mp
          (show ((⟨p, 0⟩ :: out) ++ _).Pairwise Block.Apart from held.tiling.apart)
        have split := List.rel_of_pairwise_cons pairs.1 member
        unfold Block.Apart at split
        unfold Block.Covers at both covered
        omega
      refine ⟨List.nodup_cons.mpr ⟨fun member => ?_, nodup⟩, fun frame member => ?_⟩
      · obtain ⟨-, q, low, same, free⟩ := fresh _ member
        have values := congrArg BitVec.toNat same
        rw [frame_toNat (below p inside), frame_toNat low] at values
        obtain rfl : p = q := by omega
        exact free ⟨p, 0⟩ List.mem_cons_self covered
      · rcases List.mem_cons.mp member with rfl | member
        · exact ⟨frame_aligned p, p, below p inside, rfl, apart⟩
        · obtain ⟨aligned, q, low, same, free⟩ := fresh _ member
          exact ⟨aligned, q, low, same, fun b member => free b (List.mem_cons_of_mem _ member)⟩

/-! ### The loop -/

private theorem firstSlot_eq : firstSlot = 768 := by decide

private theorem pdeIndex_linear {offset : Nat} (low : offset < physHighmemStart) :
    pdeIndex (kernelVirtBase + offset) = firstSlot + offset / 2 ^ 22 := by
  unfold physHighmemStart at low
  rw [pdeIndex_eq, firstSlot_eq, kernelVirtBase]
  omega

/-- The directory after the pages below the offset: each slot that they need has the next page of
the allocator as its table, and the others hold the `words` that the directory page held. -/
structure Mapped (pgdir : Word) (frames : List Word) (words : Nat → Word) (offset : Nat)
    (s : BootState) : Prop where
  rest : ∀ i, ¬ LinearSlot (slotsFor offset) i → s.mem pgdir i = words i
  made : ∀ j < slotsFor offset,
    (frames[j]?).map tableEntry = some (s.mem pgdir (firstSlot + j))
  supply : takeFrames (frames.length - slotsFor offset) s.pages =
    some (frames.drop (slotsFor offset))

structure Walks (pgdir : Word) (n offset : Nat) (mem : Mem) : Prop where
  tables : Tables {i | ¬ LinearSlot n i} pgdir mem
  linear : ∀ v < 2 ^ 32, pageSize ∣ v → LinearSlot n (pdeIndex v) → walk mem pgdir v =
    if kernelVirtBase ≤ v ∧ v < kernelVirtBase + offset then some (linearEntry v) else none

section Loop
variable {pgdir : Word} {frames : List Word} {words : Nat → Word} {offset size : Nat}
  {s : BootState} {va : Nat}

private theorem getPte_present (present : Present (s.mem pgdir (pdeIndex va))) :
    s.getPte pgdir va = some (s, pageBase (s.mem pgdir (pdeIndex va)), pteIndex va) := by
  rw [BootState.getPte, if_neg present, Option.bind_eq_bind, Option.bind_some]
  simp only [getPte_eq, tableFor_present present]
  rfl

private theorem getPte_absent (absent : ¬ Present (s.mem pgdir (pdeIndex va))) {frame : Word}
    {pages : PageState} (next : allocFrame s.pages = some (frame, pages)) :
    s.getPte pgdir va = some (⟨pages, tableFor (fun _ => frame) s.mem pgdir va⟩,
      pageBase (tableFor (fun _ => frame) s.mem pgdir va pgdir (pdeIndex va)), pteIndex va) := by
  rw [BootState.getPte, if_pos (Classical.not_not.mp absent), next, Option.bind_eq_bind,
    Option.bind_some]
  simp only [getPte_eq]
  rfl

private theorem Mapped.slot (mapped : Mapped pgdir frames words offset s)
    (blank : ∀ i, LinearSlot frames.length i → ¬ Present (words i)) {i : Nat}
    (linear : LinearSlot frames.length i) (present : Present (s.mem pgdir i)) :
    ∃ j < slotsFor offset, ∃ frame, frames[j]? = some frame ∧ i = firstSlot + j ∧
      s.mem pgdir i = tableEntry frame := by
  by_cases reached : LinearSlot (slotsFor offset) i
  · obtain ⟨low, high⟩ := reached
    have entry := mapped.made (i - firstSlot) (by omega)
    obtain ⟨frame, got, eq⟩ := Option.map_eq_some_iff.mp entry
    rw [Nat.add_sub_cancel' low] at eq
    exact ⟨i - firstSlot, by omega, frame, got, by omega, eq.symm⟩
  · rw [mapped.rest i reached] at present
    exact absurd present (blank i linear)

private theorem Mapped.fresh (mapped : Mapped pgdir frames words offset s)
    (nodup : (pgdir :: frames).Nodup) (pages : ∀ frame ∈ frames, pageBase frame = frame)
    (blank : ∀ i, LinearSlot frames.length i → ¬ Present (words i)) {frame : Word}
    (next : frames[slotsFor offset]? = some frame) :
    Fresh {i | ¬ LinearSlot frames.length i} pgdir s.mem frame := by
  obtain ⟨apart, distinct⟩ := List.nodup_cons.mp nodup
  have member : frame ∈ frames := List.mem_of_getElem? next
  refine ⟨pages frame member, ?_, fun i _ linear present => ?_⟩
  · rintro rfl
    exact apart member
  · obtain ⟨j, before, other, got, -, entry⟩ :=
      mapped.slot blank (Classical.not_not.mp linear) present
    have base : pageBase (s.mem pgdir i) = other := by
      rw [entry]
      exact pageBase_table (pages other (List.mem_of_getElem? got))
    rw [base]
    rintro rfl
    have bound := (List.getElem?_eq_some_iff.mp next).1
    have same := (List.getElem?_inj (by omega) distinct).mp (got.trans next.symm)
    omega

private theorem Mapped.getPte_first (mapped : Mapped pgdir frames words offset s)
    (nodup : (pgdir :: frames).Nodup) (pages : ∀ frame ∈ frames, pageBase frame = frame)
    (blank : ∀ i, LinearSlot frames.length i → ¬ Present (words i)) {next : Nat}
    (slot : pdeIndex va = firstSlot + slotsFor offset)
    (grows : slotsFor next = slotsFor offset + 1) (more : slotsFor next ≤ frames.length) :
    ∃ t alloc, s.getPte pgdir va =
        some (t, pageBase (t.mem pgdir (pdeIndex va)), pteIndex va) ∧
      Fresh {i | ¬ LinearSlot frames.length i} pgdir s.mem (alloc s.mem) ∧
      t.mem = tableFor alloc s.mem pgdir va ∧ Mapped pgdir frames words next t := by
  have absent : ¬ Present (s.mem pgdir (pdeIndex va)) := by
    rw [slot, mapped.rest _ fun linear => Nat.lt_irrefl _ linear.2]
    exact blank _ ⟨Nat.le_add_right _ _, by omega⟩
  have left : frames.length - slotsFor offset = frames.length - slotsFor next + 1 := by omega
  have taken := mapped.supply
  rw [left] at taken
  obtain ⟨frame, rest, tail, first, taken', split⟩ := takeFrames_succ taken
  have here : frames[slotsFor offset]? = some frame := by
    rw [← List.head?_drop, split, List.head?_cons]
  have fresh := mapped.fresh nodup pages blank here
  have made : NewTable s.mem (tableFor (fun _ => frame) s.mem pgdir va) pgdir frame (pdeIndex va) :=
    tableFor_absent fresh absent
  refine ⟨_, fun _ => frame, getPte_absent absent first, fresh, rfl, ⟨?_, ?_, ?_⟩⟩
  · intro i outside
    rw [grows] at outside
    have other : i ≠ pdeIndex va := by
      rintro rfl
      exact outside ⟨by omega, by omega⟩
    refine (made.others i other).trans (mapped.rest i fun inside => outside ⟨inside.1, ?_⟩)
    have below := inside.2
    omega
  · intro j reached
    rw [grows] at reached
    by_cases last : j = slotsFor offset
    · subst last
      have entry := made.entry
      rw [slot] at entry
      rw [here, Option.map_some]
      exact congrArg some entry.symm
    · have other : firstSlot + j ≠ pdeIndex va := by omega
      refine (mapped.made j (by omega)).trans ?_
      exact congrArg some (made.others _ other).symm
  · have drop : frames.drop (slotsFor next) = tail := by
      rw [grows, ← List.tail_drop, split, List.tail_cons]
    rw [drop]
    exact taken'

private theorem Mapped.getPte_again (mapped : Mapped pgdir frames words offset s) {next j : Nat}
    (slot : pdeIndex va = firstSlot + j) (inside : j < slotsFor offset)
    (same : slotsFor next = slotsFor offset) :
    ∃ t alloc, s.getPte pgdir va =
        some (t, pageBase (t.mem pgdir (pdeIndex va)), pteIndex va) ∧
      Fresh {i | ¬ LinearSlot frames.length i} pgdir s.mem (alloc s.mem) ∧
      t.mem = tableFor alloc s.mem pgdir va ∧ Mapped pgdir frames words next t := by
  have present : Present (s.mem pgdir (pdeIndex va)) := by
    obtain ⟨frame, -, entry⟩ := Option.map_eq_some_iff.mp (mapped.made j inside)
    rw [slot, ← entry]
    exact present_or _
  obtain ⟨page, fresh⟩ := exists_fresh {i | ¬ LinearSlot frames.length i} pgdir s.mem
  refine ⟨s, fun _ => page, getPte_present present, fresh, (tableFor_present present).symm, ?_⟩
  constructor
  · rw [same]
    exact mapped.rest
  · rw [same]
    exact mapped.made
  · rw [same]
    exact mapped.supply

private theorem Mapped.getPte (mapped : Mapped pgdir frames words offset s)
    (nodup : (pgdir :: frames).Nodup) (pages : ∀ frame ∈ frames, pageBase frame = frame)
    (blank : ∀ i, LinearSlot frames.length i → ¬ Present (words i)) (aligned : pageSize ∣ offset)
    (slot : pdeIndex va = firstSlot + offset / 2 ^ 22)
    (more : slotsFor (offset + pageSize) ≤ frames.length) :
    ∃ t alloc, s.getPte pgdir va =
        some (t, pageBase (t.mem pgdir (pdeIndex va)), pteIndex va) ∧
      Fresh {i | ¬ LinearSlot frames.length i} pgdir s.mem (alloc s.mem) ∧
      t.mem = tableFor alloc s.mem pgdir va ∧
      Mapped pgdir frames words (offset + pageSize) t := by
  unfold pageSize at aligned
  by_cases first : offset % 2 ^ 22 = 0
  · have before : slotsFor offset = offset / 2 ^ 22 := by
      unfold slotsFor
      omega
    have grows : slotsFor (offset + pageSize) = slotsFor offset + 1 := by
      unfold slotsFor pageSize
      omega
    exact mapped.getPte_first nodup pages blank (by rw [slot, before]) grows more
  · have inside : offset / 2 ^ 22 < slotsFor offset := by
      unfold slotsFor
      omega
    have same : slotsFor (offset + pageSize) = slotsFor offset := by
      unfold slotsFor pageSize
      omega
    exact mapped.getPte_again slot inside same

def stored (t : BootState) (pgdir : Word) (va : Nat) (entry : Word) : BootState :=
  { t with mem := store t.mem (pageBase (t.mem pgdir (pdeIndex va))) (pteIndex va) entry }

private theorem linearEntry_add (aligned : pageSize ∣ offset) :
    linearEntry (kernelVirtBase + offset) = BitVec.ofNat 32 offset ||| pteW ||| pteP := by
  have whole : roundDownPage offset = offset := by
    rw [roundDownPage, roundDown_eq_mul]
    exact Nat.mul_div_cancel' aligned
  rw [linearEntry, Nat.add_sub_cancel_left, whole]

private theorem mapLoop_round (mapped : Mapped pgdir frames words offset s)
    (walks : Walks pgdir frames.length offset s.mem) (nodup : (pgdir :: frames).Nodup)
    (pages : ∀ frame ∈ frames, pageBase frame = frame)
    (blank : ∀ i, LinearSlot frames.length i → ¬ Present (words i)) (aligned : pageSize ∣ offset)
    (low : offset < physHighmemStart) (more : slotsFor (offset + pageSize) ≤ frames.length)
    (address : va = kernelVirtBase + offset) :
    ∃ t, s.getPte pgdir va = some (t, pageBase (t.mem pgdir (pdeIndex va)), pteIndex va) ∧
      Mapped pgdir frames words (offset + pageSize) (stored t pgdir va (linearEntry va)) ∧
      Walks pgdir frames.length (offset + pageSize) (stored t pgdir va (linearEntry va)).mem := by
  have slot : pdeIndex va = firstSlot + offset / 2 ^ 22 := by
    rw [address]
    exact pdeIndex_linear low
  obtain ⟨t, alloc, call, fresh, table, mapped'⟩ :=
    mapped.getPte nodup pages blank aligned slot more
  refine ⟨t, call, ?_⟩
  have linear : LinearSlot frames.length (pdeIndex va) := by
    unfold slotsFor pageSize at more
    rw [slot]
    exact ⟨by omega, by omega⟩
  have ok : pdeIndex va ∉ {i | ¬ LinearSlot frames.length i} := fun outside => outside linear
  have base : pageSize ∣ kernelVirtBase := by decide
  have start : pageSize ∣ va := address ▸ Nat.dvd_add base aligned
  have word : va < 2 ^ 32 := by
    unfold physHighmemStart at low
    unfold kernelVirtBase at address
    omega
  have ready : Prepared {i | ¬ LinearSlot frames.length i} pgdir s.mem t.mem va :=
    table ▸ tableFor_prepared walks.tables fresh
  have dir : (stored t pgdir va (linearEntry va)).mem pgdir = t.mem pgdir :=
    ready.tables.store_dir (pteIndex va) (pdeIndex_lt va) ok ready.present (linearEntry va)
  have same : pageStored alloc s.mem pgdir va (linearEntry va) =
      (stored t pgdir va (linearEntry va)).mem := by
    rw [pageStored, ← table]
    rfl
  obtain ⟨tables, here⟩ := page_step (linearEntry va) walks.tables fresh ok word start
  rw [same] at tables here
  refine ⟨⟨?_, ?_, mapped'.supply⟩, tables, ?_⟩
  · rw [dir]
    exact mapped'.rest
  · rw [dir]
    exact mapped'.made
  · intro v fits whole inside
    rw [here v fits whole fun outside => outside inside, walks.linear v fits whole inside]
    by_cases this : v = va
    · subst this
      have among : kernelVirtBase ≤ v ∧ v < kernelVirtBase + (offset + pageSize) := by
        unfold pageSize
        omega
      rw [if_pos rfl, if_pos among]
      exact found_of_present (present_or _)
    · have grown : (kernelVirtBase ≤ v ∧ v < kernelVirtBase + (offset + pageSize)) ↔
          (kernelVirtBase ≤ v ∧ v < kernelVirtBase + offset) := by
        unfold pageSize at aligned whole base ⊢
        omega
      rw [if_neg this]
      simp only [grown]

private theorem mapLoop_spec (nodup : (pgdir :: frames).Nodup)
    (pages : ∀ frame ∈ frames, pageBase frame = frame)
    (blank : ∀ i, LinearSlot frames.length i → ¬ Present (words i)) (low : size ≤ physHighmemStart)
    (whole : pageSize ∣ size) (slots : slotsFor size ≤ frames.length) (fuel : Nat)
    (address : va = kernelVirtBase + offset) (aligned : pageSize ∣ offset) (upto : offset ≤ size)
    (enough : size ≤ offset + fuel * pageSize) (mapped : Mapped pgdir frames words offset s)
    (walks : Walks pgdir frames.length offset s.mem) :
    ∃ t, BootState.mapLoop pgdir pteW size (fuel + 1) s va offset offset = some t ∧
      Mapped pgdir frames words size t ∧ Walks pgdir frames.length size t.mem := by
  induction fuel generalizing offset s va with
  | zero =>
    obtain rfl : offset = size := by omega
    rw [BootState.mapLoop, rangeLoop, if_neg (Nat.lt_irrefl _)]
    exact ⟨s, rfl, mapped, walks⟩
  | succ fuel ih =>
    rw [BootState.mapLoop, rangeLoop]
    by_cases more : offset < size
    · have next : offset + pageSize ≤ size := by
        unfold pageSize at aligned whole ⊢
        omega
      have still : slotsFor (offset + pageSize) ≤ frames.length := by
        refine Nat.le_trans ?_ slots
        unfold slotsFor
        omega
      obtain ⟨t, call, mapped', walks'⟩ := mapLoop_round mapped walks nodup pages blank aligned
        (by omega) still address
      have entry : linearEntry va = BitVec.ofNat 32 offset ||| pteW ||| pteP := by
        rw [address, linearEntry_add aligned]
      rw [entry] at mapped' walks'
      rw [if_pos more, call]
      unfold physHighmemStart at low
      have word : offset + pageSize < 2 ^ 32 := by omega
      have word' : va + pageSize = kernelVirtBase + (offset + pageSize) ∧
          va + pageSize < 2 ^ 32 := by
        unfold kernelVirtBase at address ⊢
        omega
      rw [Option.bind_eq_bind, Option.bind_some, Option.pure_def, Option.bind_some,
        Nat.mod_eq_of_lt word'.2, Nat.mod_eq_of_lt word]
      refine ih word'.1 (Nat.dvd_add aligned (Nat.dvd_refl _)) next ?_ mapped' walks'
      rw [Nat.add_mul] at enough
      omega
    · obtain rfl : offset = size := by omega
      rw [if_neg more]
      exact ⟨s, rfl, mapped, walks⟩

end Loop

/-! ### The directory in the end -/

section Directory
variable {pgdir : Word} {frames : List Word} {words : Nat → Word} {linearEndPfn : Nat}
  {t : BootState} {v : Nat}

private theorem found_zero : found 0 = none := by decide

private theorem pteIndex_lt (x : Nat) : pteIndex x < 1024 := by
  rw [pteIndex_eq]
  omega

private theorem Mapped.shows {size i : Nat} (mapped : Mapped pgdir frames words size t)
    (slots : frames.length = slotsFor size) (self : words (pdeIndex vpt) = tableEntry pgdir)
    (apart : ¬ LinearSlot frames.length (pdeIndex vpt)) (small : i < 1024)
    (used : ¬ UnusedSlot frames.length i) :
    found (startPaging t.mem pgdir pgdir i) = selfEntry pgdir frames i := by
  unfold selfEntry
  by_cases zero : i = 0
  · subst zero
    rw [startPaging_slot, found_zero]
    rfl
  · rw [startPaging_other (.inr zero)]
    by_cases vptSlot : i = pdeIndex vpt
    · subst vptSlot
      rw [mapped.rest _ (slots ▸ apart), self, if_pos rfl]
      exact found_of_present (present_or _)
    · have linear : LinearSlot frames.length i := by
        by_contra outside
        exact used ⟨small, zero, vptSlot, outside⟩
      obtain ⟨above, below⟩ := linear
      have entry := mapped.made (i - firstSlot) (by omega)
      obtain ⟨frame, -, made⟩ := Option.map_eq_some_iff.mp entry
      rw [Nat.add_sub_cancel' above] at entry made
      rw [if_neg vptSlot, if_pos above, entry, ← made]
      exact found_of_present (present_or _)

private theorem Mapped.unused {size i : Nat} (mapped : Mapped pgdir frames words size t)
    (slots : frames.length = slotsFor size) (unused : UnusedSlot frames.length i) :
    startPaging t.mem pgdir pgdir i = words i ∧ selfEntry pgdir frames i = none := by
  obtain ⟨-, zero, vptSlot, outside⟩ := unused
  refine ⟨(startPaging_other (.inr zero)).trans (mapped.rest i (slots ▸ outside)), ?_⟩
  unfold selfEntry
  rw [if_neg vptSlot]
  split_ifs with above
  · have beyond : frames.length ≤ i - firstSlot := by
      by_contra inside
      exact outside ⟨above, by omega⟩
    rw [List.getElem?_eq_none beyond]
    rfl
  · rfl

private theorem Mapped.walk_vpt {size : Nat} (mapped : Mapped pgdir frames words size t)
    (slots : frames.length = slotsFor size) (self : words (pdeIndex vpt) = tableEntry pgdir)
    (apart : ¬ LinearSlot frames.length (pdeIndex vpt)) (page : pageBase pgdir = pgdir)
    (slot : pdeIndex v = pdeIndex vpt) :
    walk (startPaging t.mem pgdir) pgdir v =
      found (startPaging t.mem pgdir pgdir (pteIndex v)) := by
  have entry : startPaging t.mem pgdir pgdir (pdeIndex v) = tableEntry pgdir := by
    rw [slot, startPaging_other (.inr (by decide)), mapped.rest _ (slots ▸ apart), self]
  rw [walk_of_present (entry ▸ present_or _), entry]
  have base : pageBase (tableEntry pgdir) = pgdir := pageBase_table page
  rw [base]

private theorem Walks.kept {n offset : Nat} (walks : Walks pgdir n offset t.mem)
    (linear : LinearSlot n (pdeIndex v)) :
    walk (startPaging t.mem pgdir) pgdir v = walk t.mem pgdir v := by
  have first := firstSlot_eq
  have zero : pdeIndex v ≠ 0 := by
    have low := linear.1
    omega
  have entry : startPaging t.mem pgdir pgdir (pdeIndex v) = t.mem pgdir (pdeIndex v) :=
    startPaging_other (.inr zero)
  by_cases present : Present (t.mem pgdir (pdeIndex v))
  · have table := walks.tables.dir _ (pdeIndex_lt v) (fun outside => outside linear) present
    rw [walk_of_present (entry ▸ present), walk_of_present present, entry,
      startPaging_other (.inl table)]
  · rw [walk_of_absent (entry ▸ present), walk_of_absent present]

private theorem Walks.walk_linear {n size : Nat} (walks : Walks pgdir n size t.mem)
    (whole : pageSize ∣ size) (fits : v < 2 ^ 32) (linear : LinearSlot n (pdeIndex v)) :
    walk (startPaging t.mem pgdir) pgdir v =
      if kernelVirtBase ≤ v ∧ v < kernelVirtBase + size then some (linearEntry v) else none := by
  have aligned := roundDownPage_aligned v
  have low : roundDownPage v ≤ v := roundDown_le _ _
  have high : v < roundDownPage v + pageSize := lt_roundDown_add (by decide) _
  have base : pageSize ∣ kernelVirtBase := by decide
  have same : (kernelVirtBase ≤ roundDownPage v ∧ roundDownPage v < kernelVirtBase + size) ↔
      (kernelVirtBase ≤ v ∧ v < kernelVirtBase + size) := by
    unfold pageSize at aligned high base whole
    omega
  rw [walks.kept linear, walk_page aligned low high,
    walks.linear _ (by omega) aligned (pdeIndex_page aligned low high ▸ linear)]
  simp only [same]
  split_ifs with inside
  · have page : roundDownPage (roundDownPage v - kernelVirtBase) =
        roundDownPage (v - kernelVirtBase) := by
      unfold pageSize at base
      unfold roundDownPage roundDown pageSize
      omega
    rw [linearEntry, linearEntry, page]
  · rfl

theorem linearSlot_of_mem {size : Nat} (low : size ≤ physHighmemStart) (above : kernelVirtBase ≤ v)
    (below : v < kernelVirtBase + size) : LinearSlot (slotsFor size) (pdeIndex v) := by
  obtain ⟨offset, rfl⟩ := Nat.exists_eq_add_of_le above
  rw [pdeIndex_linear (by omega)]
  refine ⟨by omega, ?_⟩
  unfold slotsFor
  omega

private theorem Mapped.walks_iff {size : Nat} (mapped : Mapped pgdir frames words size t)
    (walks : Walks pgdir frames.length size t.mem) (slots : frames.length = slotsFor size)
    (self : words (pdeIndex vpt) = tableEntry pgdir) (page : pageBase pgdir = pgdir)
    (bytes : size = linearEndPfn * pageSize) (low : size ≤ physHighmemStart) :
    (∀ v < 2 ^ 32, walk (startPaging t.mem pgdir) pgdir v =
        bootWalk pgdir frames linearEndPfn v) ↔
      ∀ i, UnusedSlot frames.length i → ¬ Present (words i) := by
  have few : frames.length ≤ 224 := by
    rw [slots]
    unfold slotsFor
    unfold physHighmemStart at low
    omega
  have vptSlot : pdeIndex vpt = 1003 := by decide
  have apart : ¬ LinearSlot frames.length (pdeIndex vpt) := by
    rintro ⟨-, inside⟩
    rw [vptSlot, firstSlot_eq] at inside
    omega
  have beyond : ∀ v, ¬ LinearSlot frames.length (pdeIndex v) →
      ¬ (kernelVirtBase ≤ v ∧ v < kernelVirtBase + linearEndPfn * pageSize) := by
    rintro v outside ⟨above, below⟩
    rw [← bytes] at below
    exact outside (slots ▸ linearSlot_of_mem low above below)
  constructor
  · intro exactly i unused
    obtain ⟨entry, none⟩ := mapped.unused slots unused
    have small := unused.1
    have slot : pdeIndex (vpt + i * pageSize) = pdeIndex vpt := by
      rw [pdeIndex_eq, vptSlot, vpt, pageSize]
      omega
    have index : pteIndex (vpt + i * pageSize) = i := by
      rw [pteIndex_eq, vpt, pageSize]
      omega
    have shown := exactly (vpt + i * pageSize) (by rw [vpt, pageSize]; omega)
    rw [mapped.walk_vpt slots self apart page slot, bootWalk, if_neg (beyond _ (slot ▸ apart)),
      if_pos slot, index, entry, none] at shown
    exact found_none_iff.mp shown
  · intro blank v fits
    by_cases linear : LinearSlot frames.length (pdeIndex v)
    · have other : pdeIndex v ≠ pdeIndex vpt := fun same => apart (same ▸ linear)
      rw [walks.walk_linear (bytes ▸ Nat.dvd_mul_left _ _) fits linear,
        bootWalk, if_neg other, bytes]
    · rw [bootWalk, if_neg (beyond v linear)]
      split_ifs with slot
      · rw [mapped.walk_vpt slots self apart page slot]
        by_cases unused : UnusedSlot frames.length (pteIndex v)
        · obtain ⟨entry, none⟩ := mapped.unused slots unused
          rw [entry, none]
          exact found_none_iff.mpr (blank _ unused)
        · exact mapped.shows slots self apart (pteIndex_lt v) unused
      · apply walk_of_absent
        by_cases zero : pdeIndex v = 0
        · rw [zero, startPaging_slot]
          exact fun present => present rfl
        · have unused : UnusedSlot frames.length (pdeIndex v) := ⟨pdeIndex_lt v, zero, slot, linear⟩
          rw [(mapped.unused slots unused).1]
          exact blank _ unused

end Directory

/-! ### The call -/

/-- The scan of the memory map hands over sound ranges, and they have a page for the directory and
for each table of the linear map. -/
structure Boots (s : MemoryState) (e820 : E820) (kernelEnd : Nat) (t : MemoryState) (pgdir : Word)
    (frames : List Word) : Prop where
  firmware : Firmware e820 kernelEnd
  clean : s.added = []
  scan : scanMemorySlot (initialised s) e820 kernelEnd = some t
  sound : Sound e820 t
  ordered : ∀ r ∈ t.added, r.1 ≤ r.2
  supply : takeFrames (slotsFor (t.linearEndPfn * pageSize) + 1) t.pages = some (pgdir :: frames)

theorem scan_linearEndPfn {s t : MemoryState} {e820 : E820} {kernelEnd : Nat}
    (scan : scanMemorySlot s e820 kernelEnd = some t) :
    t.linearEndPfn * pageSize ≤ physHighmemStart := by
  unfold scanMemorySlot at scan
  obtain ⟨index, -, scan⟩ := Option.bind_eq_some_iff.mp scan
  obtain ⟨map, -, scan⟩ := Option.bind_eq_some_iff.mp scan
  obtain rfl := Option.some.inj scan
  have top : physToPfn physHighmemStart * pageSize = physHighmemStart := by decide
  rw [addLoop_eq, ← top]
  apply Nat.mul_le_mul_right
  simp only [MemoryState.addFreePages, setGlobals]
  split_ifs with low
  · exact low
  · exact le_rfl

private theorem length_of_takeFrames {n : Nat} {pages : PageState} {frames : List Word}
    (taken : takeFrames n pages = some frames) : frames.length = n := by
  induction n generalizing pages frames with
  | zero =>
    obtain rfl := Option.some.inj taken
    rfl
  | succ n ih =>
    obtain ⟨frame, next, tail, -, rest, rfl⟩ := takeFrames_succ taken
    rw [List.length_cons, ih rest]

section
variable {s t : MemoryState} {e820 : E820} {kernelEnd : Nat} {pgdir : Word} {frames : List Word}
  {mem mem' ram ram' : Mem} {mm : Word}

private theorem Boots.pages (boots : Boots s e820 kernelEnd t pgdir frames) :
    (pgdir :: frames).Nodup ∧ ∀ frame ∈ pgdir :: frames, pageBase frame = frame := by
  have inv := scanMemorySlot_boots boots.firmware (show (initialised s).added = [] from boots.clean)
    rfl boots.scan boots.sound boots.ordered
  have below : ∀ p ∈ PageRuns.added t.added, p < totalPages := by
    rintro p ⟨r, member, inside⟩
    exact boots.sound.below r member p inside
  obtain ⟨nodup, fresh⟩ := takeFrames_nodup inv below boots.supply
  exact ⟨nodup, fun frame member => (fresh frame member).1⟩

private theorem linearSlot_ne_vpt {n i : Nat} (few : n ≤ 224) (linear : LinearSlot n i) :
    i ≠ pdeIndex vpt := by
  obtain ⟨-, below⟩ := linear
  rintro rfl
  have vptSlot : pdeIndex vpt = 1003 := by decide
  rw [firstSlot_eq] at below
  omega

private theorem Mapped.start {pages : PageState}
    (supply : takeFrames frames.length pages = some frames) (mem : Mem) :
    Mapped pgdir frames (mem pgdir) 0 ⟨pages, mem⟩ := by
  have none : slotsFor 0 = 0 := by decide
  refine ⟨fun _ _ => rfl, fun j below => absurd below (by omega), ?_⟩
  rw [none, Nat.sub_zero, List.drop_zero]
  exact supply

private theorem Walks.start {n : Nat}
    (blank : ∀ i, LinearSlot n i → ¬ Present (mem pgdir i)) : Walks pgdir n 0 mem := by
  refine ⟨⟨fun i j _ _ ok _ _ here => ?_, fun i _ ok here => ?_⟩, fun v _ _ linear => ?_⟩
  · exact absurd here (blank i (Classical.not_not.mp ok))
  · exact absurd here (blank i (Classical.not_not.mp ok))
  · rw [walk_of_absent (blank _ linear), if_neg (by omega)]

theorem Boots.directory (boots : Boots s e820 kernelEnd t pgdir frames)
    (stored : setMm mem mm kernelEnd = some ram)
    (blank : ∀ i, LinearSlot frames.length i → ¬ Present (ram pgdir i)) :
    ∃ last, memoryInit s mem mm e820 kernelEnd =
        some (pgdir, { last with mem := startPaging last.mem pgdir }) ∧
      Mapped pgdir frames (setPde ram pgdir (pdeIndex vpt) pgdir (pdeP ||| pdeW) pgdir)
        (t.linearEndPfn * pageSize) last ∧
      Walks pgdir frames.length (t.linearEndPfn * pageSize) last.mem ∧
      frames.length = slotsFor (t.linearEndPfn * pageSize) := by
  obtain ⟨nodup, aligned⟩ := boots.pages
  have low := scan_linearEndPfn boots.scan
  obtain ⟨frame, pages, tail, first, rest, same⟩ := takeFrames_succ boots.supply
  obtain ⟨rfl, rfl⟩ := List.cons.inj same
  have slots := length_of_takeFrames rest
  have size : (t.linearEndPfn <<< pageShift) % 2 ^ 32 = t.linearEndPfn * pageSize := by
    unfold physHighmemStart at low
    rw [Nat.shiftLeft_eq]
    exact Nat.mod_eq_of_lt (by unfold pageSize at low; unfold pageShift; omega)
  generalize bytes : t.linearEndPfn * pageSize = n at low slots size rest
  have whole : pageSize ∣ n := bytes ▸ Nat.dvd_mul_left _ _
  -- the page of the directory, with the entry for the VPT
  let start := setPde ram pgdir (pdeIndex vpt) pgdir (pdeP ||| pdeW)
  have other : ∀ i, i ≠ pdeIndex vpt → start pgdir i = ram pgdir i := fun i ne =>
    store_of_ne_index _ _ _ _ ne
  have few : frames.length ≤ 224 := by
    rw [slots]
    unfold slotsFor
    unfold physHighmemStart at low
    omega
  have blank' : ∀ i, LinearSlot frames.length i → ¬ Present (start pgdir i) := fun i linear =>
    other i (linearSlot_ne_vpt few linear) ▸ blank i linear
  have mapped : Mapped pgdir frames (start pgdir) 0 ⟨pages, start⟩ := .start (slots ▸ rest) start
  obtain ⟨last, loop, mapped', walks'⟩ := mapLoop_spec nodup
    (fun frame member => aligned frame (List.mem_cons_of_mem _ member)) blank' low whole slots.ge
    (2 ^ 20 - 1) rfl (Nat.dvd_zero _) (Nat.zero_le _)
    (by unfold physHighmemStart at low; unfold pageSize; omega) mapped (.start blank')
  refine ⟨last, ?_, mapped', walks', slots⟩
  have call : BootState.pageMap ⟨pages, start⟩ pgdir kernelVirtBase 0 n pteW = some last := loop
  rw [MemoryInit.memoryInit, boots.scan, Option.bind_eq_bind, Option.bind_some, stored,
    Option.bind_eq_bind, Option.bind_some, first, Option.bind_eq_bind, Option.bind_some, size]
  change (BootState.pageMap ⟨pages, start⟩ pgdir kernelVirtBase 0 n pteW).bind _ = _
  rw [call]
  rfl

private theorem Boots.memoryInit (boots : Boots s e820 kernelEnd t pgdir frames)
    (stored : setMm mem mm kernelEnd = some ram)
    (blank : ∀ i, LinearSlot frames.length i → ¬ Present (ram pgdir i)) :
    ∃ new, memoryInit s mem mm e820 kernelEnd = some (pgdir, new) ∧
      ((∀ v < 2 ^ 32, walk new.mem pgdir v = bootWalk pgdir frames t.linearEndPfn v) ↔
        ∀ i, UnusedSlot frames.length i → ¬ Present (ram pgdir i)) := by
  obtain ⟨last, run, mapped, walks, slots⟩ := boots.directory stored blank
  refine ⟨_, run, ?_⟩
  rw [mapped.walks_iff walks slots (store_same ..) (boots.pages.2 _ List.mem_cons_self) rfl
    (scan_linearEndPfn boots.scan)]
  refine forall_congr' fun i => forall_congr' fun unused => ?_
  have other : setPde ram pgdir (pdeIndex vpt) pgdir (pdeP ||| pdeW) pgdir i = ram pgdir i :=
    store_of_ne_index _ _ _ _ unused.2.2.1
  rw [other]

end

end OhMyOs.Mm.MemoryInit
