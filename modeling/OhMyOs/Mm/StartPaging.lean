/- GID: OhMyOs/Mm/StartPaging
   generality: I
   digest: start_paging of mm/memory.c on a directory that is in use. -/

import OhMyOs.Mm.PageTable
import OhMyOs.Mm.VmallocRuns

set_option autoImplicit false
set_option relaxedAutoImplicit false

namespace OhMyOs.Mm.StartPaging

open OhMyOs.Include.Constants
open OhMyOs.Include.Bitops OhMyOs.Include.Memory OhMyOs.Mm.PageTable

/-! ### The code -/

def pteW : Word := 2

/-- The first store maps the kernel at 0 as well while paging and the segments are set up, which
touches no table. -/
def startPaging (mem : Mem) (pgdir : Word) : Mem :=
  let mem := store mem pgdir 0 (mem pgdir (pdeIndex kernelVirtBase))
  store mem pgdir 0 0

def pageToPhys (page : Nat) : Nat := pageSize * page % 2 ^ 32

/-- The loop of `map_vm_area`; `kernel_map` is `page_map` on the directory of the kernel. -/
def mapVmArea (alloc : Mem → Word) (pgdir : Word) : Mem → Nat → List Nat → Option Mem
  | mem, _, [] => some mem
  | mem, va, page :: pages =>
    (pageMap alloc mem pgdir va (pageToPhys page) pageSize pteW).bind fun mem =>
      mapVmArea alloc pgdir mem ((va + pageSize) % 2 ^ 32) pages

/-- The calls that change the directory; `start` is that of the area which `alloc_vma` returns to
`vmap`. -/
inductive KernelOp
  | page (op : PtOp)
  | vmap (start : Nat) (pages : List Nat) (alloc : Mem → Word)

def kernelOp (pgdir : Word) (mem : Mem) : KernelOp → Option Mem
  | .page op => ptOp pgdir mem op
  | .vmap start pages alloc => mapVmArea alloc pgdir mem start pages

def kernelRun (pgdir : Word) (mem : Mem) : List KernelOp → Option Mem
  | [] => some mem
  | op :: ops => (kernelOp pgdir mem op).bind fun mem => kernelRun pgdir mem ops

namespace KernelOp

def covers (op : KernelOp) (v : Nat) : Bool :=
  match op with
  | .page op => op.covers v
  | .vmap start pages _ => start ≤ v ∧ v < start + pages.length * pageSize

/-- No call touches the slot of the VPT, an area of `vmap` lies in the vmalloc range, and
`alloc_page` returns fresh pages. -/
def Allowed (pgdir : Word) : KernelOp → Prop
  | .page op => op.Allowed {pdeIndex vpt} pgdir
  | .vmap start pages alloc =>
    pageSize ∣ start ∧ vmallocStart ≤ start ∧ start + pages.length * pageSize ≤ vmallocEnd ∧
      ∀ mem, Tables {pdeIndex vpt} pgdir mem → Fresh {pdeIndex vpt} pgdir mem (alloc mem)

end KernelOp

/-! ### How the directory grows -/

section
variable {exempt : Set Nat} {pgdir : Word} {mem mid new : Mem} {alloc : Mem → Word} {va : Nat}
  {touched touched' : Nat → Prop}

structure Grows (pgdir : Word) (touched : Nat → Prop) (mem new : Mem) : Prop where
  kept : ∀ i, Present (mem pgdir i) → new pgdir i = mem pgdir i
  present : ∀ i, Present (new pgdir i) ↔ Present (mem pgdir i) ∨ touched i

private theorem Grows.congr (grows : Grows pgdir touched mem new)
    (same : ∀ i, touched i ↔ touched' i) :
    Grows pgdir touched' mem new :=
  ⟨grows.kept, fun i => (grows.present i).trans (or_congr_right (same i))⟩

private theorem Grows.trans (first : Grows pgdir touched mem mid)
    (second : Grows pgdir touched' mid new) :
    Grows pgdir (fun i => touched i ∨ touched' i) mem new := by
  constructor
  · intro i present
    have still := first.kept i present
    rw [second.kept i (still ▸ present), still]
  · intro i
    rw [second.present, first.present, or_assoc]

private theorem grows_refl (none : ∀ i, ¬ touched i) : Grows pgdir touched mem mem :=
  ⟨fun _ _ => rfl, fun i => (or_iff_left (none i)).symm⟩

private theorem pageStored_grows (entry : Word) (tables : Tables exempt pgdir mem)
    (fresh : Fresh exempt pgdir mem (alloc mem)) (ok : pdeIndex va ∉ exempt) :
    Grows pgdir (fun i => i = pdeIndex va) mem (pageStored alloc mem pgdir va entry) := by
  have ready : Prepared exempt pgdir mem (tableFor alloc mem pgdir va) va :=
    tableFor_prepared tables fresh
  have dir : pageStored alloc mem pgdir va entry pgdir = tableFor alloc mem pgdir va pgdir :=
    ready.tables.store_dir (pteIndex va) (pdeIndex_lt va) ok ready.present entry
  by_cases present : Present (mem pgdir (pdeIndex va))
  · rw [tableFor_present present] at dir
    refine ⟨fun i _ => by rw [dir], fun i => ?_⟩
    rw [dir]
    refine (or_iff_left_of_imp ?_).symm
    rintro rfl
    exact present
  · have made := tableFor_absent fresh present
    constructor
    · intro i here
      rw [dir]
      exact made.others i fun same => present (same ▸ here)
    · intro i
      rw [dir]
      by_cases same : i = pdeIndex va
      · subst same
        exact iff_of_true made.present (.inr rfl)
      · rw [made.others i same, or_iff_left same]

theorem pdeIndex_page {p v : Nat} (aligned : pageSize ∣ p) (low : p ≤ v) (high : v < p + pageSize) :
    pdeIndex v = pdeIndex p := by
  rw [pdeIndex_eq, pdeIndex_eq]
  unfold pageSize at aligned high
  omega

private theorem pteIndex_page {p v : Nat} (aligned : pageSize ∣ p) (low : p ≤ v)
    (high : v < p + pageSize) :
    pteIndex v = pteIndex p := by
  rw [pteIndex_eq, pteIndex_eq]
  unfold pageSize at aligned high
  omega

theorem walk_page {p v : Nat} (aligned : pageSize ∣ p) (low : p ≤ v) (high : v < p + pageSize) :
    walk mem pgdir v = walk mem pgdir p := by
  unfold walk
  rw [pdeIndex_page aligned low high, pteIndex_page aligned low high]

def SlotOf (low high i : Nat) : Prop := ∃ v, low ≤ v ∧ v < high ∧ pdeIndex v = i

private theorem slotOf_add_page {low high : Nat} (le : low ≤ high) (aligned : pageSize ∣ high)
    (i : Nat) :
    SlotOf low high i ∨ i = pdeIndex high ↔ SlotOf low (high + pageSize) i := by
  have page : 0 < pageSize := by decide
  constructor
  · rintro (⟨v, above, below, rfl⟩ | rfl)
    · exact ⟨v, above, by omega, rfl⟩
    · exact ⟨high, le, by omega, rfl⟩
  · rintro ⟨v, above, below, rfl⟩
    by_cases inside : v < high
    · exact .inl ⟨v, above, inside, rfl⟩
    · exact .inr (pdeIndex_page aligned (by omega) below)

private theorem slotOf_whole {low size last : Nat} (aligned : pageSize ∣ low)
    (whole : pageSize ∣ last)
    (reached : size ≤ last) (upto : last < size + pageSize) (i : Nat) :
    SlotOf low (low + last) i ↔ SlotOf low (low + size) i := by
  constructor
  · rintro ⟨v, above, below, rfl⟩
    by_cases inside : v < low + size
    · exact ⟨v, above, inside, rfl⟩
    · -- the address is in the last page, which starts among the bytes
      have positive : pageSize ≤ last := Nat.le_of_dvd (by omega) whole
      have start : pageSize ∣ low + (last - pageSize) :=
        Nat.dvd_add aligned (Nat.dvd_sub whole (Nat.dvd_refl _))
      exact ⟨low + (last - pageSize), by omega, by omega,
        (pdeIndex_page start (by omega) (by omega)).symm⟩
  · rintro ⟨v, above, below, rfl⟩
    exact ⟨v, above, by omega, rfl⟩

private theorem callLoop_grows (entry : Nat → Word) {size pa : Nat}
    (fresh : ∀ mem, Tables exempt pgdir mem → Fresh exempt pgdir mem (alloc mem))
    (bound : size ≤ 2 ^ 32 - pageSize) (wraps : ∀ pa, entry (pa % 2 ^ 32) = entry pa)
    (word : va < 2 ^ 32) (word' : pa < 2 ^ 32) (inside : roundDownPage va + size ≤ 2 ^ 32)
    (slots : ∀ v, roundDownPage va ≤ v → v < roundDownPage va + size → pdeIndex v ∉ exempt)
    (tables : Tables exempt pgdir mem) :
    ∃ new, pageLoop alloc pgdir entry size loopFuel mem (roundDownPage va) pa 0 = some new ∧
      Tables exempt pgdir new ∧
        Grows pgdir (SlotOf (roundDownPage va) (roundDownPage va + size)) mem new := by
  have start := roundDownPage_aligned va
  have low := roundDownPage_lt word
  generalize roundDownPage va = first at start low inside slots ⊢
  let inv : Nat → Mem → Prop := fun offset m =>
    Tables exempt pgdir m ∧ Grows pgdir (SlotOf first (first + offset)) mem m
  have none : ∀ i, ¬ SlotOf first (first + 0) i := by
    rintro i ⟨v, above, below, -⟩
    omega
  obtain ⟨new, last, loop, ⟨tables', grows⟩, whole, reached, upto⟩ :=
    callLoop_rule inv bound wraps low word' inside (fun offset m aligned more held => by
      obtain ⟨kept, before⟩ := held
      have ok := slots (first + offset) (by omega) (by omega)
      have next := Nat.dvd_add start aligned
      refine ⟨(page_step (entry (pa + offset)) kept (fresh m kept) ok (by omega) next).1, ?_⟩
      have step := pageStored_grows (entry (pa + offset)) kept (fresh m kept) ok
      rw [← Nat.add_assoc]
      exact (before.trans step).congr (slotOf_add_page (Nat.le_add_right _ _) next))
      ⟨tables, grows_refl none⟩
  exact ⟨new, loop, tables', grows.congr (slotOf_whole start whole reached upto)⟩

theorem covers_iff_between (op : PtOp) (v : Nat) :
    op.covers v = true ↔ roundDownPage op.va ≤ v ∧ v < roundDownPage op.va + op.size := by
  rw [PtOp.covers, decide_eq_true_iff]

private theorem ptOp_grows {op : PtOp} (tables : Tables exempt pgdir mem)
    (allowed : op.Allowed exempt pgdir) :
    ∃ new, ptOp pgdir mem op = some new ∧ Tables exempt pgdir new ∧
      Grows pgdir (SlotOf (roundDownPage op.va) (roundDownPage op.va + op.size)) mem new := by
  obtain ⟨words, bound, inside, slots, fresh⟩ := allowed
  have slots' : ∀ v, roundDownPage op.va ≤ v → v < roundDownPage op.va + op.size →
      pdeIndex v ∉ exempt := fun v low high => slots v ((covers_iff_between op v).mpr ⟨low, high⟩)
  cases op with
  | pageMap va pa size flag alloc =>
    exact callLoop_grows (fun pa => BitVec.ofNat 32 pa ||| flag ||| pteP) fresh bound
      (fun pa => by rw [ofNat_mod]) words.1 (roundDownPage_lt words.2) inside slots' tables
  | pageUnmap va size alloc =>
    exact callLoop_grows (fun _ => 0) fresh bound (fun _ => rfl) words
      (show 0 < 2 ^ 32 by decide) inside slots' tables

end

/-! ### Runs -/

section
variable {pgdir : Word} {mem : Mem} {alloc : Mem → Word}

theorem vmalloc_slot {v : Nat} (low : v < vmallocEnd) :
    pdeIndex v ∉ ({pdeIndex vpt} : Set Nat) := by
  intro same
  have slot : pdeIndex v = pdeIndex vpt := same
  rw [pdeIndex_eq, pdeIndex_eq] at slot
  unfold vmallocEnd kernelVirtBase at low
  unfold vpt at slot
  omega

private theorem mapPage_allowed {va : Nat} (aligned : pageSize ∣ va)
    (high : va + pageSize ≤ vmallocEnd)
    (page : Nat)
    (fresh : ∀ mem, Tables {pdeIndex vpt} pgdir mem → Fresh {pdeIndex vpt} pgdir mem (alloc mem)) :
    roundDownPage va = va ∧
      (PtOp.pageMap va (pageToPhys page) pageSize pteW alloc).Allowed {pdeIndex vpt} pgdir := by
  have same : roundDownPage va = va := by
    unfold roundDownPage
    rw [roundDown_eq_mul]
    exact Nat.mul_div_cancel' aligned
  unfold vmallocEnd kernelVirtBase pageSize at high
  refine ⟨same, ⟨⟨by omega, Nat.mod_lt _ (by decide)⟩, ?_, ?_, fun v covered => ?_, fresh⟩⟩
  · simp only [PtOp.size]
    decide
  · simp only [PtOp.va, PtOp.size, same]
    unfold pageSize
    omega
  · apply vmalloc_slot
    have below := ((covers_iff_between _ v).mp covered).2
    simp only [PtOp.va, PtOp.size, same] at below
    unfold vmallocEnd kernelVirtBase
    unfold pageSize at below
    omega

private theorem mapVmArea_grows
    (fresh : ∀ mem, Tables {pdeIndex vpt} pgdir mem → Fresh {pdeIndex vpt} pgdir mem (alloc mem))
    (pages : List Nat) : ∀ (mem : Mem) (va : Nat), Tables {pdeIndex vpt} pgdir mem →
      pageSize ∣ va → va + pages.length * pageSize ≤ vmallocEnd →
      ∃ new, mapVmArea alloc pgdir mem va pages = some new ∧ Tables {pdeIndex vpt} pgdir new ∧
        Grows pgdir (SlotOf va (va + pages.length * pageSize)) mem new := by
  induction pages with
  | nil =>
    intro mem va tables _ _
    refine ⟨mem, rfl, tables, grows_refl ?_⟩
    rintro i ⟨v, above, below, -⟩
    simp only [List.length_nil, Nat.zero_mul] at below
    omega
  | cons page pages ih =>
    intro mem va tables aligned high
    rw [List.length_cons, Nat.add_mul, Nat.one_mul] at high ⊢
    obtain ⟨same, allowed⟩ := mapPage_allowed aligned (by omega) page fresh
    obtain ⟨mid, call, tables', first⟩ := ptOp_grows tables allowed
    have word : (va + pageSize) % 2 ^ 32 = va + pageSize := by
      apply Nat.mod_eq_of_lt
      unfold vmallocEnd kernelVirtBase at high
      omega
    obtain ⟨new, rest, tables'', second⟩ := ih mid (va + pageSize) tables'
      (Nat.dvd_add aligned (Nat.dvd_refl _)) (by omega)
    refine ⟨new, ?_, tables'', (first.trans second).congr fun i => ?_⟩
    · have mapped : pageMap alloc mem pgdir va (pageToPhys page) pageSize pteW = some mid := call
      rw [mapVmArea, mapped, word]
      exact rest
    · simp only [PtOp.va, PtOp.size, same]
      constructor
      · rintro (⟨v, above, below, rfl⟩ | ⟨v, above, below, rfl⟩)
        · exact ⟨v, above, by omega, rfl⟩
        · exact ⟨v, by omega, by omega, rfl⟩
      · rintro ⟨v, above, below, rfl⟩
        by_cases here : v < va + pageSize
        · exact .inl ⟨v, above, here, rfl⟩
        · exact .inr ⟨v, by omega, by omega, rfl⟩

private theorem roundDownPage_pageToPhys (page : Nat) :
    roundDownPage (pageToPhys page) = pageToPhys page := by
  unfold roundDownPage roundDown pageToPhys pageSize
  omega

def areaEntry (page : Nat) : Word := BitVec.ofNat 32 (pageToPhys page) ||| pteW ||| pteP

theorem mapVmArea_walk
    (fresh : ∀ mem, Tables {pdeIndex vpt} pgdir mem → Fresh {pdeIndex vpt} pgdir mem (alloc mem))
    (pages : List Nat) : ∀ (mem : Mem) (va : Nat), Tables {pdeIndex vpt} pgdir mem →
      pageSize ∣ va → va + pages.length * pageSize ≤ vmallocEnd →
      ∃ new, mapVmArea alloc pgdir mem va pages = some new ∧
        ∀ v < 2 ^ 32, pageSize ∣ v → pdeIndex v ∉ ({pdeIndex vpt} : Set Nat) →
          (va ≤ v ∧ v < va + pages.length * pageSize →
            ∃ page ∈ pages, walk new pgdir v = some (areaEntry page)) ∧
          (¬ (va ≤ v ∧ v < va + pages.length * pageSize) →
            walk new pgdir v = walk mem pgdir v) := by
  induction pages with
  | nil =>
    intro mem va _ _ _
    refine ⟨mem, rfl, fun v _ _ _ => ⟨fun inside => ?_, fun _ => rfl⟩⟩
    simp only [List.length_nil, Nat.zero_mul] at inside
    omega
  | cons page pages ih =>
    intro mem va tables aligned high
    rw [List.length_cons, Nat.add_mul, Nat.one_mul] at high ⊢
    obtain ⟨same, allowed⟩ := mapPage_allowed aligned (by omega) page fresh
    obtain ⟨mid, call, tables', first⟩ := ptOp_walk tables allowed
    have word : (va + pageSize) % 2 ^ 32 = va + pageSize := by
      apply Nat.mod_eq_of_lt
      unfold vmallocEnd kernelVirtBase at high
      omega
    obtain ⟨new, rest, second⟩ := ih mid (va + pageSize) tables'
      (Nat.dvd_add aligned (Nat.dvd_refl _)) (by omega)
    refine ⟨new, ?_, fun v fits page' ok => ?_⟩
    · have mapped : pageMap alloc mem pgdir va (pageToPhys page) pageSize pteW = some mid := call
      rw [mapVmArea, mapped, word]
      exact rest
    · obtain ⟨inside, outside⟩ := second v fits page' ok
      have covered : (PtOp.pageMap va (pageToPhys page) pageSize pteW alloc).covers v = true ↔
          v = va := by
        rw [covers_iff_between]
        simp only [PtOp.va, PtOp.size, same]
        unfold pageSize at aligned page' ⊢
        omega
      have here := first v fits page' ok
      have positive : 0 < pageSize := by decide
      by_cases start : v = va
      · rw [if_pos (covered.mpr start), PtOp.result, same, roundDownPage_pageToPhys, start,
          Nat.sub_self, Nat.add_zero, ← start] at here
        have mine : walk new pgdir v = some (areaEntry page) := by
          rw [outside (by omega), here]
          rfl
        exact ⟨fun _ => ⟨page, List.mem_cons_self, mine⟩, fun other => absurd (by omega) other⟩
      · rw [if_neg (mt covered.mp start)] at here
        have shifted : (va ≤ v ∧ v < va + (pages.length * pageSize + pageSize)) ↔
            (va + pageSize ≤ v ∧ v < va + pageSize + pages.length * pageSize) := by
          unfold pageSize at aligned page' ⊢
          omega
        refine ⟨fun among => ?_, fun other => ?_⟩
        · obtain ⟨other, member, found⟩ := inside (shifted.mp among)
          exact ⟨other, List.mem_cons_of_mem _ member, found⟩
        · rw [outside (mt shifted.mpr other), here]

theorem kernelOp_grows {op : KernelOp} (tables : Tables {pdeIndex vpt} pgdir mem)
    (allowed : op.Allowed pgdir) :
    ∃ new, kernelOp pgdir mem op = some new ∧ Tables {pdeIndex vpt} pgdir new ∧
      Grows pgdir (fun i => ∃ v, op.covers v = true ∧ pdeIndex v = i) mem new := by
  cases op with
  | page op =>
    obtain ⟨new, call, tables', grows⟩ := ptOp_grows tables allowed
    refine ⟨new, call, tables', grows.congr fun i => ?_⟩
    simp only [SlotOf, KernelOp.covers, covers_iff_between, and_assoc]
  | vmap start pages alloc =>
    obtain ⟨aligned, -, high, fresh⟩ := allowed
    obtain ⟨new, call, tables', grows⟩ := mapVmArea_grows fresh pages mem start tables aligned high
    refine ⟨new, call, tables', grows.congr fun i => ?_⟩
    simp only [SlotOf, KernelOp.covers, decide_eq_true_iff, and_assoc]

private theorem kernelRun_grows {ops : List KernelOp} (tables : Tables {pdeIndex vpt} pgdir mem)
    (allowed : ∀ op ∈ ops, op.Allowed pgdir) :
    ∃ new, kernelRun pgdir mem ops = some new ∧
      Grows pgdir (fun i => ∃ op ∈ ops, ∃ v, op.covers v = true ∧ pdeIndex v = i) mem new := by
  induction ops generalizing mem with
  | nil => exact ⟨mem, rfl, grows_refl (by simp)⟩
  | cons op ops ih =>
    obtain ⟨mid, call, tables', first⟩ := kernelOp_grows tables (allowed op List.mem_cons_self)
    obtain ⟨new, run, second⟩ := ih tables' fun o mem => allowed o (List.mem_cons_of_mem _ mem)
    refine ⟨new, ?_, (first.trans second).congr fun i => ?_⟩
    · rw [kernelRun, call, Option.bind_some, run]
    · simp only [List.mem_cons, or_and_right, exists_or, exists_eq_left]

private theorem KernelOp.Allowed.word {op : KernelOp} (allowed : op.Allowed pgdir) {v : Nat}
    (covered : op.covers v = true) : v < 2 ^ 32 := by
  cases op with
  | page op =>
    have inside := allowed.inside
    have below := ((covers_iff_between op v).mp covered).2
    omega
  | vmap start pages alloc =>
    have high := allowed.2.2.1
    have below := (of_decide_eq_true covered).2
    unfold vmallocEnd kernelVirtBase at high
    omega

/-! ### Starting a CPU -/

structure SelfMap (pgdir : Word) (mem : Mem) : Prop where
  present : Present (mem pgdir (pdeIndex vpt))
  base : pageBase (mem pgdir (pdeIndex vpt)) = pgdir

theorem startPaging_slot : startPaging mem pgdir pgdir 0 = 0 := store_same ..

theorem startPaging_other {page : Word} {i : Nat} (other : page ≠ pgdir ∨ i ≠ 0) :
    startPaging mem pgdir page i = mem page i := by
  unfold startPaging
  rcases other with ne | ne
  · rw [store_of_ne_page _ _ _ ne, store_of_ne_page _ _ _ ne]
  · rw [store_of_ne_index _ _ _ _ ne, store_of_ne_index _ _ _ _ ne]

theorem found_none_iff {w : Word} : found w = none ↔ ¬ Present w := by
  unfold found Present
  split
  · rename_i absent
    exact iff_of_true rfl fun present => present absent
  · rename_i present
    exact iff_of_false (by simp) fun absent => absent present

private theorem startPaging_walk_iff (self : SelfMap pgdir mem) :
    (∀ v < 2 ^ 32, walk (startPaging mem pgdir) pgdir v = walk mem pgdir v) ↔
      ¬ Present (mem pgdir 0) := by
  have gone : ¬ Present (startPaging mem pgdir pgdir 0) := by
    rw [startPaging_slot]
    exact fun present => present rfl
  constructor
  · intro same
    have slot : pdeIndex vpt ≠ 0 := by decide
    have first : pteIndex vpt = 0 := by decide
    have entry : startPaging mem pgdir pgdir (pdeIndex vpt) = mem pgdir (pdeIndex vpt) :=
      startPaging_other (.inr slot)
    have here := same vpt (by decide)
    rw [walk_of_present (entry ▸ self.present), walk_of_present self.present, entry, self.base,
      first, found_none_iff.mpr gone] at here
    exact found_none_iff.mp here.symm
  · intro absent v _
    by_cases slot : pdeIndex v = 0
    · rw [walk_of_absent (slot ▸ gone), walk_of_absent (slot ▸ absent)]
    · have entry : startPaging mem pgdir pgdir (pdeIndex v) = mem pgdir (pdeIndex v) :=
        startPaging_other (.inr slot)
      by_cases present : Present (mem pgdir (pdeIndex v))
      · rw [walk_of_present (entry ▸ present), walk_of_present present, entry]
        by_cases low : pageBase (mem pgdir (pdeIndex v)) = pgdir ∧ pteIndex v = 0
        · rw [low.1, low.2, found_none_iff.mpr gone, found_none_iff.mpr absent]
        · rw [startPaging_other (not_and_or.mp low)]
      · rw [walk_of_absent (entry ▸ present), walk_of_absent present]

structure BootDirectory (pgdir : Word) (mem : Mem) : Prop where
  tables : Tables {pdeIndex vpt} pgdir mem
  self : SelfMap pgdir mem
  low : ¬ Present (mem pgdir 0)

/-- Whatever was mapped and unmapped since boot, `start_paging` keeps all translations if and only
if no call has covered an address below 4 MB. -/
theorem start_paging_keeps_iff {ops : List KernelOp} (boot : BootDirectory pgdir mem)
    (allowed : ∀ op ∈ ops, op.Allowed pgdir) :
    ∃ new, kernelRun pgdir mem ops = some new ∧
      ((∀ v < 2 ^ 32, walk (startPaging new pgdir) pgdir v = walk new pgdir v) ↔
        ∀ op ∈ ops, ∀ v, op.covers v = true → 2 ^ 22 ≤ v) := by
  obtain ⟨new, run, grows⟩ := kernelRun_grows boot.tables allowed
  have still := grows.kept _ boot.self.present
  have self : SelfMap pgdir new := ⟨still ▸ boot.self.present, still ▸ boot.self.base⟩
  refine ⟨new, run, (startPaging_walk_iff self).trans ?_⟩
  rw [grows.present, or_iff_right boot.low]
  constructor
  · intro none op member v covered
    by_contra below
    refine none ⟨op, member, v, covered, ?_⟩
    rw [pdeIndex_eq]
    omega
  · rintro high ⟨op, member, v, covered, slot⟩
    have above := high op member v covered
    have word := (allowed op member).word covered
    rw [pdeIndex_eq] at slot
    omega

end

private theorem selfMapped_boot : BootDirectory 0x1000 selfMapped := by
  refine ⟨selfMapped_tables, ⟨?_, ?_⟩, ?_⟩
  · unfold Present
    decide
  · decide
  · unfold Present
    decide

/-- Page 8 mapped at 4 MB survives. -/
theorem start_paging_keeps_iff_high :
    ∃ alloc new, kernelRun 0x1000 selfMapped [.vmap 0x400000 [8] alloc] = some new ∧
      ∀ v < 2 ^ 32, walk (startPaging new 0x1000) 0x1000 v = walk new 0x1000 v := by
  obtain ⟨alloc, fresh⟩ := exists_alloc {pdeIndex vpt} 0x1000
  have allowed : ∀ op ∈ [KernelOp.vmap 0x400000 [8] alloc], op.Allowed 0x1000 := by
    intro op member
    obtain rfl := List.mem_singleton.mp member
    exact ⟨by decide, by decide, by decide, fresh⟩
  obtain ⟨new, run, keeps⟩ := start_paging_keeps_iff selfMapped_boot allowed
  refine ⟨alloc, new, run, keeps.mpr ?_⟩
  intro op member v covered
  obtain rfl := List.mem_singleton.mp member
  exact (of_decide_eq_true covered).1

open OhMyOs.Mm.VmallocRuns OhMyOs.Mm.VmallocSafety in
/-- The first area that `vmap` gets is the page at 0x1000; page 8 mapped there is gone after the
next CPU has started. -/
theorem start_paging_loses_first_area :
    ∃ s pgdir mem alloc new, Reachable s ∧ InUse s 100 ∧ (s.area 100).start = 0x1000 ∧
      BootDirectory pgdir mem ∧ (KernelOp.vmap (s.area 100).start [8] alloc).Allowed pgdir ∧
        kernelRun pgdir mem [.vmap (s.area 100).start [8] alloc] = some new ∧
          walk new pgdir 0x1000 = some 0x8003 ∧
          walk (startPaging new pgdir) pgdir 0x1000 = none := by
  obtain ⟨s, reachable, -, mine, start, -⟩ := one_page_inUse
  obtain ⟨alloc, fresh⟩ := exists_alloc {pdeIndex vpt} 0x1000
  obtain ⟨-, allowed⟩ := mapPage_allowed (by decide : pageSize ∣ 0x1000) (by decide) 8 fresh
  obtain ⟨new, call, -, walks⟩ := ptOp_walk selfMapped_tables allowed
  refine ⟨s, 0x1000, selfMapped, alloc, new, reachable,
    mine, start, selfMapped_boot, ?_, ?_, ?_, ?_⟩
  · rw [start]
    exact ⟨by decide, by decide, by decide, fresh⟩
  · rw [start, kernelRun, kernelOp, mapVmArea]
    have mapped : pageMap alloc selfMapped 0x1000 0x1000 (pageToPhys 8) pageSize pteW =
      some new := call
    rw [mapped]
    rfl
  · rw [walks 0x1000 (by decide) (by decide) (by decide)]
    simp [PtOp.covers, PtOp.va, PtOp.size, PtOp.result, roundDownPage, roundDown, pageSize, pteP,
      pteW, pageToPhys]
  · apply walk_of_absent
    rw [show pdeIndex 0x1000 = 0 by decide, startPaging_slot]
    exact fun present => present rfl

end OhMyOs.Mm.StartPaging
