/- GID: OhMyOs/Mm/PagingSwitch
   generality: I
   digest: start_paging of mm/memory.c instruction by instruction: what the processor reaches while
     segments and paging change under the running kernel. -/

import OhMyOs.Kernel.Descriptors
import OhMyOs.Lib.Runs
import OhMyOs.Mm.MemoryInit
import OhMyOs.Mm.PageMapCover

set_option autoImplicit false
set_option relaxedAutoImplicit false

namespace OhMyOs.Mm.PagingSwitch

open OhMyOs.Include.Constants
open OhMyOs.Include.Bitops OhMyOs.Include.Memory OhMyOs.Kernel.Descriptors OhMyOs.Mm.PageTable
  OhMyOs.Mm.StartPaging OhMyOs.Mm.PageMapCover OhMyOs.Mm.MemoryInit OhMyOs.Mm.MemorySlots
  OhMyOs.Lib.Runs

/-! ### The code -/

/-- The segment registers that the kernel uses. -/
inductive Reg
  | cs
  | ds
  | es
  | ss
  deriving DecidableEq

/-- One processor with the memory that it shares: the descriptors that its segment registers hold,
the linear address of the descriptor table, the page directory if paging is on, the words of the
pages and the descriptors in memory by physical address. -/
structure Machine where
  seg : Reg → Nat
  gdtr : Nat
  cr3 : Option Word
  mem : Mem
  descs : Nat → Nat

namespace Machine

def linear (m : Machine) (x : Nat) : Option Nat :=
  match m.cr3 with
  | none => some x
  | some pgdir => translate m.mem pgdir x

/-- The physical address that an access through a segment register reaches; `none` is a fault. -/
def reach (m : Machine) (r : Reg) (va : Nat) : Option Nat :=
  if va ≤ segLimit (m.seg r) then m.linear ((segBase (m.seg r) + va) % 2 ^ 32) else none

end Machine

/-- The steps of `kern_entry`, `start_paging` and `gdt_init` that change what addresses mean. -/
inductive Step
  /-- `pgdir[0] = ..`, through the data segment. -/
  | entry (pgdir : Word) (value : Mem → Word)
  | enablePaging (pgdir : Word)
  /-- `seg_init` on one descriptor of the table at `gdt`. -/
  | seg (gdt index : Nat) (d : SegDesc)
  | lgdt (gdt : Nat)
  | load (r : Reg) (selector : Nat)

/-- The page of the directory is written where the data segment leads. -/
def step (m : Machine) : Step → Option Machine
  | .entry pgdir value => (m.reach .ds (physToVirt pgdir.toNat)).map fun at' =>
    { m with mem := store m.mem (BitVec.ofNat 32 at') 0 (value m.mem) }
  | .enablePaging pgdir => some { m with cr3 := some pgdir }
  | .seg gdt index d => (m.reach .ds (gdt + 8 * index)).map fun at' =>
    { m with descs := Function.update m.descs at' d.word }
  | .lgdt gdt => some { m with gdtr := gdt }
  | .load r selector => (m.linear (m.gdtr + 8 * (selector >>> 3))).map fun at' =>
    { m with seg := Function.update m.seg r (m.descs at') }

def run (m : Machine) (steps : List Step) : Option Machine := exec step (fun _ _ => true) m steps

def kernEntry (bootGdt : Nat) : List Step :=
  [.lgdt (virtToPhys bootGdt), .load .ds kernelDs, .load .es kernelDs, .load .ss kernelDs,
    .load .cs kernelCs]

def bootDesc (index : Nat) : Nat :=
  if index = segKtext then segAsm (staX ||| staR) (wsub 0 kernelVirtBase) 0xFFFFFFFF
  else if index = segKdata then segAsm staW (wsub 0 kernelVirtBase) 0xFFFFFFFF
  else 0

/-- Its loads of `gs` and `fs` are left out. -/
def gdtInit (gdt : Nat) : List Step :=
  [.seg gdt segKtext (segInit (staX ||| staR) 0x0 0xFFFFFFFF dplKernel true),
    .seg gdt segKdata (segInit staW 0x0 0xFFFFFFFF dplKernel true),
    .seg gdt segUtext (segInit (staX ||| staR) 0x0 0xFFFFFFFF dplUser true),
    .seg gdt segUdata (segInit staW 0x0 0xFFFFFFFF dplUser true),
    .lgdt gdt, .load .es kernelDs, .load .ds kernelDs, .load .ss kernelDs, .load .cs kernelCs]

def startPagingSteps (gdt : Nat) (pgdir : Word) : List Step :=
  [.entry pgdir fun mem => mem pgdir (pdeIndex kernelVirtBase), .enablePaging pgdir] ++
    gdtInit gdt ++ [.entry pgdir fun _ => 0]

/-- What the processors share; `threads` are the places of `current_threads` that `schedule_init`
has filled, all with threads of one process. -/
structure Shared where
  mem : Mem
  descs : Nat → Nat
  threads : List Nat

/-- A processor starts with paging off and whatever its other registers hold. -/
structure Cpu where
  id : Nat
  seg : Reg → Nat
  gdtr : Nat

def machine (s : Shared) (cpu : Cpu) : Machine := ⟨cpu.seg, cpu.gdtr, none, s.mem, s.descs⟩

/-- Where the linker puts the two descriptor tables, the page directory, and the address of the
local APIC. -/
structure Layout where
  bootGdt : Nat
  gdt : Nat
  pgdir : Word
  lapic : Nat

/-- What `cpu_id` returns before paging: the data segment leads from the register of the local APIC
to some word in RAM. -/
def staleId (lapic : Nat) (m : Machine) : Option Nat :=
  (m.reach .ds (lapic + 0x20)).map fun pa => (wordAt m.mem pa).toNat >>> 24

/-- The boot processor or another one starts, or the kernel maps pages. -/
inductive SwitchOp
  | first (cpu : Cpu)
  | secondary (cpu : Cpu)
  | kernel (op : KernelOp)

/-- `start_paging`, and `schedule_init` some time after it. -/
def switchPaging (l : Layout) (s : Shared) (cpu : Cpu) (m : Machine) : Option Shared :=
  (run m (startPagingSteps l.gdt l.pgdir)).map fun m => ⟨m.mem, m.descs, cpu.id :: s.threads⟩

/-- `start_secondary` gets the directory from `current->proc->mm`, and goes astray if there is no
such thread. -/
def switchOp (l : Layout) (s : Shared) : SwitchOp → Option Shared
  | .first cpu => (run (machine s cpu) (kernEntry l.bootGdt)).bind (switchPaging l s cpu)
  | .secondary cpu => do
    let m ← run (machine s cpu) (kernEntry l.bootGdt)
    let id ← staleId l.lapic m
    if id ∈ s.threads then switchPaging l s cpu m else none
  | .kernel op => (kernelOp l.pgdir s.mem op).map fun mem => { s with mem := mem }

/-! ### What the kernel relies on -/

/-- Every kernel address in the first `window` bytes is at its place in physical memory, for every
segment register. -/
def Seamless (window : Nat) (m : Machine) : Prop :=
  ∀ r va, kernelVirtBase ≤ va → va < kernelVirtBase + window →
    m.reach r va = some (va - kernelVirtBase)

def Flat (d base : Nat) : Prop := segBase d = base ∧ segLimit d = 2 ^ 32 - 1

def lowBase : Nat := wsub 0 kernelVirtBase

private theorem lowBase_add_kernelVirtBase : lowBase + kernelVirtBase = 2 ^ 32 := by decide

private theorem flat_segInit (type dpl : Nat) {base : Nat} (fits : base < 2 ^ 32) :
    Flat (segInit type base 0xFFFFFFFF dpl true).word base :=
  ⟨segBase_segInit fits true, segLimit_segInit (by decide)⟩

private theorem flat_segAsm {type base : Nat} (nibble : type < 2 ^ 4) (fits : base < 2 ^ 32) :
    Flat (segAsm type base 0xFFFFFFFF) base := by
  rw [← segInit_eq_segAsm nibble]
  exact flat_segInit type dplKernel fits

private theorem reach_flat {m : Machine} {r : Reg} {base va : Nat} (flat : Flat (m.seg r) base)
    (word : va < 2 ^ 32) : m.reach r va = m.linear ((base + va) % 2 ^ 32) := by
  rw [Machine.reach, if_pos (by rw [flat.2]; omega), flat.1]

private theorem linear_unpaged {m : Machine} (off : m.cr3 = none) (x : Nat) :
    m.linear x = some x := by
  rw [Machine.linear, off]

def loadSegs (descs : Nat → Nat) (gdtr : Nat) (seg : Reg → Nat) (loads : List (Reg × Nat)) :
    Reg → Nat :=
  loads.foldl (fun seg p => Function.update seg p.1 (descs (gdtr + 8 * (p.2 >>> 3)))) seg

private theorem run_loads_unpaged {m : Machine} (off : m.cr3 = none) (loads : List (Reg × Nat)) :
    run m (loads.map fun p => .load p.1 p.2) =
      some { m with seg := loadSegs m.descs m.gdtr m.seg loads } := by
  unfold run
  induction loads generalizing m with
  | nil => rfl
  | cons p loads ih =>
    rw [List.map_cons, exec, if_pos rfl, step, linear_unpaged off, Option.map_some,
      Option.bind_some]
    exact ih off

private theorem linear_paged {m : Machine} {pgdir : Word} (on : m.cr3 = some pgdir) (x : Nat) :
    m.linear x = translate m.mem pgdir x := by
  rw [Machine.linear, on]

private theorem lowBase_add {va : Nat} (above : kernelVirtBase ≤ va) (word : va < 2 ^ 32) :
    (lowBase + va) % 2 ^ 32 = va - kernelVirtBase := by
  have sum := lowBase_add_kernelVirtBase
  omega

/-! ### The directory -/

/-- The tables of the directory are apart, and it maps the first `size` bytes of memory at the
kernel's addresses. -/
structure Directory (pgdir : Word) (size : Nat) (mem : Mem) : Prop where
  tables : Tables {pdeIndex vpt} pgdir mem
  linear : ∀ v, pageSize ∣ v → kernelVirtBase ≤ v → v < kernelVirtBase + size →
    walk mem pgdir v = some (linearEntry v)

section
variable {pgdir : Word} {size : Nat} {mem : Mem}

private theorem linear_slot (low : size ≤ physHighmemStart) {v : Nat} (above : kernelVirtBase ≤ v)
    (below : v < kernelVirtBase + size) :
    pdeIndex v ≠ 0 ∧ pdeIndex v ∉ ({pdeIndex vpt} : Set Nat) := by
  have slot : pdeIndex vpt = 1003 := by decide
  rw [Set.mem_singleton_iff, slot, pdeIndex_eq]
  unfold physHighmemStart at low
  unfold kernelVirtBase at above below
  omega

private theorem present_of_walk {v : Nat} {w : Word} (found : walk mem pgdir v = some w) :
    Present (mem pgdir (pdeIndex v)) := by
  by_contra absent
  rw [walk_of_absent absent] at found
  cases found

private theorem Directory.table (dir : Directory pgdir size mem) (low : size ≤ physHighmemStart)
    {v : Nat}
    (aligned : pageSize ∣ v) (above : kernelVirtBase ≤ v) (below : v < kernelVirtBase + size) :
    Present (mem pgdir (pdeIndex v)) ∧ pageBase (mem pgdir (pdeIndex v)) ≠ pgdir := by
  have present := present_of_walk (dir.linear v aligned above below)
  exact ⟨present, dir.tables.dir _ (pdeIndex_lt v) (linear_slot low above below).2 present⟩

private theorem Directory.linear_store (dir : Directory pgdir size mem)
    (low : size ≤ physHighmemStart)
    (w : Word) {v : Nat} (aligned : pageSize ∣ v) (above : kernelVirtBase ≤ v)
    (below : v < kernelVirtBase + size) :
    walk (store mem pgdir 0 w) pgdir v = some (linearEntry v) := by
  obtain ⟨present, table⟩ := dir.table low aligned above below
  have entry : store mem pgdir 0 w pgdir (pdeIndex v) = mem pgdir (pdeIndex v) :=
    store_of_ne_index _ _ _ _ (linear_slot low above below).1
  rw [← dir.linear v aligned above below, walk_of_present (entry ▸ present),
    walk_of_present present, entry, store_of_ne_page _ _ _ table]

private theorem pageBase_linearEntry (v : Nat) : pageBase (linearEntry v) =
    BitVec.ofNat 32 (roundDownPage (v - kernelVirtBase)) :=
  pageBase_entry (roundDownPage_aligned _) (by decide)

private theorem translate_linearEntry {v x : Nat} (low : size ≤ physHighmemStart)
    (inside : x < size)
    (offset : x % pageSize = v % pageSize)
    (found : walk mem pgdir v = some (linearEntry (kernelVirtBase + roundDownPage x))) :
    translate mem pgdir v = some x := by
  have page : roundDownPage (roundDownPage x) = roundDownPage x := by
    unfold roundDownPage roundDown
    rw [pageSize]
    omega
  unfold physHighmemStart at low
  rw [PageMapCover.translate, found, Option.map_some, pageBase_linearEntry,
    Nat.add_sub_cancel_left, page, pageOffset_eq, ← offset, BitVec.toNat_ofNat]
  unfold roundDownPage roundDown pageSize
  congr 1
  omega

private theorem linear_page (x : Nat) : pageSize ∣ kernelVirtBase + roundDownPage x ∧
    roundDownPage x ≤ x ∧ x < roundDownPage x + pageSize :=
  ⟨Nat.dvd_add (by decide) (roundDownPage_aligned x), roundDown_le _ _,
    lt_roundDown_add (by decide) _⟩

private theorem translate_high {x : Nat} (low : size ≤ physHighmemStart) (inside : x < size)
    (linear : ∀ v, pageSize ∣ v → kernelVirtBase ≤ v → v < kernelVirtBase + size →
      walk mem pgdir v = some (linearEntry v)) :
    translate mem pgdir (kernelVirtBase + x) = some x := by
  obtain ⟨aligned, start, stop⟩ := linear_page x
  have base : kernelVirtBase % pageSize = 0 := by decide
  apply translate_linearEntry low inside
  · rw [Nat.add_mod, base, Nat.zero_add, Nat.mod_mod]
  · rw [walk_page aligned (by omega) (by omega)]
    exact linear _ aligned (by omega) (by omega)

private theorem Directory.translate_low (dir : Directory pgdir size mem)
    (low : size ≤ physHighmemStart)
    {x : Nat} (inside : x < size) (window : x < 2 ^ 22) :
    translate (store mem pgdir 0 (mem pgdir (pdeIndex kernelVirtBase))) pgdir x = some x := by
  obtain ⟨aligned, start, stop⟩ := linear_page x
  obtain ⟨present, table⟩ := dir.table low aligned (by omega) (by omega)
  have base : kernelVirtBase = 768 * 2 ^ 22 := by decide
  have slot : pdeIndex x = 0 := by
    rw [pdeIndex_eq]
    omega
  have first : pdeIndex (kernelVirtBase + roundDownPage x) = pdeIndex kernelVirtBase := by
    rw [pdeIndex_eq, pdeIndex_eq]
    omega
  have index : pteIndex (kernelVirtBase + roundDownPage x) = pteIndex x := by
    rw [pteIndex_eq, pteIndex_eq, base]
    unfold roundDownPage roundDown pageSize
    omega
  have entry : store mem pgdir 0 (mem pgdir (pdeIndex kernelVirtBase)) pgdir (pdeIndex x) =
      mem pgdir (pdeIndex kernelVirtBase) := by
    rw [slot, store_same]
  have found := dir.linear _ aligned (by omega) (by omega)
  rw [first] at present table
  apply translate_linearEntry low inside rfl
  have mapped : Present (store mem pgdir 0 (mem pgdir (pdeIndex kernelVirtBase)) pgdir
      (pdeIndex x)) := by
    rw [entry]
    exact present
  rw [walk_of_present mapped, entry, store_of_ne_page _ _ _ table, ← index, ← found,
    walk_of_present (first ▸ present), first]

private theorem tables_clear (tables : Tables {pdeIndex vpt} pgdir mem) :
    Tables {pdeIndex vpt} pgdir (startPaging mem pgdir) := by
  have kept : ∀ i, Present (startPaging mem pgdir pgdir i) →
      startPaging mem pgdir pgdir i = mem pgdir i := by
    intro i present
    by_cases zero : i = 0
    · rw [zero, startPaging_slot] at present
      exact absurd rfl present
    · exact startPaging_other (.inr zero)
  constructor
  · intro i j small small' ok ok' ne present present'
    have same := kept i present
    have same' := kept j present'
    rw [same] at present ⊢
    rw [same'] at present' ⊢
    exact tables.apart i j small small' ok ok' ne present present'
  · intro i small ok present
    have same := kept i present
    rw [same] at present ⊢
    exact tables.dir i small ok present

private theorem Directory.startPaging (dir : Directory pgdir size mem)
    (low : size ≤ physHighmemStart) :
    Directory pgdir size (startPaging mem pgdir) := by
  refine ⟨tables_clear dir.tables, fun v aligned above below => ?_⟩
  obtain ⟨present, table⟩ := dir.table low aligned above below
  have entry : StartPaging.startPaging mem pgdir pgdir (pdeIndex v) = mem pgdir (pdeIndex v) :=
    startPaging_other (.inr (linear_slot low above below).1)
  rw [← dir.linear v aligned above below, walk_of_present (entry ▸ present),
    walk_of_present present, entry, startPaging_other (.inl table)]

def Elsewhere (size : Nat) (op : KernelOp) : Prop :=
  ∀ v, op.covers v = true → ¬ (kernelVirtBase ≤ v ∧ v < kernelVirtBase + size)

private theorem Directory.kernelOp (dir : Directory pgdir size mem) (low : size ≤ physHighmemStart)
    {op : KernelOp} (allowed : op.Allowed pgdir) (elsewhere : Elsewhere size op) :
    ∃ new, kernelOp pgdir mem op = some new ∧ Directory pgdir size new := by
  have word : ∀ v, v < kernelVirtBase + size → v < 2 ^ 32 := by
    intro v below
    unfold physHighmemStart at low
    unfold kernelVirtBase at below
    omega
  cases op with
  | page op =>
    obtain ⟨new, call, tables, walks⟩ := ptOp_walk dir.tables allowed
    refine ⟨new, call, tables, fun v aligned above below => ?_⟩
    have missed : ¬ op.covers v = true := fun covered => elsewhere v covered ⟨above, below⟩
    rw [walks v (word v below) aligned (linear_slot low above below).2, if_neg missed]
    exact dir.linear v aligned above below
  | vmap start pages alloc =>
    obtain ⟨new, call, tables, -⟩ := kernelOp_grows dir.tables allowed
    obtain ⟨aligned, -, high, fresh⟩ := allowed
    obtain ⟨new', call', walks⟩ := mapVmArea_walk fresh pages mem start dir.tables aligned high
    obtain rfl := Option.some.inj (call.symm.trans call')
    refine ⟨new, call, tables, fun v page above below => ?_⟩
    rw [(walks v (word v below) page (linear_slot low above below).2).2 fun inside =>
      elsewhere v (decide_eq_true inside) ⟨above, below⟩]
    exact dir.linear v page above below

end

/-! ### The switch -/

/-- The two descriptor tables are apart and in the part of the kernel that the first slot maps, and
the directory is in the linear map. -/
structure Layout.Placed (l : Layout) (size window : Nat) : Prop where
  boot : kernelVirtBase ≤ l.bootGdt ∧ l.bootGdt + 8 * 3 ≤ kernelVirtBase + window
  gdt : kernelVirtBase ≤ l.gdt ∧ l.gdt + 8 * 6 ≤ kernelVirtBase + window
  apart : l.bootGdt + 8 * 3 ≤ l.gdt ∨ l.gdt + 8 * 6 ≤ l.bootGdt
  inside : window ≤ size
  slot : window ≤ 2 ^ 22
  pgdir : l.pgdir.toNat < size
  low : size ≤ physHighmemStart

/-- `__gdt` is in memory. -/
def BootTable (l : Layout) (descs : Nat → Nat) : Prop :=
  ∀ i < 3, descs (l.bootGdt - kernelVirtBase + 8 * i) = bootDesc i

section
variable {l : Layout} {size window : Nat} {m : Machine} {mem : Mem} {loaded : Reg → Bool}

structure Entered (mem : Mem) (descs : Nat → Nat) (m : Machine) : Prop where
  cr3 : m.cr3 = none
  mem_eq : m.mem = mem
  descs_eq : m.descs = descs
  segs : ∀ r, Flat (m.seg r) lowBase

structure During (l : Layout) (mem : Mem) (loaded : Reg → Bool) (m : Machine) : Prop where
  cr3 : m.cr3 = some l.pgdir
  mem_eq : m.mem = store mem l.pgdir 0 (mem l.pgdir (pdeIndex kernelVirtBase))
  segs : ∀ r, Flat (m.seg r) (if loaded r then 0 else lowBase)

private theorem kernel_word (placed : l.Placed size window) {x : Nat} (inside : x < size) :
    kernelVirtBase + x < 2 ^ 32 := by
  have low := placed.low
  unfold physHighmemStart at low
  unfold kernelVirtBase
  omega

private theorem Entered.reach {descs : Nat → Nat} (entered : Entered mem descs m)
    (placed : l.Placed size window) (r : Reg) {x : Nat} (inside : x < size) :
    m.reach r (kernelVirtBase + x) = some x := by
  have word := kernel_word placed inside
  rw [reach_flat (entered.segs r) word, linear_unpaged entered.cr3,
    lowBase_add (by omega) word, Nat.add_sub_cancel_left]

private theorem seamless_of_reach
    (reach : ∀ r x, x < window → m.reach r (kernelVirtBase + x) = some x) :
    Seamless window m := by
  intro r va above below
  obtain ⟨x, rfl⟩ := Nat.exists_eq_add_of_le above
  rw [Nat.add_sub_cancel_left]
  exact reach r x (by omega)

private theorem Entered.seamless {descs : Nat → Nat} (entered : Entered mem descs m)
    (placed : l.Placed size window) : Seamless window m :=
  seamless_of_reach fun r _ inside =>
    entered.reach placed r (Nat.lt_of_lt_of_le inside placed.inside)

private theorem During.reach (during : During l mem loaded m) (dir : Directory l.pgdir size mem)
    (placed : l.Placed size window) (r : Reg) {x : Nat} (inside : x < window) :
    m.reach r (kernelVirtBase + x) = some x := by
  have small : x < size := Nat.lt_of_lt_of_le inside placed.inside
  have word := kernel_word placed small
  rw [reach_flat (during.segs r) word, linear_paged during.cr3, during.mem_eq]
  by_cases new : loaded r = true
  · rw [if_pos new, Nat.zero_add, Nat.mod_eq_of_lt word]
    exact translate_high placed.low small fun v => dir.linear_store placed.low _
  · rw [if_neg new, lowBase_add (by omega) word, Nat.add_sub_cancel_left]
    exact dir.translate_low placed.low small (Nat.lt_of_lt_of_le inside placed.slot)

private theorem During.seamless (during : During l mem loaded m) (dir : Directory l.pgdir size mem)
    (placed : l.Placed size window) : Seamless window m :=
  seamless_of_reach fun r _ inside => during.reach dir placed r inside

def writeDescs (base : Nat) (descs : Nat → Nat) (ds : List (Nat × SegDesc)) : Nat → Nat :=
  ds.foldl (fun descs d => Function.update descs (base + 8 * d.1) d.2.word) descs

private theorem writeDescs_other {base a : Nat} {ds : List (Nat × SegDesc)}
    (other : ∀ d ∈ ds, a ≠ base + 8 * d.1) (descs : Nat → Nat) :
    writeDescs base descs ds a = descs a := by
  induction ds generalizing descs with
  | nil => rfl
  | cons d ds ih =>
    have rest := ih (fun d' member => other d' (List.mem_cons_of_mem _ member))
      (Function.update descs (base + 8 * d.1) d.2.word)
    exact rest.trans (Function.update_of_ne (other d List.mem_cons_self) ..)

private theorem During.segs_along (during : During l mem loaded m)
    (dir : Directory l.pgdir size mem)
    (placed : l.Placed size window) (ds : List (Nat × SegDesc)) (small : ∀ d ∈ ds, d.1 < 6) :
    Along step (Seamless window) m (ds.map fun d => .seg l.gdt d.1 d.2)
      { m with descs := writeDescs (l.gdt - kernelVirtBase) m.descs ds } := by
  induction ds generalizing m with
  | nil => exact ⟨during.seamless dir placed, rfl⟩
  | cons d ds ih =>
    have below := small d List.mem_cons_self
    obtain ⟨above, inside⟩ := placed.gdt
    have reach := during.reach dir placed .ds
      (show l.gdt - kernelVirtBase + 8 * d.1 < window by omega)
    have here : kernelVirtBase + (l.gdt - kernelVirtBase + 8 * d.1) = l.gdt + 8 * d.1 := by omega
    rw [here] at reach
    refine ⟨during.seamless dir placed, { m with
      descs := Function.update m.descs (l.gdt - kernelVirtBase + 8 * d.1) d.2.word }, ?_, ?_⟩
    · rw [step, reach]
      rfl
    · exact ih ⟨during.cr3, during.mem_eq, during.segs⟩ fun d' member =>
        small d' (List.mem_cons_of_mem _ member)

private theorem During.loads_along (during : During l mem loaded m)
    (dir : Directory l.pgdir size mem)
    (placed : l.Placed size window) (table : m.gdtr = l.gdt) (loads : List (Reg × Nat))
    (flat : ∀ p ∈ loads, p.2 >>> 3 < 6 ∧
      Flat (m.descs (l.gdt - kernelVirtBase + 8 * (p.2 >>> 3))) 0) :
    ∃ seg, Along step (Seamless window) m (loads.map fun p => .load p.1 p.2) { m with seg := seg } ∧
      During l mem (fun r => loaded r || loads.any fun p => p.1 = r) { m with seg := seg } := by
  induction loads generalizing m loaded with
  | nil =>
    refine ⟨m.seg, ⟨during.seamless dir placed, rfl⟩, during.cr3, during.mem_eq, fun r => ?_⟩
    simpa using during.segs r
  | cons p loads ih =>
    obtain ⟨small, new⟩ := flat p List.mem_cons_self
    obtain ⟨above, inside⟩ := placed.gdt
    generalize place : l.gdt - kernelVirtBase + 8 * (p.2 >>> 3) = phys at new
    let n : Machine := { m with seg := Function.update m.seg p.1 (m.descs phys) }
    have word : phys < window := by omega
    have here : kernelVirtBase + phys = m.gdtr + 8 * (p.2 >>> 3) := by omega
    have linear : m.linear (m.gdtr + 8 * (p.2 >>> 3)) = some phys := by
      rw [linear_paged during.cr3, during.mem_eq, ← here]
      exact translate_high placed.low (Nat.lt_of_lt_of_le word placed.inside) fun v =>
        dir.linear_store placed.low _
    have next : During l mem (fun r => loaded r || p.1 = r) n := by
      refine ⟨during.cr3, during.mem_eq, fun r => ?_⟩
      by_cases same : p.1 = r
      · subst same
        simpa [n] using new
      · have kept : n.seg r = m.seg r := Function.update_of_ne (Ne.symm same) ..
        simpa [kept, same] using during.segs r
    obtain ⟨seg, along, after⟩ := ih next table fun q member =>
      flat q (List.mem_cons_of_mem _ member)
    refine ⟨seg, ⟨during.seamless dir placed, n, ?_, along⟩, after.cr3, after.mem_eq, fun r => ?_⟩
    · rw [step, linear]
      rfl
    · simp only [List.any_cons, ← Bool.or_assoc]
      exact after.segs r

private theorem kernelCs_index : kernelCs >>> 3 = segKtext := by decide

private theorem kernelDs_index : kernelDs >>> 3 = segKdata := by decide

private theorem flat_bootDesc :
    Flat (bootDesc segKtext) lowBase ∧ Flat (bootDesc segKdata) lowBase :=
  ⟨flat_segAsm (by decide) (by decide), flat_segAsm (by decide) (by decide)⟩

def entryLoads : List (Reg × Nat) :=
  [(.ds, kernelDs), (.es, kernelDs), (.ss, kernelDs), (.cs, kernelCs)]

private theorem kernEntry_eq (bootGdt : Nat) : kernEntry bootGdt =
    .lgdt (virtToPhys bootGdt) :: entryLoads.map fun p => .load p.1 p.2 := rfl

private theorem kernEntry_entered {s : Shared} (placed : l.Placed size window)
    (boot : BootTable l s.descs) (cpu : Cpu) :
    ∃ m, run (machine s cpu) (kernEntry l.bootGdt) = some m ∧ Entered s.mem s.descs m := by
  obtain ⟨above, below⟩ := placed.boot
  unfold BootTable at boot
  have phys : virtToPhys l.bootGdt = l.bootGdt - kernelVirtBase := by
    have inside := placed.inside
    have offset : l.bootGdt - kernelVirtBase < size := by omega
    have word := kernel_word placed offset
    have base : kernelVirtBase < 2 ^ 32 := by decide
    unfold virtToPhys wsub
    omega
  generalize l.bootGdt - kernelVirtBase = gdtr at phys boot
  have text : Flat (s.descs (gdtr + 8 * (kernelCs >>> 3))) lowBase := by
    rw [kernelCs_index, boot segKtext (by decide)]
    exact flat_bootDesc.1
  have data : Flat (s.descs (gdtr + 8 * (kernelDs >>> 3))) lowBase := by
    rw [kernelDs_index, boot segKdata (by decide)]
    exact flat_bootDesc.2
  let ready : Machine := { machine s cpu with gdtr := gdtr }
  refine ⟨{ ready with seg := loadSegs s.descs gdtr cpu.seg entryLoads }, ?_, rfl, rfl, rfl, ?_⟩
  · have loads := run_loads_unpaged (show ready.cr3 = none from rfl) entryLoads
    rw [run, kernEntry_eq, phys, exec, if_pos rfl, step, Option.bind_some]
    exact loads
  · intro r
    cases r with
    | cs => exact text
    | ds => exact data
    | es => exact data
    | ss => exact data

def gdtDescs : List (Nat × SegDesc) :=
  [(segKtext, segInit (staX ||| staR) 0x0 0xFFFFFFFF dplKernel true),
    (segKdata, segInit staW 0x0 0xFFFFFFFF dplKernel true),
    (segUtext, segInit (staX ||| staR) 0x0 0xFFFFFFFF dplUser true),
    (segUdata, segInit staW 0x0 0xFFFFFFFF dplUser true)]

def gdtLoads : List (Reg × Nat) :=
  [(.es, kernelDs), (.ds, kernelDs), (.ss, kernelDs), (.cs, kernelCs)]

private theorem gdtInit_eq (gdt : Nat) : gdtInit gdt = gdtDescs.map (fun d => .seg gdt d.1 d.2) ++
    .lgdt gdt :: gdtLoads.map fun p => .load p.1 p.2 := rfl

private theorem gdtLoads_flat (base : Nat) (descs : Nat → Nat) (p : Reg × Nat)
    (member : p ∈ gdtLoads) :
    p.2 >>> 3 < 6 ∧ Flat (writeDescs base descs gdtDescs (base + 8 * (p.2 >>> 3))) 0 := by
  have text : Flat (writeDescs base descs gdtDescs (base + 8 * segKtext)) 0 := by
    simpa [writeDescs, gdtDescs, Function.update, segKtext, segKdata, segUtext, segUdata] using
      flat_segInit (staX ||| staR) dplKernel (by decide : 0x0 < 2 ^ 32)
  have data : Flat (writeDescs base descs gdtDescs (base + 8 * segKdata)) 0 := by
    simpa [writeDescs, gdtDescs, Function.update, segKtext, segKdata, segUtext, segUdata] using
      flat_segInit staW dplKernel (by decide : 0x0 < 2 ^ 32)
  have either : p.2 = kernelDs ∨ p.2 = kernelCs := by
    revert p
    decide
  rcases either with ds | cs
  · rw [ds, kernelDs_index]
    exact ⟨by decide, data⟩
  · rw [cs, kernelCs_index]
    exact ⟨by decide, text⟩

private theorem gdtDescs_boot (placed : l.Placed size window) {descs : Nat → Nat}
    (boot : BootTable l descs) :
    BootTable l (writeDescs (l.gdt - kernelVirtBase) descs gdtDescs) := by
  intro i small
  rw [← boot i small]
  apply writeDescs_other
  intro d member
  have index : d.1 < 6 := by
    revert d
    decide
  obtain ⟨above, -⟩ := placed.boot
  obtain ⟨above', -⟩ := placed.gdt
  have apart := placed.apart
  omega

private theorem During.gdtInit_along (during : During l mem (fun _ => false) m)
    (dir : Directory l.pgdir size mem) (placed : l.Placed size window) :
    ∃ n, Along step (Seamless window) m (gdtInit l.gdt) n ∧ During l mem (fun _ => true) n ∧
      n.descs = writeDescs (l.gdt - kernelVirtBase) m.descs gdtDescs := by
  have writes := during.segs_along dir placed gdtDescs (by decide)
  let written : Machine := { m with
    descs := writeDescs (l.gdt - kernelVirtBase) m.descs gdtDescs }
  let ready : Machine := { written with gdtr := l.gdt }
  have still : During l mem (fun _ => false) written := ⟨during.cr3, during.mem_eq, during.segs⟩
  have still' : During l mem (fun _ => false) ready := ⟨during.cr3, during.mem_eq, during.segs⟩
  obtain ⟨seg, loads, after⟩ := still'.loads_along dir placed rfl gdtLoads
    (gdtLoads_flat _ _)
  refine ⟨_, ?_, ⟨after.cr3, after.mem_eq, fun r => ?_⟩, rfl⟩
  · rw [gdtInit_eq]
    exact writes.append ⟨still.seamless dir placed, ready, rfl, loads⟩
  · have all : (gdtLoads.any fun p => p.1 = r) = true := by
      cases r <;> decide
    have segs := after.segs r
    rw [all, Bool.or_true] at segs
    exact segs

private theorem physToVirt_pgdir (placed : l.Placed size window) :
    physToVirt l.pgdir.toNat = kernelVirtBase + l.pgdir.toNat := by
  have word := kernel_word placed placed.pgdir
  rw [physToVirt, Nat.add_comm, Nat.mod_eq_of_lt word]

private theorem step_entry (placed : l.Placed size window)
    (reach : m.reach .ds (kernelVirtBase + l.pgdir.toNat) = some l.pgdir.toNat)
    (value : Mem → Word) :
    step m (.entry l.pgdir value) =
      some { m with mem := store m.mem l.pgdir 0 (value m.mem) } := by
  rw [step, physToVirt_pgdir placed, reach, Option.map_some, BitVec.ofNat_toNat,
    BitVec.setWidth_eq]

private theorem reach_new {r : Reg} {x : Nat} (on : m.cr3 = some l.pgdir) (flat : Flat (m.seg r) 0)
    (linear : ∀ v, pageSize ∣ v → kernelVirtBase ≤ v → v < kernelVirtBase + size →
      walk m.mem l.pgdir v = some (linearEntry v))
    (placed : l.Placed size window) (inside : x < size) :
    m.reach r (kernelVirtBase + x) = some x := by
  have word := kernel_word placed inside
  rw [reach_flat flat word, linear_paged on, Nat.zero_add, Nat.mod_eq_of_lt word]
  exact translate_high placed.low inside linear

private theorem Entered.startPaging_along {descs : Nat → Nat} (entered : Entered mem descs m)
    (dir : Directory l.pgdir size mem) (placed : l.Placed size window) :
    ∃ final, Along step (Seamless window) m (startPagingSteps l.gdt l.pgdir) final ∧
      final.cr3 = some l.pgdir ∧ Seamless size final ∧ final.mem = startPaging mem l.pgdir ∧
      final.descs = writeDescs (l.gdt - kernelVirtBase) descs gdtDescs := by
  let twice : Machine := { m with
    mem := store m.mem l.pgdir 0 (m.mem l.pgdir (pdeIndex kernelVirtBase)) }
  let paged : Machine := { twice with cr3 := some l.pgdir }
  have first : step m (.entry l.pgdir fun mem => mem l.pgdir (pdeIndex kernelVirtBase)) =
      some twice := step_entry placed (entered.reach placed .ds placed.pgdir) _
  have second : step twice (.enablePaging l.pgdir) = some paged := rfl
  have entered' : Entered twice.mem descs twice :=
    ⟨entered.cr3, rfl, entered.descs_eq, entered.segs⟩
  have during : During l mem (fun _ => false) paged := by
    refine ⟨rfl, ?_, entered.segs⟩
    rw [← entered.mem_eq]
  obtain ⟨n, gdt, loaded, written⟩ := during.gdtInit_along dir placed
  have reach := fun r => reach_new (x := l.pgdir.toNat) loaded.cr3 (loaded.segs r)
    (fun v => loaded.mem_eq ▸ dir.linear_store placed.low _) placed placed.pgdir
  let final : Machine := { n with mem := store n.mem l.pgdir 0 0 }
  have last : step n (.entry l.pgdir fun _ => 0) = some final := step_entry placed (reach .ds) _
  have memory : final.mem = startPaging mem l.pgdir := by
    change store n.mem l.pgdir 0 0 = _
    rw [loaded.mem_eq]
    rfl
  have whole : ∀ r x, x < size → final.reach r (kernelVirtBase + x) = some x := by
    intro r x inside
    refine reach_new loaded.cr3 (loaded.segs r) (fun v => ?_) placed inside
    rw [memory]
    exact (dir.startPaging placed.low).linear v
  have all := seamless_of_reach whole
  have some' : Seamless window final := fun r va above below =>
    all r va above (by have := placed.inside; omega)
  refine ⟨final, ?_, loaded.cr3, all, memory, written.trans (by rw [← entered.descs_eq])⟩
  have start : Along step (Seamless window) m
      [.entry l.pgdir fun mem => mem l.pgdir (pdeIndex kernelVirtBase), .enablePaging l.pgdir]
      paged :=
    ⟨entered.seamless placed, twice, first, entered'.seamless placed, paged, second,
      during.seamless dir placed, rfl⟩
  exact (start.append gdt).append ⟨loaded.seamless dir placed, final, last, some', rfl⟩

end

/-! ### Every processor -/

/-- Processors start at any time; in between the kernel maps pages outside the linear map. -/
def Permitted (l : Layout) (size : Nat) (_ : Shared) : SwitchOp → Prop
  | .first _ | .secondary _ => True
  | .kernel op => op.Allowed l.pgdir ∧ Elsewhere size op

structure Ready (l : Layout) (size : Nat) (s : Shared) : Prop where
  dir : Directory l.pgdir size s.mem
  boot : BootTable l s.descs

section
variable {l : Layout} {size window : Nat} {s t : Shared}

private theorem Ready.switch (ready : Ready l size s) (placed : l.Placed size window) (cpu : Cpu) :
    ∃ entered final, run (machine s cpu) (kernEntry l.bootGdt) = some entered ∧
      Along step (Seamless window) entered (startPagingSteps l.gdt l.pgdir) final ∧
      final.cr3 = some l.pgdir ∧ Seamless size final ∧
      final.mem = startPaging s.mem l.pgdir ∧ BootTable l final.descs := by
  obtain ⟨m, entry, entered⟩ := kernEntry_entered placed ready.boot cpu
  obtain ⟨final, along, on, all, memory, written⟩ := entered.startPaging_along ready.dir placed
  refine ⟨m, final, entry, along, on, all, memory, ?_⟩
  rw [written]
  exact gdtDescs_boot placed ready.boot

private theorem Ready.switchPaging {m : Machine} {cpu : Cpu} (ready : Ready l size s)
    (placed : l.Placed size window)
    (entry : PagingSwitch.run (machine s cpu) (kernEntry l.bootGdt) = some m)
    (eq : switchPaging l s cpu m = some t) : Ready l size t := by
  obtain ⟨m', final, entry', along, -, -, memory, boot⟩ := ready.switch placed cpu
  obtain rfl := Option.some.inj (entry.symm.trans entry')
  have rest : PagingSwitch.run m (startPagingSteps l.gdt l.pgdir) = some final := along.exec
  rw [PagingSwitch.switchPaging, rest] at eq
  obtain rfl := Option.some.inj eq
  have dir : Directory l.pgdir size final.mem := memory ▸ ready.dir.startPaging placed.low
  exact ⟨dir, boot⟩

private theorem Ready.switchOp {op : SwitchOp} (ready : Ready l size s)
    (placed : l.Placed size window)
    (ok : Permitted l size s op) (eq : switchOp l s op = some t) : Ready l size t := by
  cases op with
  | first cpu =>
    rw [PagingSwitch.switchOp] at eq
    obtain ⟨m, entry, eq⟩ := Option.bind_eq_some_iff.mp eq
    exact ready.switchPaging placed entry eq
  | secondary cpu =>
    rw [PagingSwitch.switchOp, Option.bind_eq_bind] at eq
    obtain ⟨m, entry, eq⟩ := Option.bind_eq_some_iff.mp eq
    obtain ⟨id, -, eq⟩ := Option.bind_eq_some_iff.mp eq
    split_ifs at eq
    exact ready.switchPaging placed entry eq
  | kernel op =>
    obtain ⟨mem, call, dir⟩ := ready.dir.kernelOp placed.low ok.1 ok.2
    rw [PagingSwitch.switchOp, call] at eq
    obtain rfl := Option.some.inj eq
    exact ⟨dir, ready.boot⟩

private theorem Ready.run (ready : Ready l size s) (placed : l.Placed size window)
    (run : Run (PagingSwitch.switchOp l) (Permitted l size) s t) : Ready l size t :=
  run.invariant ready fun _ _ _ here ok eq => here.switchOp placed ok eq

end

section
variable {l : Layout} {size window : Nat} {frames : List Word} {s t : MemoryState} {e820 : E820}
  {kernelEnd : Nat} {mem ram : Mem} {mm : Word} {descs : Nat → Nat}

end

end OhMyOs.Mm.PagingSwitch
