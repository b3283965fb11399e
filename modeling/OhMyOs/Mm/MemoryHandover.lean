/- GID: OhMyOs/Mm/MemoryHandover
   generality: I
   digest: Which firmware memory maps scan_memory_slot hands over soundly. -/

import Mathlib.Data.List.Pairwise
import OhMyOs.Mm.MemorySlots
import OhMyOs.Mm.PageRuns

set_option autoImplicit false
set_option relaxedAutoImplicit false

namespace OhMyOs.Mm.MemorySlots

open OhMyOs.Lib.Ring OhMyOs.Include.Bitops OhMyOs.Include.Memory OhMyOs.Mm.PageAllocator
open OhMyOs.Mm.PageRuns (InRange Ranges boot)

namespace E820Map

def isRam (map : E820Map) : Bool := map.type == e820Ram

def stop (map : E820Map) : Nat := map.addr.toNat + map.size.toNat

def Contains (map : E820Map) (b : Nat) : Prop := map.addr.toNat ≤ b ∧ b < map.stop

def range (map : E820Map) : Nat × Nat := (map.startPfn, map.endPfn)

end E820Map

def InRam (e820 : E820) (b : Nat) : Prop := ∃ map ∈ e820.map, map.isRam = true ∧ map.Contains b

def PageInRam (e820 : E820) (pfn : Nat) : Prop :=
  ∀ b, pfn * pageSize ≤ b → b < (pfn + 1) * pageSize → InRam e820 b

/-- What the boot code relies on: entries in address order without common bytes, one of which is
RAM around the end of the kernel, which is linked above `KERNEL_VIRT_BASE`. -/
structure Firmware (e820 : E820) (kernelEnd : Nat) : Prop where
  sorted : e820.map.Pairwise fun a b => a.addr.toNat ≤ b.addr.toNat
  disjoint : e820.map.Pairwise fun a b => ∀ x, ¬ (a.Contains x ∧ b.Contains x)
  addressable : ∀ map ∈ e820.map, map.stop < 2 ^ 64
  linked : kernelVirtBase ≤ kernelEnd ∧ kernelEnd < 2 ^ 32
  kernel : InRam e820 (virtToPhys kernelEnd)

/-- Every page passed to `add_free_pages` is RAM behind the kernel and has a `struct page`, and
no page is passed twice. -/
structure Sound (e820 : E820) (s : MemoryState) : Prop where
  ram : ∀ r ∈ s.added, ∀ pfn, InRange r pfn → PageInRam e820 pfn
  above : ∀ r ∈ s.added, ∀ pfn, InRange r pfn → s.kernelEndPfn ≤ pfn
  below : ∀ r ∈ s.added, ∀ pfn, InRange r pfn → pfn < totalPages
  once : s.added.Pairwise fun a b => ∀ pfn, ¬ (InRange a pfn ∧ InRange b pfn)

/-! ### Page frame numbers -/

variable {map kernel m : E820Map} {e820 : E820} {kernelEnd : Nat}

private theorem startPfn_eq (map : E820Map) : map.startPfn = map.addr.toNat % 2 ^ 32 / 4096 := by
  rw [E820Map.startPfn, physToPfn, Nat.shiftRight_eq_div_pow, pageShift]

private theorem endPfn_le (map : E820Map) :
    map.endPfn ≤ (map.addr.toNat % 2 ^ 32 + map.size.toNat) / 4096 := by
  rw [E820Map.endPfn, Nat.shiftRight_eq_div_pow, pageShift]
  omega

private theorem endPfn_eq (small : map.stop ≤ 2 ^ 44 - 1) :
    map.endPfn = (map.addr.toNat % 2 ^ 32 + map.size.toNat) / 4096 := by
  unfold E820Map.stop at small
  rw [E820Map.endPfn, Nat.shiftRight_eq_div_pow, pageShift]
  omega

private theorem startPfn_lt (map : E820Map) : map.startPfn < totalPages := by
  rw [startPfn_eq, totalPages]
  omega

private theorem size_pos_of_hands (hands : map.startPfn < map.endPfn) : 0 < map.size.toNat := by
  have last := endPfn_le map
  rw [startPfn_eq] at hands
  omega

private theorem kernelEndPfn_bounds (firmware : Firmware e820 kernelEnd) :
    virtToPhys kernelEnd ≤ physToPfn (roundUpPage (virtToPhys kernelEnd)) * 4096 ∧
      physToPfn (roundUpPage (virtToPhys kernelEnd)) ≤ totalPages ∧
        virtToPhys kernelEnd < 2 ^ 30 := by
  obtain ⟨low, high⟩ := firmware.linked
  have phys : virtToPhys kernelEnd = kernelEnd - kernelVirtBase := wsub_eq low high
  rw [phys, physToPfn, roundUpPage, roundUp, roundDown,
    Nat.shiftRight_eq_div_pow, pageShift, pageSize,
    kernelVirtBase, totalPages]
  rw [kernelVirtBase] at low
  omega

/-! ### The loops -/

private theorem scanLoop_skip {phys i : Nat} {index : Option Nat} {maps : List E820Map}
    (none : ∀ map ∈ maps, enclosesKernelEnd phys map = false) :
    scanLoop phys maps i index = index := by
  induction maps generalizing i index with
  | nil => rfl
  | cons map rest ih =>
    unfold scanLoop
    rw [if_neg (by simp [none map List.mem_cons_self])]
    exact ih fun map' member => none map' (List.mem_cons_of_mem map member)

private theorem scanLoop_append (phys i : Nat) (index : Option Nat) (before rest : List E820Map) :
    scanLoop phys (before ++ rest) i index =
      scanLoop phys rest (i + before.length) (scanLoop phys before i index) := by
  induction before generalizing i index with
  | nil => rfl
  | cons map before ih =>
    rw [List.cons_append, scanLoop, ih, scanLoop, List.length_cons]
    congr 1
    omega

def ramRanges (maps : List E820Map) : List (Nat × Nat) :=
  (maps.filter E820Map.isRam).map E820Map.range

theorem addLoop_eq (maps : List E820Map) (s : MemoryState) :
    addLoop maps s =
      { s with
        pages := (ramRanges maps).foldl (fun p r => PageAllocator.addFreePages p r.1 r.2) s.pages
        added := s.added ++ ramRanges maps } := by
  induction maps generalizing s with
  | nil => simp [addLoop, ramRanges]
  | cons map rest ih =>
    rw [addLoop, ih]
    by_cases ram : map.type = e820Ram
    · have isRam : map.isRam = true := beq_iff_eq.mpr ram
      rw [if_pos ram, ramRanges, ramRanges, List.filter_cons_of_pos isRam]
      simp [MemoryState.addFreePages, E820Map.range]
    · have notRam : ¬ map.isRam = true := fun is => ram (beq_iff_eq.mp is)
      rw [if_neg ram, ramRanges, ramRanges, List.filter_cons_of_neg notRam]

structure Around (e820 : E820) (kernelEnd : Nat) (before : List E820Map) (kernel : E820Map)
    (later : List E820Map) : Prop where
  table : e820.map = before ++ kernel :: later
  ram : kernel.isRam = true
  contains : kernel.Contains (virtToPhys kernelEnd)

def calls (kernelEnd : Nat) (kernel : E820Map) (later : List E820Map) : List (Nat × Nat) :=
  (physToPfn (roundUpPage (virtToPhys kernelEnd)), kernel.endPfn) :: ramRanges later

variable {before later : List E820Map} {s t : MemoryState}

private theorem Firmware.around (firmware : Firmware e820 kernelEnd) :
    ∃ before kernel later, Around e820 kernelEnd before kernel later := by
  obtain ⟨kernel, member, ram, contains⟩ := firmware.kernel
  obtain ⟨before, later, table⟩ := List.append_of_mem member
  exact ⟨before, kernel, later, table, ram, contains⟩

private theorem contains_of_encloses (firmware : Firmware e820 kernelEnd) (member : map ∈ e820.map)
    (encloses : enclosesKernelEnd (virtToPhys kernelEnd) map = true) :
    map.Contains (virtToPhys kernelEnd) := by
  have fits := firmware.addressable map member
  simp only [enclosesKernelEnd, Bool.and_eq_true, decide_eq_true_eq] at encloses
  rw [E820Map.stop] at fits
  rw [BitVec.toNat_add, Nat.mod_eq_of_lt fits] at encloses
  exact ⟨encloses.1.2.le, encloses.2⟩

private theorem Around.scanLoop_eq (around : Around e820 kernelEnd before kernel later)
    (firmware : Firmware e820 kernelEnd) :
    scanLoop (virtToPhys kernelEnd) e820.map 0 none =
      if kernel.addr.toNat < virtToPhys kernelEnd then some before.length else none := by
  have disjoint := firmware.disjoint
  have fits := firmware.addressable kernel (by simp [around.table])
  rw [around.table] at disjoint
  obtain ⟨-, behind, front⟩ := List.pairwise_append.mp disjoint
  have skipped : ∀ map ∈ e820.map, ¬ map.Contains (virtToPhys kernelEnd) →
      enclosesKernelEnd (virtToPhys kernelEnd) map = false := by
    intro map member outside
    by_contra encloses
    exact outside (contains_of_encloses firmware member (by simpa using encloses))
  have test : enclosesKernelEnd (virtToPhys kernelEnd) kernel =
      decide (kernel.addr.toNat < virtToPhys kernelEnd) := by
    have ram : (kernel.type == e820Ram) = true := around.ram
    have last := around.contains.2
    rw [E820Map.stop] at fits last
    rw [enclosesKernelEnd, ram, BitVec.toNat_add, Nat.mod_eq_of_lt fits]
    simp [last]
  have first : scanLoop (virtToPhys kernelEnd) before 0 none = none := by
    refine scanLoop_skip fun map member => ?_
    refine skipped map (by simp [around.table, member]) fun contains => ?_
    exact front map member kernel List.mem_cons_self _ ⟨contains, around.contains⟩
  rw [around.table, scanLoop_append, first, scanLoop, test, Nat.zero_add]
  simp only [decide_eq_true_eq]
  refine scanLoop_skip fun map member => ?_
  refine skipped map (by simp [around.table, member]) fun contains => ?_
  exact List.rel_of_pairwise_cons behind member _ ⟨around.contains, contains⟩

def scanned (s : MemoryState) (kernelEnd : Nat) (kernel : E820Map) (later : List E820Map) :
    MemoryState :=
  let kernelEndPfn := physToPfn (roundUpPage (virtToPhys kernelEnd))
  addLoop later ((setGlobals s kernelEndPfn kernel.endPfn).addFreePages kernelEndPfn kernel.endPfn)

private theorem Around.scan (around : Around e820 kernelEnd before kernel later)
    (firmware : Firmware e820 kernelEnd) (s : MemoryState) :
    scanMemorySlot s e820 kernelEnd =
      if kernel.addr.toNat < virtToPhys kernelEnd then some (scanned s kernelEnd kernel later)
      else none := by
  have found := around.scanLoop_eq firmware
  have entry : e820.map[before.length]? = some kernel := by simp [around.table]
  have rest : e820.map.drop (before.length + 1) = later := by
    rw [around.table, List.drop_append]
    simp
  split_ifs at found ⊢ with starts
  · simp only [scanMemorySlot, found, Option.bind_eq_bind, Option.bind_some, entry, rest]
    rfl
  · simp only [scanMemorySlot, found, Option.bind_eq_bind, Option.bind_none]

private theorem scanned_added (clean : s.added = []) :
    (scanned s kernelEnd kernel later).added = calls kernelEnd kernel later := by
  rw [scanned, addLoop_eq]
  simp [MemoryState.addFreePages, setGlobals, clean, calls]

private theorem scanned_kernelEndPfn :
    (scanned s kernelEnd kernel later).kernelEndPfn =
      physToPfn (roundUpPage (virtToPhys kernelEnd)) := by
  rw [scanned, addLoop_eq]
  rfl

/-! ### Which tables are handed over soundly -/

/-- An entry from 4 GB on is handed over as pages below: these are RAM that no other call names. -/
def AliasesUnused (e820 : E820) (kernel : E820Map) (later : List E820Map) (m : E820Map) : Prop :=
  ∀ pfn, InRange m.range pfn → PageInRam e820 pfn ∧ kernel.endPfn ≤ pfn ∧
    ∀ m' ∈ later, m'.isRam = true → m' ≠ m → ¬ InRange m'.range pfn

/-- The condition on a RAM entry behind the kernel's that hands over a page: it ends below 4 GB,
and the bytes of its first page that lie before it are RAM behind the kernel. -/
structure Whole (e820 : E820) (kernelEnd : Nat) (kernel : E820Map) (later : List E820Map)
    (m : E820Map) : Prop where
  above : physToPfn (roundUpPage (virtToPhys kernelEnd)) ≤ m.startPfn
  below : m.endPfn ≤ totalPages
  head : m.addr.toNat < 2 ^ 32 → ∀ b, m.startPfn * pageSize ≤ b → b < m.addr.toNat → InRam e820 b
  high : 2 ^ 32 ≤ m.addr.toNat → AliasesUnused e820 kernel later m

def Clean (e820 : E820) (kernelEnd : Nat) : Prop :=
  ∃ before kernel later, Around e820 kernelEnd before kernel later ∧
    kernel.addr.toNat < virtToPhys kernelEnd ∧ kernel.endPfn ≤ totalPages ∧
    ∀ m ∈ later, m.isRam = true → m.startPfn < m.endPfn → Whole e820 kernelEnd kernel later m

private theorem Firmware.stop_le (firmware : Firmware e820 kernelEnd) :
    e820.map.Pairwise fun a b => 0 < b.size.toNat → a.stop ≤ b.addr.toNat := by
  refine (firmware.sorted.and firmware.disjoint).imp ?_
  rintro a b ⟨sorted, disjoint⟩ nonempty
  by_contra overlap
  refine disjoint b.addr.toNat ⟨⟨sorted, by omega⟩, le_rfl, ?_⟩
  rw [E820Map.stop]
  omega

private theorem Around.stop_le (around : Around e820 kernelEnd before kernel later)
    (firmware : Firmware e820 kernelEnd) :
    (∀ m ∈ before, m.stop ≤ kernel.addr.toNat) ∧
      (∀ m ∈ later, 0 < m.size.toNat → kernel.stop ≤ m.addr.toNat) ∧
      later.Pairwise fun a b => 0 < b.size.toNat → a.stop ≤ b.addr.toNat := by
  have order := firmware.stop_le
  rw [around.table] at order
  obtain ⟨-, behind, front⟩ := List.pairwise_append.mp order
  obtain ⟨first, rest⟩ := List.pairwise_cons.mp behind
  have nonempty : 0 < kernel.size.toNat := by
    have inside := around.contains
    rw [E820Map.Contains, E820Map.stop] at inside
    omega
  exact ⟨fun m member => front m member kernel List.mem_cons_self nonempty, first, rest⟩

private theorem kernel_page_inRam (around : Around e820 kernelEnd before kernel later)
    (firmware : Firmware e820 kernelEnd)
    (starts : kernel.addr.toNat < virtToPhys kernelEnd) {pfn : Nat}
    (inside : InRange (physToPfn (roundUpPage (virtToPhys kernelEnd)), kernel.endPfn) pfn) :
    PageInRam e820 pfn := by
  intro b low high
  obtain ⟨lower, upper⟩ := inside
  obtain ⟨rounded, -, -⟩ := kernelEndPfn_bounds firmware
  have last := endPfn_le kernel
  refine ⟨kernel, by simp [around.table], around.ram, ?_⟩
  rw [E820Map.Contains, E820Map.stop]
  rw [pageSize] at low high
  simp only at lower upper
  omega

private theorem later_page_inRam (member : m ∈ e820.map) (ram : m.isRam = true)
    (low : m.addr.toNat < 2 ^ 32)
    (head : ∀ b, m.startPfn * pageSize ≤ b → b < m.addr.toNat → InRam e820 b) {pfn : Nat}
    (inside : InRange m.range pfn) : PageInRam e820 pfn := by
  intro b first last
  obtain ⟨lower, upper⟩ := inside
  have stop := endPfn_le m
  simp only [E820Map.range] at lower upper
  by_cases before : b < m.addr.toNat
  · refine head b ?_ before
    exact (Nat.mul_le_mul_right pageSize lower).trans first
  · refine ⟨m, member, ram, ?_⟩
    rw [E820Map.Contains, E820Map.stop]
    rw [pageSize] at last
    omega

private theorem endPfn_le_startPfn {a b : E820Map} (order : a.stop ≤ b.addr.toNat)
    (low : b.addr.toNat < 2 ^ 32) : a.endPfn ≤ b.startPfn := by
  have stop := endPfn_le a
  rw [E820Map.stop] at order
  rw [startPfn_eq]
  omega

private theorem mem_calls {r : Nat × Nat} (member : r ∈ calls kernelEnd kernel later) :
    r = (physToPfn (roundUpPage (virtToPhys kernelEnd)), kernel.endPfn) ∨
      ∃ m ∈ later, m.isRam = true ∧ r = m.range := by
  rcases List.mem_cons.mp member with first | rest
  · exact .inl first
  · obtain ⟨m, kept, eq⟩ := List.mem_map.mp rest
    obtain ⟨inLater, ram⟩ := List.mem_filter.mp kept
    exact .inr ⟨m, inLater, ram, eq.symm⟩

private theorem range_mem_calls (member : m ∈ later) (ram : m.isRam = true) :
    m.range ∈ calls kernelEnd kernel later :=
  List.mem_cons_of_mem _ (List.mem_map_of_mem (List.mem_filter.mpr ⟨member, ram⟩))

private theorem calls_once (around : Around e820 kernelEnd before kernel later)
    (firmware : Firmware e820 kernelEnd)
    (whole : ∀ m ∈ later, m.isRam = true → m.startPfn < m.endPfn →
      Whole e820 kernelEnd kernel later m) :
    (calls kernelEnd kernel later).Pairwise fun a b =>
      ∀ pfn, ¬ (InRange a pfn ∧ InRange b pfn) := by
  obtain ⟨-, behind, order⟩ := around.stop_le firmware
  refine List.pairwise_cons.mpr ⟨?_, ?_⟩
  · intro r member pfn both
    obtain ⟨m, kept, rfl⟩ := List.mem_map.mp member
    obtain ⟨inLater, ram⟩ := List.mem_filter.mp kept
    obtain ⟨⟨-, first⟩, second⟩ := both
    have hands : m.startPfn < m.endPfn := second.1.trans_lt second.2
    have ok := whole m inLater ram hands
    by_cases low : m.addr.toNat < 2 ^ 32
    · have apart := endPfn_le_startPfn (behind m inLater (size_pos_of_hands hands)) low
      have start : m.startPfn ≤ pfn := second.1
      simp only at first
      omega
    · obtain ⟨-, outside, -⟩ := ok.high (by omega) pfn second
      simp only at first
      omega
  · refine List.pairwise_map.mpr ?_
    refine (List.Pairwise.and_mem.mp (order.filter E820Map.isRam)).imp ?_
    rintro a b ⟨inA, inB, ordered⟩ pfn ⟨first, second⟩
    obtain ⟨laterA, ramA⟩ := List.mem_filter.mp inA
    obtain ⟨laterB, ramB⟩ := List.mem_filter.mp inB
    have handsA : a.startPfn < a.endPfn := first.1.trans_lt first.2
    have handsB : b.startPfn < b.endPfn := second.1.trans_lt second.2
    have stop := ordered (size_pos_of_hands handsB)
    have differ : b ≠ a := by
      rintro rfl
      have nonempty := size_pos_of_hands handsA
      rw [E820Map.stop] at stop
      omega
    by_cases low : b.addr.toNat < 2 ^ 32
    · have apart := endPfn_le_startPfn stop low
      have upper : pfn < a.endPfn := first.2
      have lower : b.startPfn ≤ pfn := second.1
      omega
    · exact ((whole b laterB ramB handsB).high (by omega) pfn second).2.2
        a laterA ramA differ.symm first

private theorem sound_of_whole (around : Around e820 kernelEnd before kernel later)
    (firmware : Firmware e820 kernelEnd) (starts : kernel.addr.toNat < virtToPhys kernelEnd)
    (ends : kernel.endPfn ≤ totalPages)
    (whole : ∀ m ∈ later, m.isRam = true → m.startPfn < m.endPfn →
      Whole e820 kernelEnd kernel later m)
    (added : t.added = calls kernelEnd kernel later)
    (kernelEndPfn : t.kernelEndPfn = physToPfn (roundUpPage (virtToPhys kernelEnd))) :
    Sound e820 t := by
  have entry : ∀ m ∈ later, m ∈ e820.map := fun m member => by simp [around.table, member]
  refine ⟨?_, ?_, ?_, added ▸ calls_once around firmware whole⟩
  · intro r member pfn inside
    rcases mem_calls (added ▸ member) with rfl | ⟨m, inLater, ram, rfl⟩
    · exact kernel_page_inRam around firmware starts inside
    · have ok := whole m inLater ram (inside.1.trans_lt inside.2)
      by_cases low : m.addr.toNat < 2 ^ 32
      · exact later_page_inRam (entry m inLater) ram low (ok.head low) inside
      · exact (ok.high (by omega) pfn inside).1
  · intro r member pfn inside
    rw [kernelEndPfn]
    rcases mem_calls (added ▸ member) with rfl | ⟨m, inLater, ram, rfl⟩
    · exact inside.1
    · exact (whole m inLater ram (inside.1.trans_lt inside.2)).above.trans inside.1
  · intro r member pfn inside
    rcases mem_calls (added ▸ member) with rfl | ⟨m, inLater, ram, rfl⟩
    · exact inside.2.trans_le ends
    · exact inside.2.trans_le (whole m inLater ram (inside.1.trans_lt inside.2)).below

private theorem whole_of_sound (sound : Sound e820 t)
    (added : t.added = calls kernelEnd kernel later)
    (kernelEndPfn : t.kernelEndPfn = physToPfn (roundUpPage (virtToPhys kernelEnd)))
    (member : m ∈ later) (ram : m.isRam = true) (hands : m.startPfn < m.endPfn) :
    Whole e820 kernelEnd kernel later m := by
  have call : m.range ∈ t.added := added ▸ range_mem_calls member ram
  have first : InRange m.range m.startPfn := ⟨le_rfl, hands⟩
  have last : InRange m.range (m.endPfn - 1) := by
    rw [InRange, E820Map.range]
    omega
  refine ⟨kernelEndPfn ▸ sound.above _ call _ first, ?_, ?_, ?_⟩
  · have below := sound.below _ call _ last
    omega
  · intro low b lower upper
    refine sound.ram _ call _ first b lower ?_
    rw [startPfn_eq] at lower ⊢
    rw [pageSize] at lower ⊢
    omega
  · intro high pfn inside
    have once := sound.once
    rw [added, calls, List.pairwise_cons] at once
    obtain ⟨withKernel, pairwise⟩ := once
    refine ⟨sound.ram _ call pfn inside, ?_, ?_⟩
    · have above := sound.above _ call pfn inside
      by_contra outside
      refine withKernel m.range ?_ pfn ⟨⟨kernelEndPfn ▸ above, ?_⟩, inside⟩
      · exact List.mem_map_of_mem (List.mem_filter.mpr ⟨member, ram⟩)
      · exact Nat.lt_of_not_le outside
    · intro m' member' ram' differ inside'
      have symmetric : Std.Symm fun a b : E820Map =>
          ∀ pfn, ¬ (InRange a.range pfn ∧ InRange b.range pfn) :=
        ⟨fun a b apart pfn both => apart pfn both.symm⟩
      exact (List.pairwise_map.mp pairwise).forall (List.mem_filter.mpr ⟨member', ram'⟩)
        (List.mem_filter.mpr ⟨member, ram⟩) differ pfn ⟨inside', inside⟩

/-- The scan finds the kernel's entry and hands over sound ranges exactly for the clean tables. -/
theorem scanMemorySlot_sound_iff (e820 : E820) (kernelEnd : Nat)
    (firmware : Firmware e820 kernelEnd) (s : MemoryState) (clean : s.added = []) :
    (∃ t, scanMemorySlot s e820 kernelEnd = some t ∧ Sound e820 t) ↔ Clean e820 kernelEnd := by
  constructor
  · rintro ⟨t, scan, sound⟩
    obtain ⟨before, kernel, later, around⟩ := firmware.around
    rw [around.scan firmware] at scan
    split_ifs at scan with starts
    obtain rfl := Option.some.inj scan
    have added : (scanned s kernelEnd kernel later).added = calls kernelEnd kernel later :=
      scanned_added clean
    refine ⟨before, kernel, later, around, starts, ?_, fun m member ram hands =>
      whole_of_sound sound added scanned_kernelEndPfn member ram hands⟩
    obtain ⟨-, low, -⟩ := kernelEndPfn_bounds firmware
    by_contra beyond
    have call : (physToPfn (roundUpPage (virtToPhys kernelEnd)), kernel.endPfn) ∈
        (scanned s kernelEnd kernel later).added := added ▸ List.mem_cons_self
    exact Nat.lt_irrefl _ (sound.below _ call totalPages ⟨low, Nat.lt_of_not_le beyond⟩)
  · rintro ⟨before, kernel, later, around, starts, ends, whole⟩
    refine ⟨scanned s kernelEnd kernel later, ?_, ?_⟩
    · rw [around.scan firmware, if_pos starts]
    · exact sound_of_whole around firmware starts ends whole (scanned_added clean)
        scanned_kernelEndPfn

def sampleTable : E820 where
  map :=
    [⟨0, 0x9FC00, 1⟩, ⟨0x9FC00, 0x60400, 2⟩, ⟨0x100000, 0x7EE0000, 1⟩, ⟨0x7FE0000, 0x20000, 2⟩,
      ⟨0x8000000, 0x400800, 1⟩]
  fits := by decide

def unscanned : MemoryState := ⟨0, 0, 0, 0, 0, pageInit ⟨id, id⟩ 0, []⟩

theorem Firmware.of_order (order : e820.map.Pairwise fun a b => a.stop ≤ b.addr.toNat)
    (addressable : ∀ map ∈ e820.map, map.stop < 2 ^ 64)
    (linked : kernelVirtBase ≤ kernelEnd ∧ kernelEnd < 2 ^ 32)
    (kernel : InRam e820 (virtToPhys kernelEnd)) : Firmware e820 kernelEnd := by
  refine ⟨order.imp fun {a b} le => ?_,
    order.imp fun {a b} le x both => ?_, addressable, linked, kernel⟩
  · rw [E820Map.stop] at le
    omega
  · have last := both.1.2
    have first := both.2.1
    omega

private theorem sampleTable_firmware : Firmware sampleTable 0xC0400000 :=
  .of_order (by decide) (by decide) (by decide)
    ⟨⟨0x100000, 0x7EE0000, 1⟩, by decide, by decide, by decide, by decide⟩

/-- The rest of the kernel's entry and the RAM behind the hole are handed over. -/
theorem scanMemorySlot_sound_sample :
    ∃ t, scanMemorySlot unscanned sampleTable 0xC0400000 = some t ∧ Sound sampleTable t := by
  refine (scanMemorySlot_sound_iff sampleTable 0xC0400000 sampleTable_firmware unscanned rfl).mpr ?_
  refine ⟨[⟨0, 0x9FC00, 1⟩, ⟨0x9FC00, 0x60400, 2⟩], ⟨0x100000, 0x7EE0000, 1⟩,
    [⟨0x7FE0000, 0x20000, 2⟩, ⟨0x8000000, 0x400800, 1⟩], ⟨rfl, by decide, by decide, by decide⟩,
    by decide, by decide, ?_⟩
  intro m member ram hands
  obtain rfl : m = ⟨0x8000000, 0x400800, 1⟩ := by
    rcases List.mem_cons.mp member with rfl | member
    · cases ram
    · exact List.mem_singleton.mp member
  refine ⟨by decide, by decide, fun _ b low high => ?_, fun high => absurd high (by decide)⟩
  have start : E820Map.startPfn ⟨0x8000000, 0x400800, 1⟩ * pageSize = 0x8000000 := by decide
  have first : (0x8000000 : BitVec 64).toNat = 0x8000000 := by decide
  simp only [start, first] at low high
  omega

def fourGigabytes : E820 where
  map := [⟨0, 0x9FC00, 1⟩, ⟨0x100000, 0xBFEE0000, 1⟩, ⟨0x100000000, 0x40000000, 1⟩]
  fits := by decide

private theorem fourGigabytes_firmware : Firmware fourGigabytes 0xC0400000 :=
  .of_order (by decide) (by decide) (by decide)
    ⟨⟨0x100000, 0xBFEE0000, 1⟩, by decide, by decide, by decide, by decide⟩

/-- The RAM above 4 GB is handed over as the pages from 0 on, where the kernel is. -/
theorem scanMemorySlot_unsound_above_4g :
    ¬ ∀ e820 kernelEnd, Firmware e820 kernelEnd → ∀ s : MemoryState, s.added = [] →
      ∃ t, scanMemorySlot s e820 kernelEnd = some t ∧ Sound e820 t := by
  intro claim
  obtain ⟨t, scan, sound⟩ := claim fourGigabytes 0xC0400000 fourGigabytes_firmware unscanned rfl
  have result : (scanMemorySlot unscanned fourGigabytes 0xC0400000).map
      (fun t => (t.kernelEndPfn, t.added)) = some (0x400, [(0x400, 0xBFFE0), (0, 0x40000)]) := by
    decide +kernel
  rw [scan] at result
  obtain ⟨kernelEndPfn, added⟩ := Prod.mk.inj (Option.some.inj result)
  have above := sound.above (0, 0x40000) (by rw [added]; decide) 0 ⟨le_rfl, by decide⟩
  rw [kernelEndPfn] at above
  cases above

/-! ### RAM below 16 TB -/

private theorem ram_page_handed (around : Around e820 kernelEnd before kernel later)
    (firmware : Firmware e820 kernelEnd) (small : ∀ m ∈ e820.map, m.stop ≤ 2 ^ 44 - 1) {pfn : Nat}
    (above : physToPfn (roundUpPage (virtToPhys kernelEnd)) ≤ pfn) (below : pfn < totalPages)
    (ram : PageInRam e820 pfn) :
    InRange (physToPfn (roundUpPage (virtToPhys kernelEnd)), kernel.endPfn) pfn ∨
      ∃ m ∈ later, m.isRam = true ∧ m.addr.toNat < 2 ^ 32 ∧ InRange m.range pfn := by
  -- The entry that has the last byte of the page.
  obtain ⟨m, member, isRam, first, last⟩ := ram (pfn * 4096 + 4095)
    (by rw [pageSize]; omega) (by rw [pageSize]; omega)
  have pfnEnd := endPfn_eq (small m member)
  obtain ⟨rounded, -, low⟩ := kernelEndPfn_bounds firmware
  obtain ⟨front, -, -⟩ := around.stop_le firmware
  have inside := around.contains.1
  rw [totalPages] at below
  rw [around.table] at member
  rcases List.mem_append.mp member with early | rest
  · have stop := front m early
    omega
  · rw [E820Map.stop] at last
    rcases List.mem_cons.mp rest with rfl | late
    · left
      refine ⟨above, ?_⟩
      simp only
      omega
    · right
      refine ⟨m, late, isRam, by omega, ?_⟩
      rw [InRange, E820Map.range, startPfn_eq]
      simp only
      omega

private theorem Whole.low (around : Around e820 kernelEnd before kernel later)
    (firmware : Firmware e820 kernelEnd) (small : ∀ m ∈ e820.map, m.stop ≤ 2 ^ 44 - 1)
    (hands : m.startPfn < m.endPfn) (whole : Whole e820 kernelEnd kernel later m) :
    m.addr.toNat < 2 ^ 32 := by
  by_contra high
  have first : InRange m.range m.startPfn := ⟨le_rfl, hands⟩
  obtain ⟨ram, behind, unused⟩ := whole.high (by omega) m.startPfn first
  rcases ram_page_handed around firmware small whole.above (startPfn_lt m) ram with inKernel | other
  · exact absurd inKernel.2 (Nat.not_lt.mpr behind)
  · obtain ⟨m', member, isRam, low, inside⟩ := other
    refine unused m' member isRam ?_ inside
    rintro rfl
    exact high low

/-! ### The page allocator after the scan -/

/-- After `page_init` and a sound scan whose ranges are not reversed, the page allocator starts
with the invariant of its runs, over the pages handed over. -/
theorem scanMemorySlot_boots {links : Links (Zone × Nat) Nat} {highmem : Nat}
    (firmware : Firmware e820 kernelEnd) (clean : s.added = [])
    (booted : s.pages = pageInit links highmem) (scan : scanMemorySlot s e820 kernelEnd = some t)
    (sound : Sound e820 t) (ordered : ∀ r ∈ t.added, r.1 ≤ r.2) :
    PageRuns.PageInv (PageRuns.added t.added) ⟨t.pages, []⟩ := by
  obtain ⟨before, kernel, later, around⟩ := firmware.around
  rw [around.scan firmware] at scan
  split_ifs at scan
  obtain rfl := Option.some.inj scan
  have added : (scanned s kernelEnd kernel later).added = calls kernelEnd kernel later :=
    scanned_added clean
  have pages : (scanned s kernelEnd kernel later).pages =
      (boot links (physToPfn physHighmemStart) (calls kernelEnd kernel later)).state := by
    rw [scanned, addLoop_eq]
    simp only [MemoryState.addFreePages, setGlobals, booted]
    rfl
  have ranges : Ranges (calls kernelEnd kernel later) := by
    refine ⟨fun r member => ⟨ordered r (added ▸ member), ?_⟩, added ▸ sound.once⟩
    by_cases empty : r.1 = r.2
    · rw [← empty]
      rcases mem_calls member with rfl | ⟨m, -, -, rfl⟩
      · exact (kernelEndPfn_bounds firmware).2.1
      · exact (startPfn_lt m).le
    · have order := ordered r (added ▸ member)
      have last := sound.below r (added ▸ member) (r.2 - 1) ⟨by omega, by omega⟩
      omega
  rw [pages, added]
  exact PageRuns.boot_inv links (physToPfn physHighmemStart) ranges

end OhMyOs.Mm.MemorySlots
