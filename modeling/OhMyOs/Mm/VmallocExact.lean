/- GID: OhMyOs/Mm/VmallocExact
   generality: I
   digest: What alloc_vma delivers, and what it leaves behind when it cannot deliver. -/

import OhMyOs.Mm.VmallocRuns

set_option autoImplicit false
set_option relaxedAutoImplicit false

namespace OhMyOs.Mm.VmallocExact

open OhMyOs.Lib.Ring OhMyOs.Lib.Outcome OhMyOs.Lib.Runs
open OhMyOs.Include.IntrusiveList OhMyOs.Include.Bitops OhMyOs.Include.Memory OhMyOs.Include.Log2
open OhMyOs.Libs.RedBlackTree (RbTree Ptr Addr)
open OhMyOs.Mm.Vmalloc OhMyOs.Mm.VmallocSafety OhMyOs.Mm.VmallocRuns

variable {s : VmState} {areas : List Nat} {f : Nat → List Nat} {len vma : Nat} {a : Addr}
  {garbage vmaBuddy : Option Nat} {newNode : Ptr}

/-! ### Delivering an area -/

/-- `vma_list` holds `areas` and the free lists hold `f`: the areas tile the vmalloc range, those
marked free are on the list of the logarithm of their page count, and the others in the tree. -/
structure Represents (s : VmState) (areas : List Nat) (f : Nat → List Nat) : Prop where
  tiled : Tiled s areas
  rings : Rings s.freeVmaLists {k | k ≤ maxVmaOrder} f
  free_iff : ∀ u, (u ∈ areas ∧ (s.area u).free = true) ↔ ∃ k ≤ maxVmaOrder, u ∈ f k
  pageCount : ∀ k ≤ maxVmaOrder, ∀ u ∈ f k, ∃ n, vmaLength s u = n * pageSize ∧ ilog2 n = k
  mapped : Mapped s fun u => u ∈ areas ∧ (s.area u).free = false

private theorem pages_shiftRight (n : Nat) : (n * pageSize) >>> pageShift = n := by
  rw [Nat.shiftRight_eq_div_pow]
  exact Nat.mul_div_cancel n (by decide)

private theorem Represents.filed (rep : Represents s areas f) : Filed s areas f := by
  refine ⟨rep.rings, rep.free_iff, fun k low u mem => ?_⟩
  obtain ⟨n, length, order⟩ := rep.pageCount k low u mem
  rw [length, pages_shiftRight, order]

private theorem Represents.whole (rep : Represents s areas f) : Whole s f := by
  intro k low u mem
  obtain ⟨n, length, -⟩ := rep.pageCount k low u mem
  exact ⟨n, by rw [length, Nat.mul_comm]⟩

private theorem represents_of_whole (tiled : Tiled s areas) (filed : Filed s areas f)
    (whole : Whole s f)
    (mapped : Mapped s fun u => u ∈ areas ∧ (s.area u).free = false) : Represents s areas f := by
  refine ⟨tiled, filed.rings, filed.free_iff, fun k low u mem => ?_, mapped⟩
  obtain ⟨n, length⟩ := whole k low u mem
  rw [Nat.mul_comm] at length
  refine ⟨n, length, ?_⟩
  rw [← filed.order k low u mem, length, pages_shiftRight]

private theorem findOrder_of_mem {order i : Nat}
    (rings : Rings s.freeVmaLists {k | k ≤ maxVmaOrder} f)
    (above : order ≤ i) (small : i ≤ maxVmaOrder) (filled : f i ≠ []) :
    ∃ j, findOrder s order = some j := by
  apply Option.isSome_iff_exists.mp
  rw [findOrder, List.find?_isSome]
  refine ⟨i, List.mem_range'_1.mpr ⟨above, by omega⟩, ?_⟩
  have heads : i ∈ {k | k ≤ maxVmaOrder} := small
  have nonempty := mt (listEmpty_iff rings heads).mp filled
  simpa using nonempty

/-- What the caller of `alloc_vma` gets: `len` bytes at the low end of an area that was free, and
those bytes are the only ones that change hands. -/
structure Carved (s s' : VmState) (areas areas' : List Nat) (vma len : Nat) : Prop where
  wasFree : vma ∈ areas ∧ (s.area vma).free = true
  inUse : vma ∈ areas' ∧ (s'.area vma).free = false
  start : (s'.area vma).start = (s.area vma).start
  stop : (s'.area vma).stop = (s.area vma).start + len
  inside : (s.area vma).start + len ≤ (s.area vma).stop
  free : bytes s' areas' true =
    bytes s areas true \ Set.Ico (s.area vma).start ((s.area vma).start + len)
  used : bytes s' areas' false =
    bytes s areas false ∪ Set.Ico (s.area vma).start ((s.area vma).start + len)

/-- `alloc_vma` keeps the representation invariant, whatever the length in pages. -/
theorem allocVma_represents (idle : Idle s) (rep : Represents s areas f) (positive : 0 < len)
    (pages : pageSize ∣ len) (fits : len < 2 ^ 32)
    (filled : ∃ i, ilog2Roundup (len / pageSize) ≤ i ∧ i ≤ maxVmaOrder ∧ f i ≠ [])
    (garbage : Option Nat) {vmaBuddy : Nat} (fresh : vmaBuddy ∉ areas)
    (freshNode : ∀ tree, s.vmaTree = some tree → tree.heap a = none) :
    ∃ s' vma areas' f', allocVma s len garbage (some vmaBuddy) (some a) = .ok (s', some vma) ∧
      Carved s s' areas areas' vma len ∧ Represents s' areas' f' ∧ Idle s' := by
  obtain ⟨i, above, small, filled⟩ := filled
  have shift : len >>> pageShift = len / pageSize := Nat.shiftRight_eq_div_pow len pageShift
  rw [← shift] at above
  obtain ⟨j, found⟩ := findOrder_of_mem rep.rings above small filled
  obtain ⟨⟨s', result⟩, call, vma, areas', f', rfl, wasFree, start, below, -, delivered, exactly⟩ :=
    allocVma_delivers idle rep.tiled rep.filed rep.mapped positive pages fits found garbage fresh
      freshNode
  obtain ⟨whole, stop⟩ := exactly rep.whole
  have free := delivered.free
  have used := delivered.used
  rw [start, stop] at free used
  exact ⟨s', vma, areas', f', call, ⟨wasFree, ⟨delivered.member, delivered.inUse⟩, start, stop,
    stop ▸ below, free, used⟩, represents_of_whole delivered.tiled delivered.filed whole
      delivered.mapped, delivered.idle⟩

/-! ### Failing -/

/-- The area that `alloc_vma` looks at: the first on the first list of sufficient order. -/
def chosenVma (s : VmState) (len : Nat) : Option Nat := do
  let i ← findOrder s (ilog2Roundup (len >>> pageShift))
  containerOf (listNext s.freeVmaLists (.head i))

def Exhausted (s : VmState) (len : Nat) : Prop :=
  findOrder s (ilog2Roundup (len >>> pageShift)) = none

def Found (s : VmState) (len vma : Nat) : Prop :=
  chosenVma s len = some vma ∧ (s.area vma).free = true ∧ len ≤ vmaLength s vma

/-- The area found is to be split, and there is no memory for the rest. -/
def SplitFails (s : VmState) (len : Nat) (vmaBuddy : Option Nat) : Prop :=
  ∃ vma, Found s len vma ∧ (len + pageSize) % 2 ^ 32 ≤ vmaLength s vma ∧ vmaBuddy = none

/-- The call goes on to `rb_tree_insert`, and there is no memory for the tree node. -/
def TreeFails (s : VmState) (len : Nat) (vmaBuddy : Option Nat) (newNode : Ptr) : Prop :=
  ∃ vma, Found s len vma ∧ ((len + pageSize) % 2 ^ 32 ≤ vmaLength s vma → vmaBuddy ≠ none) ∧
    newNode = none

def CannotDeliver (s : VmState) (len : Nat) (vmaBuddy : Option Nat) (newNode : Ptr) : Prop :=
  Exhausted s len ∨ SplitFails s len vmaBuddy ∨ TreeFails s len vmaBuddy newNode

/-- The call returns NULL and leaves the areas, both kinds of lists and the tree as they were. -/
def FailsCleanly (s : VmState) (len : Nat) (garbage vmaBuddy : Option Nat) (newNode : Ptr) : Prop :=
  ∃ s', allocVma s len garbage vmaBuddy newNode = .ok (s', none) ∧ s'.area = s.area ∧
    s'.vmaList = s.vmaList ∧ s'.freeVmaLists = s.freeVmaLists ∧ s'.vmaTree = s.vmaTree

private theorem Found.call (found : Found s len vma) (unlocked : s.vmaLock = false)
    (garbage vmaBuddy : Option Nat) (newNode : Ptr) :
    allocVma s len garbage vmaBuddy newNode =
      if (len + pageSize) % 2 ^ 32 ≤ vmaLength s vma then
        match vmaBuddy with
        | none => .ok (s, none)
        | some vmaBuddy => splitVma { s with vmaLock := true } vma vmaBuddy len >>= fun s =>
            takeVma s vma newNode >>= fun s => .ok (s.spinUnlock, some vma)
      else
        takeVma { s with vmaLock := true } vma newNode >>=
          fun s => .ok (s.spinUnlock, some vma) := by
  obtain ⟨chosen, free, long⟩ := found
  obtain ⟨i, order, next⟩ := Option.bind_eq_some_iff.mp chosen
  exact allocVma_found garbage vmaBuddy newNode unlocked order next free long

private theorem Exhausted.cleanly_iff (exhausted : Exhausted s len) (unlocked : s.vmaLock = false) :
    FailsCleanly s len garbage vmaBuddy newNode ↔ garbage = none := by
  have locked : findOrder { s with vmaLock := true } (ilog2Roundup (len >>> pageShift)) = none :=
    exhausted
  have call : allocVma s len garbage vmaBuddy newNode =
      .ok ({ s with vmaLock := true }.spinUnlock, garbage) := by
    simp only [allocVma, spinLock_eq unlocked, ok_bind, locked, pure_eq_ok]
  rw [FailsCleanly, call]
  constructor
  · rintro ⟨s', eq, -⟩
    exact congrArg Prod.snd (Except.ok.inj eq)
  · rintro rfl
    exact ⟨_, rfl, rfl, rfl, rfl, rfl⟩

private theorem SplitFails.cleanly (fails : SplitFails s len vmaBuddy)
    (unlocked : s.vmaLock = false) :
    FailsCleanly s len garbage vmaBuddy newNode := by
  obtain ⟨vma, found, long, rfl⟩ := fails
  refine ⟨s, ?_, rfl, rfl, rfl, rfl⟩
  rw [found.call unlocked, if_pos long]

private theorem takeVma_not_none {s' : VmState} :
    (takeVma s vma newNode >>= fun s => .ok (s.spinUnlock, some vma)) ≠ .ok (s', none) := by
  intro done
  obtain ⟨s1, -, eq⟩ := bind_eq_ok done
  cases eq

private theorem TreeFails.not_cleanly (fails : TreeFails s len vmaBuddy newNode)
    (unlocked : s.vmaLock = false) : ¬ FailsCleanly s len garbage vmaBuddy newNode := by
  obtain ⟨vma, found, memory, -⟩ := fails
  rintro ⟨s', done, -⟩
  rw [found.call unlocked] at done
  split at done
  · rename_i long
    obtain ⟨buddy, rfl⟩ := Option.ne_none_iff_exists'.mp (memory long)
    obtain ⟨s1, -, done⟩ := bind_eq_ok done
    exact takeVma_not_none done
  · exact takeVma_not_none done

private theorem Exhausted.not_found (exhausted : Exhausted s len) : ¬ Found s len vma := by
  rintro ⟨chosen, -⟩
  rw [chosenVma, show findOrder s _ = none from exhausted] at chosen
  cases chosen

/-- Of the three ways to fail only the missing memory for the rest of the area is handled; an
exhausted search is harmless when the variable holds NULL by chance. -/
theorem allocVma_cleanly_iff (unlocked : s.vmaLock = false)
    (fails : CannotDeliver s len vmaBuddy newNode) :
    FailsCleanly s len garbage vmaBuddy newNode ↔
      SplitFails s len vmaBuddy ∨ (Exhausted s len ∧ garbage = none) := by
  rcases fails with exhausted | split | tree
  · rw [exhausted.cleanly_iff unlocked]
    constructor
    · exact fun null => .inr ⟨exhausted, null⟩
    · rintro (⟨vma, found, -⟩ | ⟨-, null⟩)
      · exact absurd found exhausted.not_found
      · exact null
  · exact iff_of_true (split.cleanly unlocked) (.inl split)
  · refine iff_of_false (tree.not_cleanly unlocked) ?_
    obtain ⟨vma, found, memory, -⟩ := tree
    rintro (⟨vma', found', long, none⟩ | ⟨exhausted, -⟩)
    · obtain rfl := Option.some.inj (found.1.symm.trans found'.1)
      exact memory long none
    · exact exhausted.not_found found

/-! ### The orders of areas and requests -/

/-- The logarithms are exact for every word: `fls` is the number of bits, and the two roundings are
the least exponent not below and the greatest not above. So whatever is filed by the one and looked
for by the other is large enough, in particular the areas on the free lists. -/
theorem orders_exact (x : Nat) (word : x < 2 ^ 32) :
    fls x = x.size ∧ (0 < x → 2 ^ (fls x - 1) ≤ x ∧ x < 2 ^ fls x) ∧
      (1 ≤ x → IsLeast {k | x ≤ 2 ^ k} (ilog2Roundup x) ∧
        IsGreatest {k | 2 ^ k ≤ x} (ilog2Rounddown x)) ∧
      (∀ n, 1 ≤ n → n < 2 ^ 32 → ilog2Roundup x ≤ ilog2Rounddown n → x ≤ n) ∧
        ∀ (s : VmState) (areas : List Nat) (f : Nat → List Nat), Filed s areas f →
          ∀ k ≤ maxVmaOrder, ilog2Roundup x ≤ k → ∀ u ∈ f k, x ≤ vmaLength s u >>> pageShift := by
  refine ⟨fls_eq_size word, fun positive => ?_, fun positive => ?_, fun n positive fits order => ?_,
    fun s areas f filed k small order u listed => ?_⟩
  · obtain ⟨k, value, low, high⟩ := fls_bounds positive word
    rw [value]
    exact ⟨low, high⟩
  · exact ⟨ilog2Roundup_isLeast word.le, ilog2Rounddown_isGreatest positive word⟩
  · exact le_of_ilog2Roundup_le word.le positive fits order
  · exact le_pages_of_order filed word.le order small listed

/-! ### After `vmalloc_init` -/

private theorem booted : ∃ s f, Reachable s ∧ Idle s ∧ Represents s [100] f ∧ f 19 ≠ [] ∧
    Exhausted s 0x80001000 ∧ Found s pageSize 100 ∧
      (pageSize + pageSize) % 2 ^ 32 ≤ vmaLength s 100 ∧
        s.vmaTree = some ⟨fun _ => none, 0, none⟩ := by
  obtain ⟨s, boot, ⟨areas, f, tiled, filed, mapped⟩, idle, only⟩ := vmallocInit_wellFormed blank 100
  obtain rfl := only.unique tiled
  have state : ∃ s, vmallocInit blank (some 100) true = .ok s ∧
      (s.area 100).free = true ∧ vmaLength s 100 = 0xBFFFF * pageSize ∧ Exhausted s 0x80001000 ∧
        chosenVma s pageSize = some 100 ∧ s.vmaTree = some ⟨fun _ => none, 0, none⟩ :=
    ⟨_, rfl, by decide, by decide, by unfold Exhausted; decide, by decide, rfl⟩
  obtain ⟨s', boot', free, length, exhausted, chosen, tree⟩ := state
  obtain rfl := Except.ok.inj (boot.symm.trans boot')
  have whole : Whole s f := by
    intro k low u mem
    obtain ⟨inAreas, -⟩ := (filed.free_iff u).mpr ⟨k, low, mem⟩
    rw [List.mem_singleton.mp inAreas, length]
    exact Nat.dvd_mul_left _ _
  have listed : f 19 ≠ [] := by
    obtain ⟨k, low, mem⟩ := (filed.free_iff 100).mp ⟨List.mem_singleton.mpr rfl, free⟩
    have order := filed.order k low 100 mem
    rw [length] at order
    obtain rfl : 19 = k := by
      rw [← order]
      decide
    exact List.ne_nil_of_mem mem
  refine ⟨s, f, ⟨blank, 100, s, boot, .refl⟩, idle, represents_of_whole only filed whole mapped,
    listed, exhausted, ⟨chosen, free, ?_⟩, ?_, tree⟩
  · rw [length]
    decide
  · rw [length]
    decide

/-- The first area is on list 19, where a request for 2 GB looks for it. -/
theorem orders_exact_booted : ∃ s f, Represents s [100] f ∧
    ∀ u ∈ f 19, 0x80000 ≤ vmaLength s u >>> pageShift := by
  obtain ⟨s, f, -, -, rep, -⟩ := booted
  obtain ⟨-, -, -, -, large⟩ := orders_exact 0x80000 (by decide)
  exact ⟨s, f, rep, large s [100] f rep.filed 19 (by decide) (by decide)⟩

/-- One page, cut from the one area there is. -/
theorem allocVma_represents_booted :
    ∃ s f s' vma areas' f', Represents s [100] f ∧
      allocVma s pageSize none (some 200) (some 5) = .ok (s', some vma) ∧
        Carved s s' [100] areas' vma pageSize ∧ Represents s' areas' f' := by
  obtain ⟨s, f, -, idle, rep, listed, -, -, -, tree⟩ := booted
  have node : ∀ t, s.vmaTree = some t → t.heap 5 = none := by
    intro t eq
    rw [tree] at eq
    rw [← Option.some.inj eq]
  obtain ⟨s', vma, areas', f', call, carved, rep', -⟩ := allocVma_represents idle rep
    (by decide : 0 < pageSize) (Nat.dvd_refl _) (by decide) ⟨19, by decide, by decide, listed⟩ none
      (by simp : 200 ∉ [100]) node
  exact ⟨s, f, s', vma, areas', f', rep, call, carved, rep'⟩

/-- No memory for the rest of the area. -/
theorem allocVma_cleanly_iff_booted :
    ∃ s, Reachable s ∧ SplitFails s pageSize none ∧
      FailsCleanly s pageSize (some 7) none (some 5) := by
  obtain ⟨s, f, reachable, idle, -, -, -, found, long, -⟩ := booted
  have split : SplitFails s pageSize none := ⟨100, found, long, rfl⟩
  exact ⟨s, reachable, split,
    (allocVma_cleanly_iff idle.unlocked (.inr (.inl split))).mpr (.inl split)⟩

/-- A request above 2 GB returns whatever is in the variable, and one page without memory for the
tree node is handed out although it is in no tree. -/
theorem allocVma_uncleanly :
    (∃ s f, Reachable s ∧ Represents s [100] f ∧ CannotDeliver s 0x80001000 none none ∧
        ¬ FailsCleanly s 0x80001000 (some 7) none none) ∧
      ∃ s f, Reachable s ∧ Represents s [100] f ∧ CannotDeliver s pageSize (some 200) none ∧
        ¬ FailsCleanly s pageSize none (some 200) none := by
  obtain ⟨s, f, reachable, idle, rep, -, exhausted, found, -⟩ := booted
  constructor
  · refine ⟨s, f, reachable, rep, .inl exhausted, ?_⟩
    rw [exhausted.cleanly_iff idle.unlocked]
    simp
  · have tree : TreeFails s pageSize (some 200) none := ⟨100, found, by simp, rfl⟩
    exact ⟨s, f, reachable, rep, .inr (.inr tree), tree.not_cleanly idle.unlocked⟩

end OhMyOs.Mm.VmallocExact
