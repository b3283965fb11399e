/- GID: OhMyOs/Mm/PageExact
   generality: I
   digest: alloc_pages and add_free_pages change the free pages by exactly their range. -/

import OhMyOs.Mm.PageRuns

set_option autoImplicit false
set_option relaxedAutoImplicit false

namespace OhMyOs.Mm.PageExact

open OhMyOs.Lib.Ring OhMyOs.Lib.Dyadic OhMyOs.Lib.Buddy
open OhMyOs.Include.IntrusiveList OhMyOs.Include.Bitops
open OhMyOs.Mm.PageAllocator OhMyOs.Mm.PageSafety OhMyOs.Mm.PageRuns

/-- The free lists hold `f`: blocks that are aligned, carry their order and the free mark, are
valid and of the zone of their list, and do not overlap. -/
structure PagesWellFormed (s : PageState) (f : Zone × Nat → List Nat) : Prop where
  rings : Rings s.links {i | i ∈ listKeys} f
  aligned : ∀ i ∈ listKeys, ∀ p ∈ f i, 2 ^ i.2 ∣ p
  order : ∀ i ∈ listKeys, ∀ p ∈ f i, (s.pages p).order = i.2
  free : ∀ i ∈ listKeys, ∀ p ∈ f i, s.test pageFree p = true
  placed : ∀ i ∈ listKeys, ∀ p ∈ f i, BlockIn s ⟨p, i.2⟩ i.1
  disjoint : (filed listKeys Prod.snd f).Pairwise Block.Apart

def freeSet (f : Zone × Nat → List Nat) : Set Nat :=
  {n | ∃ b ∈ filed listKeys Prod.snd f, b.Covers n}

variable {s : PageState} {f : Zone × Nat → List Nat}

private theorem PagesWellFormed.held (pages : PagesWellFormed s f) :
    Held listKeys Prod.snd (view s) [] [] (freeSet f) f where
  rings := pages.rings
  tiling := by
    refine ⟨?_, pages.disjoint, fun n => Iff.rfl⟩
    intro b mem
    obtain ⟨i, key, inList, order⟩ := mem_filed.mp mem
    rw [Block.Aligned, ← order]
    exact pages.aligned i key _ inList
  listed i key p mem := ⟨pages.order i key p mem, pages.free i key p mem⟩
  given := by simp

private theorem PagesWellFormed.valid (pages : PagesWellFormed s f) :
    ∀ n ∈ freeSet f, s.test pageValid n = true := by
  rintro n ⟨b, mem, covered⟩
  obtain ⟨i, key, inList, order⟩ := mem_filed.mp mem
  refine (pages.placed i key _ inList n ?_).1
  rw [order]
  exact covered

private theorem pagesWellFormed_of_held {out : List Block} {S : Set Nat}
    (held : Held listKeys Prod.snd (view s) [] out S f) (placed : Placed s f) :
    PagesWellFormed s f ∧ freeSet f = S \ {n | ∃ b ∈ out, b.Covers n} := by
  have tiling : Tiling (out ++ filed listKeys Prod.snd f) S := held.tiling
  obtain ⟨-, apart, between⟩ := List.pairwise_append.mp tiling.apart
  constructor
  · refine ⟨held.rings, ?_, fun i key p mem => (held.listed i key p mem).1,
      fun i key p mem => (held.listed i key p mem).2, placed, apart⟩
    intro i key p mem
    exact tiling.aligned ⟨p, i.2⟩
      (List.mem_append_right _ (mem_filed.mpr ⟨i, key, mem, rfl⟩))
  · ext n
    constructor
    · rintro ⟨b, inLists, covered⟩
      refine ⟨(tiling.cover n).mp ⟨b, List.mem_append_right _ inLists, covered⟩, ?_⟩
      rintro ⟨c, inOut, covered'⟩
      exact (Block.apart_iff c b).mp (between c inOut b inLists) n ⟨covered', covered⟩
    · rintro ⟨inside, notOut⟩
      obtain ⟨b, mem, covered⟩ := (tiling.cover n).mpr inside
      rcases List.mem_append.mp mem with inOut | inLists
      · exact absurd ⟨b, inOut, covered⟩ notOut
      · exact ⟨b, inLists, covered⟩

/-- What a successful `alloc_pages` leaves behind: the block `[p, p + 2 ^ order)` is gone from
the free pages and nothing else is. -/
structure Allocated (s t : PageState) (f g : Zone × Nat → List Nat) (zone : Zone) (p order : Nat) :
    Prop where
  aligned : 2 ^ order ∣ p
  tagged : (t.pages p).order = order
  taken : t.test pageFree p = false
  inZone : BlockIn t ⟨p, order⟩ zone
  wellFormed : PagesWellFormed t g
  wasFree : ∀ n, (⟨p, order⟩ : Block).Covers n → n ∈ freeSet f
  shrinks : freeSet g = freeSet f \ {n | (⟨p, order⟩ : Block).Covers n}
  asserts : t.bugs = s.bugs

/-- `alloc_pages` of a well-formed state, for every mask and order. -/
theorem allocPages_exact (pages : PagesWellFormed s f) (gfpMask : BitVec 32) (order : Nat) :
    (maxOrder < order → allocPages s gfpMask order = (none, s)) ∧
      (order ≤ maxOrder →
        (∀ j, order ≤ j → j ≤ maxOrder → f (getFreeList gfpMask j) = []) →
          allocPages s gfpMask order = (none, s)) ∧
      (order ≤ maxOrder →
        (∃ j, order ≤ j ∧ j ≤ maxOrder ∧ f (getFreeList gfpMask j) ≠ []) →
          ∃ p t g, allocPages s gfpMask order = (some p, t) ∧
            Allocated s t f g (getFreeList gfpMask order).1 p order) := by
  unfold allocPages
  refine ⟨fun large => if_pos large, fun small empty => ?_, fun small filled => ?_⟩
  · rw [if_neg (by omega)]
    rcases allocScan_held pages.held pages.valid gfpMask order (maxOrder + 1 - order) order le_rfl
      (by omega) with ⟨-, fails⟩ | ⟨⟨j, above, below, filled⟩, -⟩
    · exact fails
    · exact absurd (empty j above below) filled
  · rw [if_neg (by omega)]
    obtain ⟨j, above, below, filled⟩ := filled
    rcases allocScan_held pages.held pages.valid gfpMask order (maxOrder + 1 - order) order le_rfl
      (by omega) with ⟨empty, -⟩ | ⟨-, p, t, g, eq, held, frame, zones⟩
    · exact absurd (empty j above below) filled
    · obtain ⟨inZone, placed⟩ := zones pages.placed
      obtain ⟨wellFormed, shrinks⟩ := pagesWellFormed_of_held held placed
      have block : (⟨p, order⟩ : Block) ∈
          [] ++ ([⟨p, order⟩] ++ filed listKeys Prod.snd g) := by simp
      have given := held.given ⟨p, order⟩ (by simp)
      refine ⟨p, t, g, eq, held.tiling.aligned _ block, given.1, given.2,
        inZone, wellFormed, ?_, ?_,
        frame.bugs⟩
      · intro n covered
        exact (held.tiling.cover n).mp ⟨_, block, covered⟩
      · simpa using shrinks

private theorem pageInit_wellFormed (links : Links (Zone × Nat) Nat) (highmem : Nat) :
    PagesWellFormed (pageInit links highmem) (fun _ => []) :=
  (pagesWellFormed_of_held (pageInit_held links highmem) (by intro i _ p mem; simp at mem)).1

private theorem pageInit_test (links : Links (Zone × Nat) Nat) (highmem nr n : Nat) :
    (pageInit links highmem).test nr n = false := by
  simp [pageInit, PageState.test, testBit]

private theorem PagesWellFormed.grow (pages : PagesWellFormed s f) {a b : Nat} (le : a ≤ b)
    (bound : b ≤ totalPages) (fresh : ∀ n, a ≤ n → n < b → s.test pageValid n = false)
    (unmarked : ∀ n, a ≤ n → n < b → s.test pageHighmem n = false) :
    ∃ g new, PagesWellFormed (addFreePages s a b) g ∧ Added s (addFreePages s a b) f g new a b ∧
      freeSet g = freeSet f ∪ {n | a ≤ n ∧ n < b} := by
  have outside : ∀ n, a ≤ n → n < b → n ∉ freeSet f := by
    intro n low high mem
    have := pages.valid n mem
    rw [fresh n low high] at this
    contradiction
  obtain ⟨g, new, held, added⟩ := addFreePages_added le bound outside pages.held
  have placed : Placed (addFreePages s a b) g := by
    intro i key p mem n covered
    rcases added.filing.zones i key p mem with old | ⟨inNew, zone⟩
    · -- a block that was filed before has no page in the range
      have inFree : n ∈ freeSet f := ⟨⟨p, i.2⟩, mem_filed.mpr ⟨i, key, old, rfl⟩, covered⟩
      have apart : ¬ (a ≤ n ∧ n < b) := fun range => outside n range.1 range.2 inFree
      have before := pages.placed i key p old n covered
      rw [added.valid, zoneOf, added.highmem]
      simpa [apart, zoneOf] using before
    · have range := (added.tiling.cover n).mp ⟨_, inNew, covered⟩
      have base := (added.tiling.cover p).mp ⟨_, inNew, Block.covers_base ⟨p, i.2⟩⟩
      have same := added.uniform _ inNew n covered
      have marks : ∀ q, a ≤ q ∧ q < b → (addFreePages s a b).test pageHighmem q =
          decide (s.highmemStartPfn ≤ q) := by
        intro q inside
        rw [added.highmem, unmarked q inside.1 inside.2]
        simp [inside]
      constructor
      · rw [added.valid]
        simp [range.1, range.2]
      · rw [← zone, zoneOf, zoneOf, marks n range, marks p base]
        simp only [decide_eq_true_iff, same]
  obtain ⟨wellFormed, grows⟩ := pagesWellFormed_of_held held placed
  refine ⟨g, new, wellFormed, added, ?_⟩
  rw [grows]
  simp

def oneBlock : PageState := addFreePages (pageInit ⟨id, id⟩ 1024) 0 1024

theorem allocPages_exact_split :
    ∃ f p t g, PagesWellFormed oneBlock f ∧ 0 ∈ f (.linear, 10) ∧
      allocPages oneBlock 2#32 3 = (some p, t) ∧ Allocated oneBlock t f g .linear p 3 := by
  obtain ⟨f, -, pages, -⟩ := (pageInit_wellFormed ⟨id, id⟩ 1024).grow (a := 0) (b := 1024)
    (by decide) (by decide) (fun n _ _ => pageInit_test _ _ pageValid n)
      (fun n _ _ => pageInit_test _ _ pageHighmem n)
  have first : 0 ∈ f (.linear, 10) := pages.rings.first_mem (by decide) (by decide +kernel)
  obtain ⟨p, t, g, eq, allocated⟩ := (allocPages_exact pages 2#32 3).2.2 (by decide)
    ⟨10, by decide, by decide, List.ne_nil_of_mem first⟩
  exact ⟨f, p, t, g, pages, first, eq, allocated⟩

/-- `add_free_pages` partitions its range: the blocks `new` join the lists, each page of the
range is on exactly one of them, and the flags of the other pages stay. -/
theorem addFreePages_exact (pages : PagesWellFormed s f) {a b : Nat} (le : a ≤ b)
    (bound : b ≤ totalPages) (fresh : ∀ n, a ≤ n → n < b → s.test pageValid n = false)
    (unmarked : ∀ n, a ≤ n → n < b → s.test pageHighmem n = false) :
    ∃ g new, PagesWellFormed (addFreePages s a b) g ∧ (addFreePages s a b).bugs = s.bugs ∧
      (∀ n, (addFreePages s a b).test pageValid n = true ↔
        (a ≤ n ∧ n < b) ∨ s.test pageValid n = true) ∧
      (∀ n, (addFreePages s a b).test pageHighmem n = true ↔
        (a ≤ n ∧ n < b ∧ s.highmemStartPfn ≤ n) ∨ s.test pageHighmem n = true) ∧
      freeSet g = freeSet f ∪ {n | a ≤ n ∧ n < b} ∧
      (filed listKeys Prod.snd g).Perm (new ++ filed listKeys Prod.snd f) ∧
      ∀ n, a ≤ n → n < b → ∃ c ∈ new, c.Covers n ∧ ∀ d ∈ new, d.Covers n → d = c := by
  obtain ⟨g, new, wellFormed, added, grows⟩ := pages.grow le bound fresh unmarked
  refine ⟨g, new, wellFormed, added.bugs, fun n => ?_, fun n => ?_, grows, added.filing.perm, ?_⟩
  · simp [added.valid]
  · simp [added.highmem, and_assoc]
  · intro n low high
    obtain ⟨c, mem, covered⟩ := (added.tiling.cover n).mpr ⟨low, high⟩
    refine ⟨c, mem, covered, fun d mem' covered' => ?_⟩
    by_contra differ
    exact (Block.apart_iff d c).mp (added.tiling.apart.forall mem' mem differ) n ⟨covered', covered⟩

theorem addFreePages_exact_three :
    ∃ g, ∃ new : List Block, PagesWellFormed (addFreePages (pageInit ⟨id, id⟩ 2) 1 4) g ∧
      freeSet g = {n | 1 ≤ n ∧ n < 4} ∧ ∀ n, 1 ≤ n → n < 4 → ∃ c ∈ new, c.Covers n := by
  obtain ⟨g, new, wellFormed, -, -, -, grows, -, covers⟩ :=
    addFreePages_exact (pageInit_wellFormed ⟨id, id⟩ 2) (a := 1) (b := 4) (by decide) (by decide)
      (fun n _ _ => pageInit_test _ _ pageValid n)
      (fun n _ _ => pageInit_test _ _ pageHighmem n)
  refine ⟨g, new, wellFormed, ?_, fun n low high => ?_⟩
  · rw [grows]
    simp [freeSet, filed]
  · obtain ⟨c, mem, covered, -⟩ := covers n low high
    exact ⟨c, mem, covered⟩

def staleHighmem : PageState :=
  (pageInit ⟨id, id⟩ 2048).setFlags 1 (setBit pageHighmem 0#32)

/-- `add_free_pages` never clears `PAGE_HIGHMEM`: the block of order 10 that it files on the low
lists contains page 1. -/
theorem addFreePages_stale_highmem :
    PagesWellFormed staleHighmem (fun _ => []) ∧ (∀ n, staleHighmem.test pageValid n = false) ∧
      ¬ ∃ g, PagesWellFormed (addFreePages staleHighmem 0 1024) g := by
  have empty := pageInit_wellFormed ⟨id, id⟩ 2048
  have start : PagesWellFormed staleHighmem (fun _ => []) :=
    ⟨empty.rings, by simp, by simp, by simp, by simp, empty.disjoint⟩
  refine ⟨start, ?_, ?_⟩
  · intro n
    by_cases one : n = 1
    · subst one
      decide
    · rw [staleHighmem, setFlags_test_ne _ _ _ one]
      exact pageInit_test _ _ _ n
  · rintro ⟨g, pages⟩
    obtain ⟨_, _, -, added⟩ := addFreePages_added (a := 0) (b := 1024) (by decide) (by decide)
      (by simp [freeSet, filed]) start.held
    have block : 0 ∈ g (.linear, 10) := pages.rings.first_mem (by decide) (by decide +kernel)
    have zone := (pages.placed (.linear, 10) (by decide) 0 block 1 (by decide)).2
    have marked : (addFreePages staleHighmem 0 1024).test pageHighmem 1 = true := by
      rw [added.highmem]
      decide
    rw [zoneOf, if_pos marked] at zone
    contradiction

end OhMyOs.Mm.PageExact
