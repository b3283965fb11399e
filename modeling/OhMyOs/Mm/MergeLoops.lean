/- GID: OhMyOs/Mm/MergeLoops
   generality: I
   digest: The merge loops of free_pages and free_blocks end on every content of the page and block
   arrays. -/

import OhMyOs.Lib.Buddy
import OhMyOs.Mm.EarlyHeap
import OhMyOs.Mm.PageAllocator

set_option autoImplicit false
set_option relaxedAutoImplicit false

namespace OhMyOs.Mm.MergeLoops

open OhMyOs.Lib.Buddy OhMyOs.Include.IntrusiveList

/-! ### `free_pages` -/

section Pages
open OhMyOs.Mm.PageAllocator

def pageJoin (s : PageState) (page : Nat) : PageState × Nat :=
  let buddy := pageBuddy s page
  let s := { s with links := listRemove s.links (.node buddy) }
  let page := if buddy < page then buddy else page
  (s.setOrder page (((s.pages page).order + 1) % 2 ^ 32), page)

def pageRound (p : PageState × Nat) : Option (PageState × Nat) :=
  let s := p.1
  let page := p.2
  if (s.pages page).order < maxOrder then
    let buddy := pageBuddy s page
    if !s.test pageValid buddy || !s.test pageFree buddy then none else some (pageJoin s page)
  else none

private theorem pageJoin_merges {s : PageState} {page : Nat}
    (room : (s.pages page).order < maxOrder) :
    MergeRound maxOrder (2 ^ 32) (fun i => (s.pages i).order)
      (fun i => ((pageJoin s page).1.pages i).order) page (pageJoin s page).2 := by
  refine ⟨room, ?_, ?_⟩
  · simp only [pageJoin, pageBuddy, Nat.one_shiftLeft]
    rw [← min_def_lt, min_comm]
  · simp [pageJoin, PageState.setOrder]

private theorem pageRound_cases (s : PageState) (page : Nat) :
    (pageRound (s, page) = none ∧ ∀ fuel, mergeLoop (fuel + 1) s page = (s, page)) ∨
      (MergeRound maxOrder (2 ^ 32) (fun i => (s.pages i).order)
          (fun i => ((pageJoin s page).1.pages i).order) page (pageJoin s page).2 ∧
        pageRound (s, page) = some (pageJoin s page) ∧
        ∀ fuel, mergeLoop (fuel + 1) s page =
          mergeLoop fuel (pageJoin s page).1 (pageJoin s page).2) := by
  by_cases room : (s.pages page).order < maxOrder
  · by_cases stop : (!s.test pageValid (pageBuddy s page) ||
        !s.test pageFree (pageBuddy s page)) = true
    · exact .inl ⟨by simp only [pageRound, if_pos room, if_pos stop],
        fun fuel => by simp only [mergeLoop, if_pos room, if_pos stop]⟩
    · exact .inr ⟨pageJoin_merges room, by simp only [pageRound, if_pos room, if_neg stop],
        fun fuel => by simp only [mergeLoop, if_pos room, if_neg stop, pageJoin]⟩
  · exact .inl ⟨by simp only [pageRound, if_neg room],
      fun fuel => by simp only [mergeLoop, if_neg room]⟩

private theorem page_mergeLoop :
    MergeLoop maxOrder (2 ^ 32) (fun s i => (s.pages i).order) pageRound mergeLoop :=
  .of_join pageJoin (fun _ _ => rfl) pageRound_cases

end Pages

/-! ### `free_blocks` -/

section Blocks
open OhMyOs.Mm.EarlyHeap

def blockJoin (s : HeapState) (block : Nat) : HeapState × Nat :=
  let buddy := blockBuddy s block
  let s := { s with links := listRemove s.links (.node buddy) }
  let block := if buddy < block then buddy else block
  (s.setOrder block (((s.blocks block).order + 1) % 2 ^ 32), block)

def blockRound (p : HeapState × Nat) : Option (HeapState × Nat) :=
  let s := p.1
  let block := p.2
  if (s.blocks block).order < maxOrder then
    let buddy := blockBuddy s block
    if !(s.blocks buddy).free then none else some (blockJoin s block)
  else none

private theorem blockJoin_merges {s : HeapState} {block : Nat}
    (room : (s.blocks block).order < maxOrder) :
    MergeRound maxOrder (2 ^ 32) (fun i => (s.blocks i).order)
      (fun i => ((blockJoin s block).1.blocks i).order) block (blockJoin s block).2 := by
  refine ⟨room, ?_, ?_⟩
  · simp only [blockJoin, blockBuddy, Nat.one_shiftLeft]
    rw [← min_def_lt, min_comm]
  · simp [blockJoin, HeapState.setOrder]

private theorem blockRound_cases (s : HeapState) (block : Nat) :
    (blockRound (s, block) = none ∧ ∀ fuel, mergeLoop (fuel + 1) s block = (s, block)) ∨
      (MergeRound maxOrder (2 ^ 32) (fun i => (s.blocks i).order)
          (fun i => ((blockJoin s block).1.blocks i).order) block (blockJoin s block).2 ∧
        blockRound (s, block) = some (blockJoin s block) ∧
        ∀ fuel, mergeLoop (fuel + 1) s block =
          mergeLoop fuel (blockJoin s block).1 (blockJoin s block).2) := by
  by_cases room : (s.blocks block).order < maxOrder
  · by_cases stop : (!(s.blocks (blockBuddy s block)).free) = true
    · exact .inl ⟨by simp only [blockRound, if_pos room, if_pos stop],
        fun fuel => by simp only [mergeLoop, if_pos room, if_pos stop]⟩
    · exact .inr ⟨blockJoin_merges room, by simp only [blockRound, if_pos room, if_neg stop],
        fun fuel => by simp only [mergeLoop, if_pos room, if_neg stop, blockJoin]⟩
  · exact .inl ⟨by simp only [blockRound, if_neg room],
      fun fuel => by simp only [mergeLoop, if_neg room]⟩

private theorem block_mergeLoop :
    MergeLoop maxOrder (2 ^ 32) (fun s i => (s.blocks i).order) blockRound mergeLoop :=
  .of_join blockJoin (fun _ _ => rfl) blockRound_cases

end Blocks

/-- Whatever the order fields, the flags and the links hold, both loops end, at a head that is not
above the one they started with and in the same group of `MAX_ORDER`. -/
theorem merge_loops_end :
    (∀ (s : PageAllocator.PageState) (page : Nat),
      MergeEnded PageAllocator.maxOrder pageRound page
        (PageAllocator.mergeLoop PageAllocator.mergeFuel s page)) ∧
      ∀ (s : EarlyHeap.HeapState) (block : Nat),
        MergeEnded EarlyHeap.maxOrder blockRound block
          (EarlyHeap.mergeLoop EarlyHeap.mergeFuel s block) :=
  ⟨page_mergeLoop.ended (by decide), block_mergeLoop.ended (by decide)⟩

end OhMyOs.Mm.MergeLoops
