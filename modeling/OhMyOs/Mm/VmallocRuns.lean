/- GID: OhMyOs/Mm/VmallocRuns
   generality: I
   digest: Runs of alloc_vma and free_vma: a freed area is never filed for reuse. -/

import OhMyOs.Lib.Runs
import OhMyOs.Mm.VmallocAlloc

set_option autoImplicit false
set_option relaxedAutoImplicit false

namespace OhMyOs.Mm.VmallocRuns

open OhMyOs.Lib.Outcome OhMyOs.Lib.Runs OhMyOs.Lib.Ring OhMyOs.Include.IntrusiveList
open OhMyOs.Include.Bitops OhMyOs.Include.Memory OhMyOs.Include.Log2
open OhMyOs.Libs.RedBlackTree (RbTree Ptr Addr Fresh Holds Inserted rbTreeInsert_holds
  rbTreeRemove_holds)
open OhMyOs.Mm.Vmalloc OhMyOs.Mm.VmallocSafety

variable {s s' : VmState} {vma : Nat}

/-- A call with its arguments, what kmalloc returns should it be called, and the uninitialised
pointer of `alloc_vma`. -/
inductive VmOp
  | alloc (len : Nat) (garbage vmaBuddy : Option Nat) (newNode : Ptr)
  | free (vma : Nat)

def vmStep (s : VmState) : VmOp → Option VmState
  | .alloc len garbage vmaBuddy newNode =>
    (allocVma s len garbage vmaBuddy newNode).toOption.map Prod.fst
  | .free vma => (freeVma s (some vma)).toOption

/-- kmalloc returns NULL or memory that is not in use, and an area is freed while in use. -/
def vmOk (s : VmState) : VmOp → Prop
  | .alloc len _ vmaBuddy newNode =>
    len < 2 ^ 32 ∧ (∀ u, vmaBuddy = some u → u ∉ s.heap) ∧ Fresh s.vmaTree newNode
  | .free vma => vma ∈ s.heap ∧ (s.area vma).free = false

def Reachable (s : VmState) : Prop :=
  ∃ before first booted, vmallocInit before (some first) true = .ok booted ∧
    Run vmStep vmOk booted s

/-! ### What all reachable states have in common -/

private theorem absorb_tree {way : Way} {fuel : Nat} (done : absorb way fuel s vma = .ok s') :
    s'.vmaTree = s.vmaTree := by
  induction fuel generalizing s with
  | zero => cases done
  | succ fuel ih =>
    rw [absorb] at done
    cases found : neighbour s way vma with
    | none =>
      simp only [found] at done
      cases done
      rfl
    | some other =>
      simp only [found] at done
      split_ifs at done with free
      · obtain ⟨-, -, rest⟩ := bind_eq_ok done
        exact (ih rest).trans (absorbOne_frame way s vma other).2.2.1
      · cases done
        rfl

private theorem freeVma_idle (idle : Idle s) (done : freeVma s (some vma) = .ok s') : Idle s' := by
  obtain ⟨unlocked, tree, nodes, treeEq, holds⟩ := idle
  obtain ⟨-, -, done⟩ := bind_eq_ok done
  rw [spinLock_eq unlocked, ok_bind] at done
  obtain ⟨r, removed, inv⟩ := rbTreeRemove_holds holds (s.area vma).start
  simp only [treeEq, removed, mapError_ok, ok_bind] at done
  obtain ⟨s1, first, done⟩ := bind_eq_ok done
  obtain ⟨s2, second, done⟩ := bind_eq_ok done
  cases done
  have kept : s2.vmaTree = r.1 := (absorb_tree second).trans (absorb_tree first)
  refine ⟨rfl, ?_⟩
  cases inv with
  | failed => exact ⟨_, _, kept, holds⟩
  | done _ _ holds' => exact ⟨_, _, kept, holds'⟩

def TreeHeld (s : VmState) : Prop := ∃ tree nodes, s.vmaTree = some tree ∧ Holds tree nodes

theorem takeVma_inserted {newNode : Ptr} {tree : RbTree Nat}
    {nodes : List (Addr × OhMyOs.Libs.RedBlackTree.Item Nat)} (treeEq : s.vmaTree = some tree)
    (holds : Holds tree nodes) (fresh : Fresh s.vmaTree newNode)
    (done : takeVma s vma newNode = .ok s') :
    ∃ r, s'.vmaTree = r.1 ∧
      Inserted tree nodes (s.area vma).start (wsub (s.area vma).stop 1) vma newNode r := by
  obtain ⟨r, insert, done⟩ := bind_eq_ok done
  cases done
  simp only [VmState.setArea, Function.update_self] at insert
  obtain ⟨r', inserted, inv⟩ := rbTreeInsert_holds holds (s.area vma).start
    (wsub (s.area vma).stop 1) vma newNode fun a same => fresh tree a treeEq same
  rw [← treeEq] at inserted
  obtain rfl : r' = r :=
    Except.ok.inj ((congrArg (Except.mapError Fault.tree) inserted).symm.trans insert)
  exact ⟨r', rfl, inv⟩

private theorem takeVma_tree {newNode : Ptr} (held : TreeHeld s) (fresh : Fresh s.vmaTree newNode)
    (done : takeVma s vma newNode = .ok s') : TreeHeld s' := by
  obtain ⟨tree, nodes, treeEq, holds⟩ := held
  obtain ⟨r, eq, inserted⟩ := takeVma_inserted treeEq holds fresh done
  cases inserted with
  | failed => exact ⟨_, _, eq, holds⟩
  | done _ _ _ _ holds' => exact ⟨_, _, eq, holds'⟩

private theorem splitVma_tree {vmaBuddy len : Nat} (done : splitVma s vma vmaBuddy len = .ok s') :
    s'.vmaTree = s.vmaTree := by
  obtain ⟨-, -, done⟩ := bind_eq_ok done
  cases done
  rfl

/-- The ways through `alloc_vma`: nothing is found, or an area is found that passes the assert. Then
there is no memory for the rest, or the area is split and taken, or it is taken whole. -/
theorem allocVma_cases {len : Nat} {garbage vmaBuddy result : Option Nat} {newNode : Ptr}
    (unlocked : s.vmaLock = false)
    (done : allocVma s len garbage vmaBuddy newNode = .ok (s', result)) :
    (findOrder s (ilog2Roundup (len >>> pageShift)) = none ∧ s' = s ∧ result = garbage) ∨
      ∃ i vma, findOrder s (ilog2Roundup (len >>> pageShift)) = some i ∧
        containerOf (listNext s.freeVmaLists (.head i)) = some vma ∧
          (s.area vma).free = true ∧ len ≤ vmaLength s vma ∧
            ((s' = s ∧ result = none) ∨
              (∃ buddy s1 s2, vmaBuddy = some buddy ∧
                (len + pageSize) % 2 ^ 32 ≤ vmaLength s vma ∧
                  splitVma { s with vmaLock := true } vma buddy len = .ok s1 ∧
                    takeVma s1 vma newNode = .ok s2 ∧ s' = s2.spinUnlock ∧ result = some vma) ∨
                ∃ s2, takeVma { s with vmaLock := true } vma newNode = .ok s2 ∧
                  s' = s2.spinUnlock ∧ result = some vma) := by
  have again : { s with vmaLock := true }.spinUnlock = s := by
    rw [VmState.spinUnlock, ← unlocked]
  simp only [allocVma, spinLock_eq unlocked, ok_bind] at done
  have order : findOrder { s with vmaLock := true } (ilog2Roundup (len >>> pageShift)) =
      findOrder s (ilog2Roundup (len >>> pageShift)) := rfl
  rw [order] at done
  cases found : findOrder s (ilog2Roundup (len >>> pageShift)) with
  | none =>
    simp only [found, again] at done
    cases done
    exact .inl ⟨rfl, rfl, rfl⟩
  | some i =>
    simp only [found] at done
    split at done
    · cases done
    · rename_i vma next
      obtain ⟨⟨⟩, pass, done⟩ := bind_eq_ok done
      have passes := Bool.and_eq_true_iff.mp (assert_ok pass)
      refine .inr ⟨i, vma, rfl, next, passes.1, of_decide_eq_true passes.2, ?_⟩
      split_ifs at done with long
      · cases vmaBuddy with
        | none =>
          simp only [again] at done
          cases done
          exact .inl ⟨rfl, rfl⟩
        | some buddy =>
          obtain ⟨s1, split, done⟩ := bind_eq_ok done
          obtain ⟨s2, take, done⟩ := bind_eq_ok done
          cases done
          exact .inr (.inl ⟨buddy, s1, s2, rfl, long, split, take, rfl, rfl⟩)
      · obtain ⟨s2, take, done⟩ := bind_eq_ok done
        cases done
        exact .inr (.inr ⟨s2, take, rfl, rfl⟩)

theorem allocVma_idle {len : Nat} {garbage vmaBuddy result : Option Nat} {newNode : Ptr}
    (idle : Idle s) (fresh : Fresh s.vmaTree newNode)
    (done : allocVma s len garbage vmaBuddy newNode = .ok (s', result)) : Idle s' := by
  obtain ⟨unlocked, held⟩ := idle
  obtain ⟨-, rfl, -⟩ | ⟨i, vma, -, -, -, -, way⟩ := allocVma_cases unlocked done
  · exact ⟨unlocked, held⟩
  obtain ⟨rfl, -⟩ | ⟨buddy, s1, s2, -, -, split, take, rfl, -⟩ | ⟨s2, take, rfl, -⟩ := way
  · exact ⟨unlocked, held⟩
  · have kept := splitVma_tree split
    have next : TreeHeld s2 := takeVma_tree (by rwa [TreeHeld, kept]) (by rwa [kept]) take
    exact ⟨rfl, next⟩
  · have locked : TreeHeld { s with vmaLock := true } := held
    have next : TreeHeld s2 := takeVma_tree locked fresh take
    exact ⟨rfl, next⟩

private theorem Reachable.idle (reachable : Reachable s) : Idle s := by
  obtain ⟨before, first, booted, boot, run⟩ := reachable
  obtain ⟨s1, boot', -, idle, -⟩ := vmallocInit_wellFormed before first
  obtain rfl := Except.ok.inj (boot.symm.trans boot')
  refine run.invariant idle ?_
  intro s op t idle ok step
  cases op with
  | alloc len garbage vmaBuddy newNode =>
    obtain ⟨⟨t', result⟩, call, rfl⟩ := Option.map_eq_some_iff.mp step
    exact allocVma_idle idle ok.2.2 (of_toOption call)
  | free vma => exact freeVma_idle idle (of_toOption step)

/-! ### Freeing -/

def FreesCleanly (s : VmState) (vma : Nat) : Prop :=
  ∃ s', freeVma s (some vma) = .ok s' ∧ WellFormed s' ∧
    Available s' (s.area vma).start (s.area vma).stop

/-- The call stops at its first assert on the last area of the range, and otherwise returns in a
state that is not well-formed and in which the freed bytes are out of reach. -/
private theorem freeVma_outcome (idle : Idle s) (wf : WellFormed s) (mine : InUse s vma) :
    (freeVma s (some vma) = .error .assertion ∧ (s.area vma).stop = vmallocEnd) ∨
      ∃ s', freeVma s (some vma) = .ok s' ∧ ¬ WellFormed s' ∧
        ¬ Available s' (s.area vma).start (s.area vma).stop := by
  obtain ⟨areas, tiled, member, -⟩ := id mine
  have bounds := tiled.bounds member
  by_cases below : (s.area vma).stop < vmallocEnd
  · right
    obtain ⟨s', done, -, low, high, areas', f', unfiled⟩ := freeVma_unfiled idle wf mine below
    exact ⟨s', done, unfiled.not_wellFormed, unfiled.not_available low bounds.2.1 high⟩
  · left
    refine ⟨?_, by omega⟩
    simp [freeVma, Vmalloc.assert, below]
    rfl

private theorem not_freesCleanly (idle : Idle s) (wf : WellFormed s) (mine : InUse s vma) :
    ¬ FreesCleanly s vma := by
  rintro ⟨s', done, wf', -⟩
  rcases freeVma_outcome idle wf mine with ⟨fault, -⟩ | ⟨s'', done', bad, -⟩
  · rw [done] at fault
    cases fault
  · obtain rfl := Except.ok.inj (done.symm.trans done')
    exact bad wf'

/-- From no well-formed reachable state does `free_vma` of an area in use do its job. -/
theorem freeVma_run_never (s : VmState) (reachable : Reachable s) (wf : WellFormed s) (vma : Nat)
    (mine : InUse s vma) :
    ¬ FreesCleanly s vma ∧
      ((freeVma s (some vma) = .error .assertion ∧ (s.area vma).stop = vmallocEnd) ∨
        ∃ s', freeVma s (some vma) = .ok s' ∧ ¬ WellFormed s' ∧
          ¬ Available s' (s.area vma).start (s.area vma).stop) :=
  ⟨not_freesCleanly reachable.idle wf mine, freeVma_outcome reachable.idle wf mine⟩

def blank : VmState where
  area := fun _ => ⟨0, 0, false⟩
  vmaList := ⟨id, id⟩
  freeVmaLists := ⟨id, id⟩
  vmaTree := none
  vmaLock := false
  heap := []

theorem one_page_inUse : ∃ s, Reachable s ∧ WellFormed s ∧ InUse s 100 ∧
    (s.area 100).start = 0x1000 ∧ (s.area 100).stop = 0x2000 := by
  obtain ⟨s1, boot, wf, idle, tiled⟩ := vmallocInit_wellFormed blank 100
  have state : ∃ s1, vmallocInit blank (some 100) true = .ok s1 ∧ findOrder s1 0 = some 19 ∧
      s1.heap = [100] ∧ s1.vmaTree = some ⟨fun _ => none, 0, none⟩ ∧
        (allocVma s1 pageSize none (some 200) (some 5)).toOption.map
          (fun r => (r.2, (r.1.area 100).start, (r.1.area 100).stop)) =
            some (some 100, 0x1000, 0x2000) := ⟨_, rfl, by decide, rfl, rfl, by decide +kernel⟩
  obtain ⟨s1', boot', found, heap, tree, result⟩ := state
  obtain rfl := Except.ok.inj (boot.symm.trans boot')
  have node : ∀ t, s1.vmaTree = some t → t.heap 5 = none := by
    intro t eq
    rw [tree] at eq
    rw [← Option.some.inj eq]
  have buddy : ∀ areas, Tiled s1 areas → 200 ∉ areas := by
    intro areas other
    simp [← tiled.unique other]
  obtain ⟨⟨s2, vma⟩, call, wf2, -, vma', same, mine, -⟩ :=
    allocVma_wellFormed idle wf (by decide : 0 < pageSize) (Nat.dvd_refl _) (by decide) found none
      buddy node
  simp only [call, Except.toOption, Option.map_some, Option.some.injEq, Prod.mk.injEq] at result
  obtain ⟨rfl, start, stop⟩ := result
  obtain rfl : 100 = vma' := Option.some.inj same
  refine ⟨s2, ⟨blank, 100, s1, boot,
    .single ⟨.alloc pageSize none (some 200) (some 5), ?_, ?_⟩⟩, wf2,
    mine, start, stop⟩
  · refine ⟨by decide, fun u eq => ?_, fun t a eq other => ?_⟩
    · rw [heap, ← Option.some.inj eq]
      decide
    · rw [← Option.some.inj other]
      exact node t eq
  · rw [vmStep, call]
    rfl

theorem freeVma_run_never_one_page :
    ∃ s, InUse s 100 ∧ (s.area 100).stop = 0x2000 ∧ ¬ FreesCleanly s 100 := by
  obtain ⟨s, reachable, wf, mine, -, stop⟩ := one_page_inUse
  exact ⟨s, mine, stop, (freeVma_run_never s reachable wf 100 mine).1⟩

/-- One page allocated and freed: the state is not well-formed any more. -/
theorem freeVma_unclean_one_page :
    ¬ ∀ s, Reachable s → WellFormed s → ∀ vma, InUse s vma → FreesCleanly s vma := by
  intro claim
  obtain ⟨s, reachable, wf, mine, -⟩ := one_page_inUse
  exact not_freesCleanly reachable.idle wf mine (claim s reachable wf 100 mine)

end OhMyOs.Mm.VmallocRuns
