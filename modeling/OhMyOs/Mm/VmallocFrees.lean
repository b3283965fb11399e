/- GID: OhMyOs/Mm/VmallocFrees
   generality: I
   digest: Freeing an area after any run of alloc_vma: the asserts of free_vma. -/

import OhMyOs.Mm.VmallocExact

set_option autoImplicit false
set_option relaxedAutoImplicit false

namespace OhMyOs.Mm.VmallocFrees

open OhMyOs.Lib.Ring OhMyOs.Lib.Tiling OhMyOs.Lib.Outcome OhMyOs.Lib.Runs
open OhMyOs.Include.IntrusiveList OhMyOs.Include.Bitops OhMyOs.Include.Memory OhMyOs.Include.Log2
open OhMyOs.Libs.RedBlackTree (RbTree Ptr Fresh contents intervalOf loopFuel rbTreeRemove
  rbTreeRemove_holds)
open OhMyOs.Mm.Vmalloc OhMyOs.Mm.VmallocSafety OhMyOs.Mm.VmallocRuns OhMyOs.Mm.VmallocExact

/-! ### Runs of `alloc_vma` -/

/-- A call, what kmalloc returns should it be called, and the uninitialised pointer. -/
structure AllocCall where
  len : Nat
  garbage : Option Nat
  vmaBuddy : Option Nat
  newNode : Ptr

structure AllocRun where
  state : VmState
  returned : List Nat

/-- An exhausted search returns what is in the variable, which is no area. -/
def allocStep (r : AllocRun) (call : AllocCall) : Option AllocRun :=
  (allocVma r.state call.len call.garbage call.vmaBuddy call.newNode).toOption.map fun out =>
    ⟨out.1, if (chosenVma r.state call.len).isSome then out.2.toList ++ r.returned
      else r.returned⟩

def allocOk (r : AllocRun) (call : AllocCall) : Prop :=
  vmOk r.state (.alloc call.len call.garbage call.vmaBuddy call.newNode)

/-! ### Invariant -/

variable {s s' : VmState} {used : List Nat} {rest : Option Nat} {f : Nat → List Nat}
  {vma len : Nat} {newNode : Ptr}

/-- The areas handed out lie one after another from the start of the range on, some of them empty,
and what is left of the range is the one area after them. -/
structure Packed (s : VmState) (used : List Nat) (rest : Option Nat) (f : Nat → List Nat) :
    Prop where
  ring : Rings s.vmaList Set.univ fun _ => used ++ rest.toList
  follow : Follow (fun u => (s.area u).start) (fun u => (s.area u).stop) vmallocStart
    (used ++ rest.toList) vmallocEnd
  inUse : ∀ u ∈ used, (s.area u).free = false
  lists : Rings s.freeVmaLists {k | k ≤ maxVmaOrder} f
  listed : ∀ k ≤ maxVmaOrder, ∀ u ∈ f k, rest = some u
  owned : ∀ u ∈ used ++ rest.toList, u ∈ s.heap

theorem Packed.frame (packed : Packed s used rest f) (held : Bool) (tree : Option (RbTree Nat)) :
    Packed { s with vmaLock := held, vmaTree := tree } used rest f :=
  ⟨packed.ring, packed.follow, packed.inUse, packed.lists, packed.listed, packed.owned⟩

private theorem initial_packed (s : VmState) (vma : Nat) :
    Packed (initial s vma) [] (some vma) (Function.update (fun _ => []) 19 [vma]) := by
  have tiled := initial_tiled s vma
  have filed := initial_filed s vma
  refine ⟨tiled.ring, tiled.tiles.follow, by simp, filed.rings, fun k low u mem => ?_, ?_⟩
  · have only := ((filed.free_iff u).mpr ⟨k, low, mem⟩).1
    rw [List.mem_singleton.mp only]
  · intro u mem
    rw [List.mem_singleton.mp mem]
    exact List.mem_cons_self

private theorem Packed.nodup (packed : Packed s used rest f) : (used ++ rest.toList).Nodup :=
  packed.ring.nodup () trivial

private theorem Packed.found {i order : Nat} (packed : Packed s used rest f)
    (found : findOrder s order = some i)
    (next : containerOf (listNext s.freeVmaLists (.head i)) = some vma) :
    rest = some vma ∧ i ≤ maxVmaOrder ∧ vma ∈ f i := by
  obtain ⟨-, small, nonempty⟩ := findOrder_some found
  have heads : i ∈ {k | k ≤ maxVmaOrder} := small
  obtain ⟨first, others, eq⟩ := List.exists_cons_of_ne_nil
    (mt (listEmpty_iff packed.lists heads).mpr (by simp [nonempty]))
  rw [listNext_cons packed.lists heads eq] at next
  obtain rfl : first = vma := Option.some.inj next
  have mem : first ∈ f i := by simp [eq]
  exact ⟨packed.listed i small first mem, small, mem⟩

theorem takeVma_ok (done : takeVma s vma newNode = .ok s') :
    s'.area = Function.update s.area vma { s.area vma with free := false } ∧
      s'.vmaList = s.vmaList ∧ s'.freeVmaLists = listRemove s.freeVmaLists (.node vma) ∧
        s'.heap = s.heap := by
  obtain ⟨r, -, done⟩ := bind_eq_ok done
  cases done
  exact ⟨rfl, rfl, rfl, rfl⟩

private theorem Packed.take {i : Nat}
    (ring : Rings s.vmaList Set.univ fun _ => used ++ [vma] ++ rest.toList)
    (follow : Follow (fun u => (s.area u).start) (fun u => (s.area u).stop) vmallocStart
      (used ++ [vma] ++ rest.toList) vmallocEnd)
    (inUse : ∀ u ∈ used, (s.area u).free = false)
    (lists : Rings s.freeVmaLists {k | k ≤ maxVmaOrder} f)
    (listed : ∀ k ≤ maxVmaOrder, ∀ u ∈ f k, u = vma ∨ rest = some u) (small : i ≤ maxVmaOrder)
    (mem : vma ∈ f i) (owned : ∀ u ∈ used ++ [vma] ++ rest.toList, u ∈ s.heap)
    (done : takeVma s vma newNode = .ok s') :
    Packed s' (used ++ [vma]) rest (Function.update f i ((f i).erase vma)) := by
  obtain ⟨area, list, freed, heap⟩ := takeVma_ok done
  refine ⟨list ▸ ring, ?_, ?_, freed ▸ listRemove_rings lists small mem, ?_, heap ▸ owned⟩
  · refine follow.congr fun u _ => ?_
    by_cases same : u = vma
    · simp [area, same]
    · simp [area, same]
  · intro u member
    by_cases same : u = vma
    · simp [area, same]
    · rw [area, Function.update_of_ne same]
      exact inUse u ((List.mem_append.mp member).resolve_right (by simpa using same))
  · intro k low u member
    obtain ⟨old, differ⟩ := (mem_erase_iff lists small mem low).mp member
    exact (listed k low u old).resolve_left differ

private theorem splitVma_ok {vmaBuddy : Nat} {s1 : VmState} (differ : vma ≠ vmaBuddy)
    (word : (s.area vma).start + len < 2 ^ 32) (done : splitVma s vma vmaBuddy len = .ok s1) :
    splitOrder s vma len ≤ maxVmaOrder ∧ s1 = splitState s vma vmaBuddy len := by
  rw [splitVma_assert differ word] at done
  obtain ⟨⟨⟩, pass, done⟩ := bind_eq_ok done
  exact ⟨of_decide_eq_true (assert_ok pass), (Except.ok.inj done).symm⟩

theorem Packed.last (packed : Packed s used (some vma) f) :
    vmallocStart ≤ (s.area vma).start ∧ (s.area vma).start ≤ (s.area vma).stop ∧
      (s.area vma).stop = vmallocEnd ∧
        vmaLength s vma = (s.area vma).stop - (s.area vma).start := by
  have bounds := packed.follow.bounds (x := vma) (by simp)
  refine ⟨bounds.1, bounds.2.1, ?_, wsub_eq bounds.2.1 ?_⟩
  · obtain ⟨mid, -, last⟩ := follow_append.mp packed.follow
    exact last.2.2
  · have high := bounds.2.2
    simp only [vmallocEnd, kernelVirtBase] at high
    omega

theorem Packed.fresh {vmaBuddy : Nat} (packed : Packed s used (some vma) f)
    (fresh : vmaBuddy ∉ s.heap) : vmaBuddy ∉ used ++ [vma] ∧ vma ≠ vmaBuddy := by
  have new : vmaBuddy ∉ used ++ [vma] := fun old => fresh (packed.owned vmaBuddy old)
  refine ⟨new, ?_⟩
  rintro rfl
  exact new (by simp)

theorem Packed.split {i vmaBuddy : Nat} (packed : Packed s used (some vma) f)
    (small : i ≤ maxVmaOrder) (mem : vma ∈ f i) (fresh : vmaBuddy ∉ s.heap)
    (room : len ≤ vmaLength s vma) (order : splitOrder s vma len ≤ maxVmaOrder)
    (done : takeVma (splitState s vma vmaBuddy len) vma newNode = .ok s') :
    ∃ f', Packed s' (used ++ [vma]) (some vmaBuddy) f' := by
  obtain ⟨new, differ⟩ := packed.fresh fresh
  obtain ⟨-, whole, -, length⟩ := packed.last
  have buddyArea : (splitState s vma vmaBuddy len).area vmaBuddy = splitRest s vma len :=
    Splits.area_buddy
  have vmaArea := splitState_vma s len differ
  have otherArea : ∀ u ∈ used, (splitState s vma vmaBuddy len).area u = s.area u := by
    intro u member
    have first : u ≠ vmaBuddy := fun eq => new (eq ▸ List.mem_append_left _ member)
    have second : u ≠ vma := by
      rintro rfl
      exact (List.nodup_append.mp packed.nodup).2.2 u member u (by simp) rfl
    exact Splits.area_other second first
  have absent : ∀ k ≤ maxVmaOrder, vmaBuddy ∉ f k := fun k low old =>
    differ (Option.some.inj (packed.listed k low vmaBuddy old))
  have lists := listInsert_rings packed.lists order absent
  have before : used ++ (some vma).toList = used ++ vma :: [] := rfl
  have ring := listInsert_after_rings packed.ring (Set.mem_univ ()) before (a := vmaBuddy)
    fun _ _ => new
  refine ⟨_, Packed.take (i := i) ?_ ?_ ?_ lists ?_ small (mem_insert_iff.mpr (.inr mem)) ?_ done⟩
  · have only :
        Function.update (fun _ => used ++ (some vma).toList) () (used ++ vma :: [vmaBuddy]) =
        fun _ => used ++ [vma] ++ (some vmaBuddy).toList := by
      funext u
      simp
    rwa [only] at ring
  · refine packed.follow.cut_last ?_ ?_ ?_ ?_ ?_ fun u member => ?_
    · rw [vmaArea]
    · rw [vmaArea]
      exact Nat.le_add_right _ _
    · rw [vmaArea, buddyArea, splitRest]
    · rw [buddyArea, splitRest]
      simp only
      omega
    · rw [buddyArea, splitRest]
    · rw [otherArea u member]
      exact ⟨rfl, rfl⟩
  · intro u member
    rw [otherArea u member]
    exact packed.inUse u member
  · intro k low u member
    rcases mem_insert_iff.mp member with ⟨-, rfl⟩ | old
    · exact .inr rfl
    · exact .inl (Option.some.inj (packed.listed k low u old)).symm
  · intro u member
    rcases List.mem_append.mp member with old | eq
    · exact List.mem_cons_of_mem _ (packed.owned u old)
    · rw [List.mem_singleton.mp eq]
      exact List.mem_cons_self

theorem Packed.alloc_cases {garbage vmaBuddy result : Option Nat} (packed : Packed s used rest f)
    (unlocked : s.vmaLock = false) (fresh : ∀ u, vmaBuddy = some u → u ∉ s.heap)
    (done : allocVma s len garbage vmaBuddy newNode = .ok (s', result)) :
    (s' = s ∧ ((chosenVma s len).isSome = true → result = none)) ∨
      ∃ vma i s2, rest = some vma ∧ result = some vma ∧ s' = s2.spinUnlock ∧ i ≤ maxVmaOrder ∧
        vma ∈ f i ∧ (s.area vma).free = true ∧ len ≤ vmaLength s vma ∧
          ((∃ buddy, vmaBuddy = some buddy ∧ len + pageSize ≤ vmaLength s vma ∧
              splitOrder s vma len ≤ maxVmaOrder ∧
                takeVma (splitState { s with vmaLock := true } vma buddy len) vma newNode =
                  .ok s2) ∨
            takeVma { s with vmaLock := true } vma newNode = .ok s2) := by
  obtain ⟨none, rfl, rfl⟩ | ⟨i, vma, found, next, free, room, way⟩ := allocVma_cases unlocked done
  · refine .inl ⟨rfl, fun some' => ?_⟩
    simp [chosenVma, none] at some'
  obtain ⟨rfl, small, mem⟩ := packed.found found next
  obtain ⟨low, order, high, length⟩ := packed.last
  simp only [vmallocStart, vmallocEnd, kernelVirtBase, pageSize] at low high
  obtain ⟨rfl, rfl⟩ |
    ⟨buddy, s1, s2, rfl, long, split, take, rfl, rfl⟩ | ⟨s2, take, rfl, rfl⟩ := way
  · exact .inl ⟨rfl, fun _ => rfl⟩
  · have word : (({ s with vmaLock := true } : VmState).area vma).start + len < 2 ^ 32 := by
      simp only
      omega
    have sum : len + pageSize < 2 ^ 32 := by
      simp only [pageSize]
      omega
    rw [Nat.mod_eq_of_lt sum] at long
    obtain ⟨order, rfl⟩ := splitVma_ok (packed.fresh (fresh buddy rfl)).2 word split
    exact .inr ⟨vma, i, s2, rfl, rfl, rfl, small, mem, free, room,
      .inl ⟨buddy, rfl, long, order, take⟩⟩
  · exact .inr ⟨vma, i, s2, rfl, rfl, rfl, small, mem, free, room, .inr take⟩

private theorem Packed.take_whole {i : Nat} (packed : Packed s used (some vma) f)
    (small : i ≤ maxVmaOrder)
    (mem : vma ∈ f i) (done : takeVma s vma newNode = .ok s') :
    Packed s' (used ++ [vma]) none (Function.update f i ((f i).erase vma)) :=
  Packed.take (by simpa using packed.ring) (by simpa using packed.follow) packed.inUse packed.lists
    (fun k low u old => .inl (Option.some.inj (packed.listed k low u old)).symm) small mem
    (by simpa using packed.owned) done

def TreeUpTo (s : VmState) (limit : Nat) : Prop :=
  ∀ tree, s.vmaTree = some tree → ∀ j ∈ contents tree, j.stop < limit

private theorem takeVma_upTo (held : TreeHeld s) (fresh : Fresh s.vmaTree newNode)
    (upTo : TreeUpTo s (s.area vma).start) (order : (s.area vma).start ≤ (s.area vma).stop)
    (positive : 0 < (s.area vma).stop) (word : (s.area vma).stop < 2 ^ 32)
    (done : takeVma s vma newNode = .ok s') : TreeUpTo s' (s.area vma).stop := by
  obtain ⟨tree, nodes, treeEq, holds⟩ := held
  obtain ⟨r, eq, inserted⟩ := takeVma_inserted treeEq holds fresh done
  have old : ∀ u ∈ nodes, u.2.stop < (s.area vma).stop := by
    intro u member
    have stored : intervalOf u.2 ∈ contents tree := by
      rw [holds.contents_eq]
      exact ⟨u, member, rfl⟩
    have inside := upTo tree treeEq _ stored
    simp only [intervalOf] at inside
    omega
  intro tree' treeEq' j stored
  cases inserted with
  | failed =>
    obtain rfl := Option.some.inj (eq.symm.trans treeEq')
    rw [holds.contents_eq] at stored
    obtain ⟨u, member, rfl⟩ := stored
    exact old u member
  | @done t a pre post _ _ _ split holds' =>
    obtain rfl := Option.some.inj (eq.symm.trans treeEq')
    rw [holds'.contents_eq] at stored
    obtain ⟨u, member, rfl⟩ := stored
    rcases List.mem_append.mp member with before | here
    · exact old u (split ▸ List.mem_append_left _ before)
    · rcases List.mem_cons.mp here with rfl | after
      · simp only [intervalOf, wsub_eq positive word]
        omega
      · exact old u (split ▸ List.mem_append_right _ after)

private theorem split_upTo {vmaBuddy : Nat} (held : TreeHeld s) (fresh : Fresh s.vmaTree newNode)
    (upTo : TreeUpTo s (s.area vma).start) (differ : vma ≠ vmaBuddy)
    (positive : 0 < (s.area vma).start + len) (word : (s.area vma).start + len < 2 ^ 32)
    (done : takeVma (splitState s vma vmaBuddy len) vma newNode = .ok s') :
    TreeUpTo s' (s'.area vmaBuddy).start ∧
      (s'.area vmaBuddy).start = (s.area vma).start + len := by
  have vmaArea := splitState_vma s len differ
  have buddyArea : (s'.area vmaBuddy).start = (s.area vma).start + len := by
    obtain ⟨area, -⟩ := takeVma_ok done
    rw [area, Function.update_of_ne differ.symm, Splits.area_buddy, splitRest]
  have heldCut : TreeHeld (splitState s vma vmaBuddy len) := held
  have bound := takeVma_upTo heldCut fresh (vmaArea ▸ upTo)
    (by rw [vmaArea]; exact Nat.le_add_right _ _) (by rwa [vmaArea]) (by rwa [vmaArea]) done
  rw [vmaArea, ← buddyArea] at bound
  exact ⟨bound, buddyArea⟩

/-- The tree stays below what is left of the range, and that starts at a place with the property. -/
def RestOk (P : Nat → Prop) (s : VmState) (rest : Option Nat) : Prop :=
  ∀ r ∈ rest, TreeUpTo s (s.area r).start ∧ P (s.area r).start

private theorem allocVma_packed {P : Nat → Prop} {garbage vmaBuddy result : Option Nat}
    (idle : Idle s)
    (packed : Packed s used rest f) (restOk : RestOk P s rest) (moves : ∀ a, P a → P (a + len))
    (ok : vmOk s (.alloc len garbage vmaBuddy newNode))
    (done : allocVma s len garbage vmaBuddy newNode = .ok (s', result)) :
    ∃ used' rest' f', Packed s' used' rest' f' ∧ RestOk P s' rest' ∧ (∀ u ∈ used, u ∈ used') ∧
        ((chosenVma s len).isSome = true → ∀ u, result = some u → u ∈ used') := by
  obtain ⟨-, fresh, freshNode⟩ := ok
  obtain ⟨rfl, null⟩ | ⟨vma, i, s2, rfl, rfl, rfl, small, mem, -, room, way⟩ :=
    packed.alloc_cases idle.unlocked fresh done
  · refine ⟨used, rest, f, packed, restOk, fun _ => id, fun found u eq => ?_⟩
    rw [null found] at eq
    cases eq
  have result : ∀ u, some vma = some u → u ∈ used ++ [vma] := fun u eq => by
    simp [← Option.some.inj eq]
  have locked := packed.frame true s.vmaTree
  obtain ⟨buddy, rfl, long, order, take⟩ | take := way
  · obtain ⟨f', packed'⟩ := locked.split small mem (fresh buddy rfl) room order take
    refine ⟨_, _, f', packed'.frame false _, ?_, fun u old => List.mem_append_left _ old,
      fun _ => result⟩
    intro r same
    obtain rfl := Option.some.inj same
    obtain ⟨low, upwards, high, length⟩ := packed.last
    simp only [vmallocStart, vmallocEnd, kernelVirtBase, pageSize] at low high
    have held : TreeHeld { s with vmaLock := true } := idle.tree
    obtain ⟨upTo, place⟩ := restOk vma rfl
    have before : TreeUpTo { s with vmaLock := true } (s.area vma).start := upTo
    have positive : 0 < (({ s with vmaLock := true } : VmState).area vma).start + len := by
      simp only
      omega
    have word : (({ s with vmaLock := true } : VmState).area vma).start + len < 2 ^ 32 := by
      simp only
      omega
    obtain ⟨bound, start⟩ :=
      split_upTo held freshNode before (packed.fresh (fresh buddy rfl)).2 positive word take
    have start : (s2.spinUnlock.area buddy).start = (s.area vma).start + len := start
    exact ⟨bound, start ▸ moves _ place⟩
  · exact ⟨_, _, _, (locked.take_whole small mem take).frame false _, by simp [RestOk],
      fun u old => List.mem_append_left _ old, fun _ => result⟩

def RunInv (P : Nat → Prop) (r : AllocRun) : Prop :=
  Idle r.state ∧ ∃ used rest f, Packed r.state used rest f ∧ RestOk P r.state rest ∧
    ∀ u ∈ r.returned, u ∈ used

private theorem allocStep_inv {P : Nat → Prop} {r r' : AllocRun} {call : AllocCall}
    (inv : RunInv P r)
    (ok : allocOk r call) (moves : ∀ a, P a → P (a + call.len))
    (step : allocStep r call = some r') :
    RunInv P r' := by
  obtain ⟨idle, used, rest, f, packed, restOk, returned⟩ := inv
  obtain ⟨⟨s', result⟩, done, rfl⟩ := Option.map_eq_some_iff.mp step
  have done := of_toOption done
  obtain ⟨used', rest', f', packed', restOk', kept, new⟩ :=
    allocVma_packed idle packed restOk moves ok done
  refine ⟨allocVma_idle idle ok.2.2 done, used', rest', f', packed', restOk', fun u member => ?_⟩
  simp only at member
  split_ifs at member with found
  · rcases List.mem_append.mp member with mine | old
    · exact new found u (Option.mem_toList.mp mine)
    · exact kept u (returned u old)
  · exact kept u (returned u member)

private theorem initial_upTo (s : VmState) (vma limit : Nat) : TreeUpTo (initial s vma) limit := by
  obtain ⟨s1, boot, ⟨areas, f, tiled, -, tree, treeEq, stored⟩, -⟩ := vmallocInit_wellFormed s vma
  rw [vmallocInit_eq] at boot
  obtain rfl := Except.ok.inj boot
  obtain rfl := tiled.unique (initial_tiled s vma)
  intro tree' treeEq' j inTree
  obtain rfl := Option.some.inj (treeEq.symm.trans treeEq')
  rw [stored] at inTree
  obtain ⟨u, ⟨member, used⟩, -⟩ := inTree
  rw [List.mem_singleton.mp member, initial_area] at used
  cases used

theorem run_inv {P : Nat → Prop} {ok : AllocRun → AllocCall → Prop} {before booted : VmState}
    {first : Nat} {t : AllocRun} (boot : vmallocInit before (some first) true = .ok booted)
    (lowest : P vmallocStart)
    (guard : ∀ r call, ok r call → allocOk r call ∧ ∀ a, P a → P (a + call.len))
    (run : Run allocStep ok ⟨booted, []⟩ t) : RunInv P t := by
  obtain ⟨s1, boot', -, idle, -⟩ := vmallocInit_wellFormed before first
  obtain rfl := Except.ok.inj (boot.symm.trans boot')
  rw [vmallocInit_eq] at boot
  obtain rfl := Except.ok.inj boot
  have start : RunInv P ⟨initial before first, []⟩ := by
    refine ⟨idle, [], some first, _, initial_packed before first, fun r same => ?_, by simp⟩
    rw [← Option.some.inj same, initial_area]
    exact ⟨initial_upTo before first _, lowest⟩
  exact run.invariant start fun r call r' inv holds step =>
    allocStep_inv inv (guard r call holds).1 (guard r call holds).2 step

/-! ### `free_vma` -/

private theorem absorb_stop {way : Way}
    (stop : ∀ other, neighbour s way vma = some other → (s.area other).free = false) (fuel : Nat) :
    absorb way (fuel + 1) s vma = .ok s := by
  rw [absorb]
  cases found : neighbour s way vma with
  | none => rfl
  | some other => simp [stop other found]

private theorem Packed.prev_inUse (packed : Packed s used rest f) {other : Nat}
    (member : vma ∈ used)
    (found : neighbour s .prev vma = some other) : (s.area other).free = false := by
  obtain ⟨xs, ys, split⟩ := neighbour_some packed.ring (List.mem_append_left _ member) found
  apply packed.inUse
  cases rest with
  | none =>
    have inside : other ∈ used ++ [] := split ▸ by simp
    simpa using inside
  | some r =>
    have inside := congrArg List.dropLast split
    simp only [Option.toList_some, List.dropLast_append_of_ne_nil, ne_eq, reduceCtorEq,
      not_false_eq_true, List.dropLast_singleton, List.append_nil,
      List.dropLast_cons_cons] at inside
    simp [inside]

theorem absorb_last {other : Nat} (packed : Packed s used (some other) f) (member : vma ∈ used)
    (found : neighbour s .next vma = some other) (free : (s.area other).free = true) (fuel : Nat) :
    absorb .next (fuel + 2) s vma = .ok (absorbOne .next s vma other) := by
  obtain ⟨xs, ys, split⟩ := neighbour_some packed.ring (List.mem_append_left _ member) found
  have follow := packed.follow
  rw [split] at follow
  have adjacency : adjacent s vma other .next = true := decide_eq_true follow.meet
  have notUsed : other ∉ used := by
    intro inside
    rw [packed.inUse other inside] at free
    cases free
  have ring : Rings (listRemove s.vmaList (.node other)) Set.univ fun _ => used := by
    have removed := listRemove_rings packed.ring (Set.mem_univ ()) (a := other) (by simp)
    have only : Function.update (fun _ => used ++ (some other).toList) ()
        ((used ++ (some other).toList).erase other) = fun _ => used := by
      funext u
      simp [List.erase_append_right _ notUsed]
    rwa [only] at removed
  rw [absorb, found]
  simp only [free, if_true, Vmalloc.assert, adjacency, ok_bind]
  refine absorb_stop (fun u eq => ?_) _
  obtain ⟨xs', ys', split'⟩ := neighbour_some ring member eq
  rw [absorbOne_free]
  exact packed.inUse u (split' ▸ by simp)

private theorem absorb_next_ok (packed : Packed s used rest f) (member : vma ∈ used) (fuel : Nat) :
    ∃ s', absorb .next (fuel + 2) s vma = .ok s' := by
  cases found : neighbour s .next vma with
  | none => exact ⟨s, absorb_stop (fun other eq => by rw [found] at eq; cases eq) _⟩
  | some other =>
    by_cases free : (s.area other).free = true
    · obtain ⟨xs, ys, split⟩ := neighbour_some packed.ring (List.mem_append_left _ member) found
      have last : rest = some other := by
        have inside : other ∈ used ++ rest.toList := split ▸ by simp
        refine Option.mem_toList.mp ((List.mem_append.mp inside).resolve_left fun old => ?_)
        rw [packed.inUse other old] at free
        cases free
      subst last
      exact ⟨_, absorb_last packed member found free fuel⟩
    · refine ⟨s, absorb_stop (fun u eq => ?_) _⟩
      obtain rfl := Option.some.inj (found.symm.trans eq)
      exact Bool.eq_false_of_not_eq_true free

theorem freeVma_eq {r : Option (RbTree Nat) × Int} {s1 : VmState} (unlocked : s.vmaLock = false)
    (packed : Packed s used rest f) (member : vma ∈ used) (below : (s.area vma).stop < vmallocEnd)
    (removed : rbTreeRemove s.vmaTree (s.area vma).start = .ok r)
    (next : absorb .next loopFuel { s with vmaLock := true, vmaTree := r.1 } vma = .ok s1) :
    freeVma s (some vma) = .ok (s1.setArea vma fun a => { a with free := true }).spinUnlock := by
  have bounds := packed.follow.bounds (List.mem_append_left _ member)
  have passes : Vmalloc.assert (vmallocStart ≤ (s.area vma).start ∧
      (s.area vma).stop < vmallocEnd) =
      .ok () := by
    simp [Vmalloc.assert, bounds.1, below]
  have prev : absorb .prev loopFuel { s with vmaLock := true, vmaTree := r.1 } vma =
      .ok { s with vmaLock := true, vmaTree := r.1 } :=
    absorb_stop (fun other => (packed.frame true r.1).prev_inUse member) (2 ^ 32 + 1)
  simp only [freeVma, passes, ok_bind, spinLock_eq unlocked, removed, mapError_ok]
  rw [prev, ok_bind, next, ok_bind]
  rfl

private theorem freeVma_packed (idle : Idle s) (packed : Packed s used rest f) (member : vma ∈ used)
    (below : (s.area vma).stop < vmallocEnd) : ∃ s', freeVma s (some vma) = .ok s' := by
  obtain ⟨unlocked, tree, nodes, treeEq, holds⟩ := idle
  obtain ⟨r, removed, -⟩ := rbTreeRemove_holds holds (s.area vma).start
  obtain ⟨s2, next⟩ := absorb_next_ok (packed.frame true r.1) member (2 ^ 32)
  exact ⟨_, freeVma_eq unlocked packed member below (treeEq ▸ removed) next⟩

theorem freeVma_end (last : (s.area vma).stop = vmallocEnd) :
    freeVma s (some vma) = .error .assertion := by
  simp [freeVma, Vmalloc.assert, last]
  rfl

/-- After any run of `alloc_vma` from `vmalloc_init`, `free_vma` of an area that a call returned
passes all its asserts and returns, unless the area ends where the range ends. -/
theorem freeVma_returns_iff {before booted : VmState} {first : Nat} {t : AllocRun}
    (boot : vmallocInit before (some first) true = .ok booted)
    (run : Run allocStep allocOk ⟨booted, []⟩ t) (returned : vma ∈ t.returned) :
    ((∃ s', freeVma t.state (some vma) = .ok s') ↔ (t.state.area vma).stop ≠ vmallocEnd) ∧
      ((t.state.area vma).stop = vmallocEnd → freeVma t.state (some vma) = .error .assertion) := by
  obtain ⟨idle, used, rest, f, packed, -, kept⟩ :=
    run_inv (P := fun _ => True) boot trivial (fun _ _ ok => ⟨ok, fun _ _ => trivial⟩) run
  have member := kept vma returned
  have bounds := packed.follow.bounds (List.mem_append_left _ member)
  refine ⟨⟨?_, fun below => freeVma_packed idle packed member (lt_of_le_of_ne bounds.2.2 below)⟩,
    freeVma_end⟩
  rintro ⟨s', done⟩ last
  rw [freeVma_end last] at done
  cases done

/-! ### The end of the range -/

def allocFits (r : AllocRun) (call : AllocCall) : Bool :=
  call.len < 2 ^ 32 && call.vmaBuddy.all (fun u => u ∉ r.state.heap) &&
    match r.state.vmaTree, call.newNode with
    | some tree, some a => (tree.heap a).isNone
    | _, _ => true

private theorem allocOk_of_fits {r : AllocRun} {call : AllocCall} (fits : allocFits r call = true) :
    allocOk r call := by
  obtain ⟨both, node⟩ := Bool.and_eq_true_iff.mp fits
  obtain ⟨word, buddy⟩ := Bool.and_eq_true_iff.mp both
  refine ⟨of_decide_eq_true word, fun u eq => ?_, fun tree a treeEq eq => ?_⟩
  · rw [eq] at buddy
    exact of_decide_eq_true buddy
  · rw [treeEq, eq] at node
    exact Option.isNone_iff_eq_none.mp node

/-- One page. -/
theorem freeVma_returns_iff_one_page :
    ∃ t, Run allocStep allocOk ⟨initial blank 100, []⟩ t ∧ t.returned = [100] ∧
      ∃ s', freeVma t.state (some 100) = .ok s' := by
  have state : (exec allocStep allocFits ⟨initial blank 100, []⟩
      [⟨pageSize, none, some 200, some 5⟩]).map (fun t => (t.returned, (t.state.area 100).stop)) =
        some ([100], 0x2000) := by decide +kernel
  obtain ⟨t, done, eq⟩ := Option.map_eq_some_iff.mp state
  obtain ⟨returned, stop⟩ := Prod.mk.inj eq
  have run : Run allocStep allocOk ⟨initial blank 100, []⟩ t :=
    (Run.of_exec done).mono fun _ _ => allocOk_of_fits
  refine ⟨t, run, returned, (freeVma_returns_iff (vmallocInit_eq blank 100) run ?_).1.mpr ?_⟩
  · rw [returned]
    exact List.mem_singleton.mpr rfl
  · rw [stop]
    decide

def halvingCalls : List AllocCall :=
  ⟨0x80000000, none, some 200, some 0⟩ ::
    (List.range 18).map fun n => ⟨2 ^ (29 - n), none, some (201 + n), some (Fin.ofNat _ (n + 1))⟩

/-- The last page of the range is handed out, and `free_vma` stops at its first assert. -/
theorem freeVma_halts_last_page :
    ∃ t, Run allocStep allocOk ⟨initial blank 100, []⟩ t ∧ 217 ∈ t.returned ∧
      (t.state.area 217).start = 0xBFFFF000 ∧ (t.state.area 217).stop = 0xC0000000 ∧
        freeVma t.state (some 217) = .error .assertion := by
  have state : (exec allocStep allocFits ⟨initial blank 100, []⟩ halvingCalls).map (fun t =>
      (decide (217 ∈ t.returned), (t.state.area 217).start, (t.state.area 217).stop)) =
        some (true, 0xBFFFF000, 0xC0000000) := by decide +kernel
  obtain ⟨t, done, eq⟩ := Option.map_eq_some_iff.mp state
  obtain ⟨returned, eq⟩ := Prod.mk.inj eq
  obtain ⟨start, stop⟩ := Prod.mk.inj eq
  exact ⟨t, (Run.of_exec done).mono fun _ _ => allocOk_of_fits, of_decide_eq_true returned, start,
    stop, freeVma_end stop⟩

end OhMyOs.Mm.VmallocFrees
