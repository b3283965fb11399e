/- GID: OhMyOs/Mm/VmallocAlloc
   generality: I
   digest: vmalloc_init establishes the representation invariant and alloc_vma keeps it. -/

import OhMyOs.Mm.VmallocSafety

set_option autoImplicit false
set_option relaxedAutoImplicit false

namespace OhMyOs.Mm.VmallocSafety

open OhMyOs.Lib.Ring OhMyOs.Lib.Tiling OhMyOs.Lib.Outcome
open OhMyOs.Include.IntrusiveList OhMyOs.Include.Bitops OhMyOs.Include.Memory OhMyOs.Include.Log2
open OhMyOs.Libs.RedBlackTree (RbTree Ptr contents Holds Addr rbTreeInsert loopFuel)
open OhMyOs.Mm.Vmalloc

variable {s s' : VmState} {areas : List Nat} {f : Nat → List Nat} {vma i len : Nat} {a : Addr}

/-- Inside `alloc_vma`: an area on list `i` is chosen, and its length may no longer be the one of
that list. -/
structure Chosen (s : VmState) (vma i : Nat) (areas : List Nat) (f : Nat → List Nat) : Prop where
  tiled : Tiled s areas
  rings : Rings s.freeVmaLists {k | k ≤ maxVmaOrder} f
  free_iff : ∀ u, (u ∈ areas ∧ (s.area u).free = true) ↔ ∃ k ≤ maxVmaOrder, u ∈ f k
  order : ∀ k ≤ maxVmaOrder, ∀ u ∈ f k, u ≠ vma → ilog2 (vmaLength s u >>> pageShift) = k
  small : i ≤ maxVmaOrder
  listed : vma ∈ f i
  mapped : Mapped s fun u => u ∈ areas ∧ (s.area u).free = false

private theorem Chosen.member (chosen : Chosen s vma i areas f) :
    vma ∈ areas ∧ (s.area vma).free = true :=
  (chosen.free_iff vma).mpr ⟨i, chosen.small, chosen.listed⟩

theorem Tiled.bounds (tiled : Tiled s areas) (member : vma ∈ areas) :
    vmallocStart ≤ (s.area vma).start ∧ (s.area vma).start < (s.area vma).stop ∧
      (s.area vma).stop ≤ vmallocEnd :=
  tiled.tiles.bounds member

private theorem Tiled.length_eq (tiled : Tiled s areas) (member : vma ∈ areas) :
    vmaLength s vma = (s.area vma).stop - (s.area vma).start ∧ vmaLength s vma < 0xBFFFF001 := by
  have bounds := tiled.bounds member
  simp only [vmallocStart, vmallocEnd, pageSize, kernelVirtBase] at bounds
  have eq : vmaLength s vma = (s.area vma).stop - (s.area vma).start :=
    wsub_eq (by omega) (by omega)
  exact ⟨eq, by omega⟩

private theorem Tiled.lock (tiled : Tiled s areas) (held : Bool) :
    Tiled { s with vmaLock := held } areas :=
  ⟨tiled.ring, tiled.tiles⟩

private theorem Filed.lock (filed : Filed s areas f) (held : Bool) :
    Filed { s with vmaLock := held } areas f :=
  ⟨filed.rings, filed.free_iff, filed.order⟩

def bytes (s : VmState) (areas : List Nat) (free : Bool) : Set Nat :=
  {b | ∃ u ∈ areas, (s.area u).free = free ∧ b ∈ Set.Ico (s.area u).start (s.area u).stop}

def Whole (s : VmState) (f : Nat → List Nat) : Prop :=
  ∀ k ≤ maxVmaOrder, ∀ u ∈ f k, pageSize ∣ vmaLength s u

/-! ### Taking an area -/

def takenState (s : VmState) (vma : Nat) (tree : RbTree Nat) : VmState :=
  { s with
    area := Function.update s.area vma { s.area vma with free := false }
    freeVmaLists := listRemove s.freeVmaLists (.node vma)
    vmaTree := some tree }

private theorem takenState_self {tree : RbTree Nat} :
    (takenState s vma tree).area vma = { s.area vma with free := false } :=
  Function.update_self ..

private theorem takenState_other {tree : RbTree Nat} {u : Nat} (differ : u ≠ vma) :
    (takenState s vma tree).area u = s.area u :=
  Function.update_of_ne differ ..

private theorem takeVma_eq (chosen : Chosen s vma i areas f) {tree : RbTree Nat}
    {nodes : List (Addr × OhMyOs.Libs.RedBlackTree.Item Nat)} (treeEq : s.vmaTree = some tree)
    (holds : Holds tree nodes) (fresh : tree.heap a = none) :
    ∃ t nodes', takeVma s vma (some a) = .ok (takenState s vma t) ∧ Holds t nodes' ∧
      contents t = insert (vmaInterval s vma) (contents tree) := by
  obtain ⟨member, free⟩ := chosen.member
  have bounds := chosen.tiled.bounds member
  have word : wsub (s.area vma).stop 1 = (s.area vma).stop - 1 := by
    simp only [vmallocStart, vmallocEnd, pageSize, kernelVirtBase] at bounds
    exact wsub_eq (by omega) (by omega)
  obtain ⟨tree', treeEq', stored⟩ := chosen.mapped
  obtain rfl : tree = tree' := Option.some.inj (treeEq.symm.trans treeEq')
  have apart : ∀ j ∈ contents tree, ¬ (vmaInterval s vma).Overlaps j := by
    rw [stored]
    rintro j ⟨u, ⟨inAreas, held⟩, rfl⟩ ⟨low, high⟩
    have differ : u ≠ vma := fun same => by simp [same, free] at held
    have order := chosen.tiled.tiles.apart inAreas member differ
    have nonempty := chosen.tiled.bounds inAreas
    simp only [vmaInterval] at low high
    omega
  obtain ⟨t, nodes', inserted, holds', grows⟩ := holds.insert (vmaInterval s vma) fresh
    (by simp only [vmaInterval]; omega) apart
  refine ⟨t, nodes', ?_, holds', grows⟩
  simp only [vmaInterval] at inserted
  simp [takeVma, VmState.setArea, word, treeEq, inserted, mapError_ok, ok_bind, pure_eq_ok,
    takenState]

namespace Chosen

variable {tree : RbTree Nat}

private theorem taken_tiled (chosen : Chosen s vma i areas f) (t : RbTree Nat) :
    Tiled (takenState s vma t) areas := by
  refine ⟨chosen.tiled.ring, chosen.tiled.tiles.congr fun u _ => ?_⟩
  by_cases differ : u = vma
  · rw [differ, takenState_self]
    exact ⟨rfl, rfl⟩
  · rw [takenState_other differ]
    exact ⟨rfl, rfl⟩

private theorem erased (chosen : Chosen s vma i areas f) {k : Nat} (low : k ≤ maxVmaOrder)
    (u : Nat) :
    u ∈ Function.update f i ((f i).erase vma) k ↔ u ∈ f k ∧ u ≠ vma :=
  mem_erase_iff chosen.rings chosen.small chosen.listed low

private theorem taken_filed (chosen : Chosen s vma i areas f) (t : RbTree Nat) :
    Filed (takenState s vma t) areas (Function.update f i ((f i).erase vma)) := by
  refine ⟨listRemove_rings chosen.rings chosen.small chosen.listed, fun u => ?_, ?_⟩
  · by_cases differ : u = vma
    · subst differ
      rw [takenState_self]
      simp only [Bool.false_eq_true, and_false, false_iff]
      rintro ⟨k, low, mem⟩
      exact ((chosen.erased low u).mp mem).2 rfl
    · rw [takenState_other differ, chosen.free_iff]
      refine exists_congr fun k => and_congr_right fun low => ?_
      rw [chosen.erased low, and_iff_left differ]
  · intro k low u mem
    obtain ⟨mem, differ⟩ := (chosen.erased low u).mp mem
    simpa only [vmaLength, takenState_other differ] using chosen.order k low u mem differ

private theorem taken_mapped (chosen : Chosen s vma i areas f)
    {t : RbTree Nat} (treeEq : s.vmaTree = some tree)
    (grows : contents t = insert (vmaInterval s vma) (contents tree)) :
    Mapped (takenState s vma t) fun u =>
      u ∈ areas ∧ ((takenState s vma t).area u).free = false := by
  obtain ⟨tree', treeEq', stored⟩ := chosen.mapped
  obtain rfl : tree = tree' := Option.some.inj (treeEq.symm.trans treeEq')
  obtain ⟨member, free⟩ := chosen.member
  refine ⟨t, rfl, ?_⟩
  rw [grows, stored]
  ext j
  constructor
  · rintro (rfl | ⟨u, ⟨inAreas, held⟩, rfl⟩)
    · refine ⟨vma, ⟨member, by rw [takenState_self]⟩, ?_⟩
      simp only [vmaInterval, takenState_self]
    · have differ : u ≠ vma := fun eq => by simp [eq, free] at held
      refine ⟨u, ⟨inAreas, by rwa [takenState_other differ]⟩, ?_⟩
      simp only [vmaInterval, takenState_other differ]
  · rintro ⟨u, ⟨inAreas, held⟩, rfl⟩
    by_cases differ : u = vma
    · exact .inl (by simp only [vmaInterval, differ, takenState_self])
    · rw [takenState_other differ] at held
      exact .inr ⟨u, ⟨inAreas, held⟩, by simp only [vmaInterval, takenState_other differ]⟩

private theorem taken_whole (chosen : Chosen s vma i areas f) (t : RbTree Nat) (whole : Whole s f) :
    Whole (takenState s vma t) (Function.update f i ((f i).erase vma)) := by
  intro k low u mem
  obtain ⟨mem, differ⟩ := (chosen.erased low u).mp mem
  rw [vmaLength, takenState_other differ]
  exact whole k low u mem

private theorem taken_free (chosen : Chosen s vma i areas f) (t : RbTree Nat) :
    bytes (takenState s vma t) areas true =
      bytes s areas true \ Set.Ico (s.area vma).start (s.area vma).stop := by
  ext b
  constructor
  · rintro ⟨u, inAreas, free, inside⟩
    have differ : u ≠ vma := fun eq => by simp [eq, takenState_self] at free
    rw [takenState_other differ] at free inside
    refine ⟨⟨u, inAreas, free, inside⟩, fun clash => ?_⟩
    have order := chosen.tiled.tiles.apart inAreas chosen.member.1 differ
    simp only [Set.mem_Ico] at inside clash
    omega
  · rintro ⟨⟨u, inAreas, free, inside⟩, outside⟩
    have differ : u ≠ vma := fun eq => outside (eq ▸ inside)
    exact ⟨u, inAreas, by rwa [takenState_other differ], by rwa [takenState_other differ]⟩

private theorem taken_used (chosen : Chosen s vma i areas f) (t : RbTree Nat) :
    bytes (takenState s vma t) areas false =
      bytes s areas false ∪ Set.Ico (s.area vma).start (s.area vma).stop := by
  ext b
  constructor
  · rintro ⟨u, inAreas, used, inside⟩
    by_cases differ : u = vma
    · rw [differ, takenState_self] at inside
      exact .inr inside
    · rw [takenState_other differ] at used inside
      exact .inl ⟨u, inAreas, used, inside⟩
  · rintro (⟨u, inAreas, used, inside⟩ | inside)
    · have differ : u ≠ vma := fun eq => by simp [eq, chosen.member.2] at used
      exact ⟨u, inAreas, by rwa [takenState_other differ], by rwa [takenState_other differ]⟩
    · exact ⟨vma, chosen.member.1, by rw [takenState_self], by rwa [takenState_self]⟩

end Chosen

/-- What a call that delivers the area leaves behind: it is in use, the bytes it now has were
free, and everything else is as it was. -/
structure Delivered (s s' : VmState) (areas areas' : List Nat) (f' : Nat → List Nat) (vma : Nat) :
    Prop where
  tiled : Tiled s' areas'
  filed : Filed s' areas' f'
  mapped : Mapped s' fun u => u ∈ areas' ∧ (s'.area u).free = false
  idle : Idle s'
  member : vma ∈ areas'
  inUse : (s'.area vma).free = false
  free : bytes s' areas' true =
    bytes s areas true \ Set.Ico (s'.area vma).start (s'.area vma).stop
  used : bytes s' areas' false =
    bytes s areas false ∪ Set.Ico (s'.area vma).start (s'.area vma).stop

private theorem takeVma_delivers (chosen : Chosen s vma i areas f) {tree : RbTree Nat}
    {nodes : List (Addr × OhMyOs.Libs.RedBlackTree.Item Nat)} (treeEq : s.vmaTree = some tree)
    (holds : Holds tree nodes) (fresh : tree.heap a = none) :
    Ensures (takeVma s vma (some a) >>= fun s => .ok (s.spinUnlock, some vma)) fun r =>
      r.2 = some vma ∧ r.1.area vma = { s.area vma with free := false } ∧
        Delivered s r.1 areas areas (Function.update f i ((f i).erase vma)) vma ∧
          (Whole s f → Whole r.1 (Function.update f i ((f i).erase vma))) := by
  obtain ⟨t, nodes', call, holds', grows⟩ := takeVma_eq chosen treeEq holds fresh
  rw [call, ok_bind]
  have area : ((takenState s vma t).spinUnlock).area = (takenState s vma t).area := rfl
  have here : (takenState s vma t).area vma = { s.area vma with free := false } := takenState_self
  have mapped := chosen.taken_mapped treeEq grows
  refine .ok ⟨rfl, here, ⟨(chosen.taken_tiled t).lock false, (chosen.taken_filed t).lock false, ?_,
    ⟨rfl, t, nodes', rfl, holds'⟩, chosen.member.1, by rw [area, here], ?_, ?_⟩,
    chosen.taken_whole t⟩
  · exact mapped.congr rfl (fun _ => Iff.rfl) fun _ _ => rfl
  · rw [area, here]
    exact chosen.taken_free t
  · rw [area, here]
    exact chosen.taken_used t

/-! ### Splitting an area -/

private theorem ilog2_pages_le (tiled : Tiled s areas) (member : vma ∈ areas)
    (page : pageSize ≤ vmaLength s vma) : ilog2 (vmaLength s vma >>> pageShift) ≤ maxVmaOrder := by
  obtain ⟨-, bound⟩ := tiled.length_eq member
  rw [Nat.shiftRight_eq_div_pow]
  simp only [pageSize, pageShift] at *
  obtain ⟨low, -⟩ := ilog2_bounds (n := vmaLength s vma / 2 ^ 12) (by omega) (by omega)
  have less : 2 ^ ilog2 (vmaLength s vma / 2 ^ 12) < 2 ^ 20 := by omega
  exact ((Nat.pow_lt_pow_iff_right Nat.one_lt_two).mp less).le

def splitRest (s : VmState) (vma len : Nat) : VmArea :=
  ⟨(s.area vma).start + len, (s.area vma).stop, true⟩

def splitOrder (s : VmState) (vma len : Nat) : Nat :=
  ilog2 (wsub (splitRest s vma len).stop (splitRest s vma len).start >>> pageShift)

def splitState (s : VmState) (vma vmaBuddy len : Nat) : VmState :=
  { s with
    area := Function.update (Function.update s.area vma
      { s.area vma with stop := (s.area vma).start + len }) vmaBuddy (splitRest s vma len)
    vmaList := listInsert s.vmaList (.node vma) (.node vmaBuddy)
    freeVmaLists := listInsert s.freeVmaLists (.head (splitOrder s vma len)) (.node vmaBuddy)
    heap := vmaBuddy :: s.heap }

theorem splitState_vma {vmaBuddy : Nat} (s : VmState) (len : Nat) (differ : vma ≠ vmaBuddy) :
    (splitState s vma vmaBuddy len).area vma =
      { s.area vma with stop := (s.area vma).start + len } := by
  simp only [splitState, Function.update_of_ne differ, Function.update_self]

theorem splitVma_assert {vmaBuddy : Nat} (differ : vma ≠ vmaBuddy)
    (word : (s.area vma).start + len < 2 ^ 32) :
    splitVma s vma vmaBuddy len =
      (Vmalloc.assert (splitOrder s vma len ≤ maxVmaOrder) >>= fun _ =>
        .ok (splitState s vma vmaBuddy len)) := by
  have sum : ((s.area vma).start + len) % 2 ^ 32 = (s.area vma).start + len :=
    Nat.mod_eq_of_lt word
  have overwritten : ∀ x y z, Function.update (Function.update (Function.update s.area vmaBuddy x)
      vma y) vmaBuddy z = Function.update (Function.update s.area vma y) vmaBuddy z := by
    intro x y z
    rw [Function.update_comm differ.symm, Function.update_idem]
  simp only [splitVma, VmState.setArea, Function.update_of_ne differ, Function.update_self, sum,
    Function.update_of_ne differ.symm, vmaLength, overwritten]
  rfl

/-- The chosen area is longer than `len` bytes by a page or more, and there is an unused struct
for the rest. -/
structure Splits (s : VmState) (vma i : Nat) (areas : List Nat) (f : Nat → List Nat)
    (vmaBuddy len : Nat) : Prop where
  chosen : Chosen s vma i areas f
  positive : 0 < len
  long : len + pageSize ≤ vmaLength s vma
  fresh : vmaBuddy ∉ areas

namespace Splits

variable {vmaBuddy u : Nat} {xs ys : List Nat}

private theorem differ (splits : Splits s vma i areas f vmaBuddy len) : vma ≠ vmaBuddy :=
  fun same => splits.fresh (same ▸ splits.chosen.member.1)

private theorem page_le (splits : Splits s vma i areas f vmaBuddy len) :
    (s.area vma).start + len + pageSize ≤ (s.area vma).stop := by
  have long := splits.long
  have bounds := splits.chosen.tiled.bounds splits.chosen.member.1
  obtain ⟨length, -⟩ := splits.chosen.tiled.length_eq splits.chosen.member.1
  omega

theorem area_buddy : (splitState s vma vmaBuddy len).area vmaBuddy = splitRest s vma len :=
  Function.update_self ..

private theorem area_vma (splits : Splits s vma i areas f vmaBuddy len) :
    (splitState s vma vmaBuddy len).area vma =
      { s.area vma with stop := (s.area vma).start + len } :=
  splitState_vma s len splits.differ

theorem area_other (first : u ≠ vma) (second : u ≠ vmaBuddy) :
    (splitState s vma vmaBuddy len).area u = s.area u := by
  simp only [splitState, Function.update_of_ne second, Function.update_of_ne first]

private theorem free_eq (splits : Splits s vma i areas f vmaBuddy len) (second : u ≠ vmaBuddy) :
    ((splitState s vma vmaBuddy len).area u).free = (s.area u).free := by
  by_cases first : u = vma
  · rw [first, splits.area_vma]
  · rw [area_other first second]

private theorem member_iff (split : areas = xs ++ vma :: ys) :
    u ∈ xs ++ vma :: vmaBuddy :: ys ↔ u = vmaBuddy ∨ u ∈ areas := by
  rw [split]
  simp only [List.mem_append, List.mem_cons]
  tauto

private theorem tiled (splits : Splits s vma i areas f vmaBuddy len)
    (split : areas = xs ++ vma :: ys) :
    Tiled (splitState s vma vmaBuddy len) (xs ++ vma :: vmaBuddy :: ys) := by
  have positive := splits.positive
  have longer := splits.page_le
  have page : 0 < pageSize := by decide
  refine ⟨?_, ?_⟩
  · have inserted := listInsert_after_rings splits.chosen.tiled.ring (Set.mem_univ ()) split
      (a := vmaBuddy) fun _ _ => splits.fresh
    have only : Function.update (fun _ => areas) () (xs ++ vma :: vmaBuddy :: ys) =
        fun _ => xs ++ vma :: vmaBuddy :: ys := by
      funext u
      simp
    rw [only] at inserted
    exact inserted
  · have tiles := splits.chosen.tiled.tiles
    have nodup := splits.chosen.tiled.nodup
    rw [split] at tiles nodup
    refine tiles.cut ?_ ?_ ?_ ?_ ?_ fun u mem => ?_
    · rw [splits.area_vma]
    · rw [splits.area_vma]
      simp only
      omega
    · rw [splits.area_vma, area_buddy, splitRest]
    · rw [area_buddy, splitRest]
      simp only
      omega
    · rw [area_buddy, splitRest]
    · have first : u ≠ vma := by
        rintro rfl
        rw [List.nodup_middle, List.nodup_cons] at nodup
        exact nodup.1 mem
      have second : u ≠ vmaBuddy := by
        rintro rfl
        refine splits.fresh (split ▸ ?_)
        exact List.perm_middle.mem_iff.mpr (List.mem_cons_of_mem vma mem)
      rw [area_other first second]
      exact ⟨rfl, rfl⟩

private theorem order_le (splits : Splits s vma i areas f vmaBuddy len) :
    splitOrder s vma len ≤ maxVmaOrder := by
  obtain ⟨xs, ys, split⟩ := List.append_of_mem splits.chosen.member.1
  have tiled := splits.tiled split
  have inside : vmaBuddy ∈ xs ++ vma :: vmaBuddy :: ys := (member_iff split).mpr (.inl rfl)
  have page : pageSize ≤ vmaLength (splitState s vma vmaBuddy len) vmaBuddy := by
    have longer := splits.page_le
    rw [(tiled.length_eq inside).1, area_buddy, splitRest]
    simp only
    omega
  have low := ilog2_pages_le tiled inside page
  rwa [vmaLength, area_buddy] at low

private theorem splitVma_eq (splits : Splits s vma i areas f vmaBuddy len) :
    splitVma s vma vmaBuddy len = .ok (splitState s vma vmaBuddy len) := by
  have word : (s.area vma).start + len < 2 ^ 32 := by
    have longer := splits.page_le
    have bounds := splits.chosen.tiled.bounds splits.chosen.member.1
    simp only [vmallocEnd, kernelVirtBase] at bounds
    omega
  have passes : Vmalloc.assert (splitOrder s vma len ≤ maxVmaOrder) = .ok () :=
    if_pos (decide_eq_true splits.order_le)
  rw [splitVma_assert splits.differ word, passes, ok_bind]

private theorem after (splits : Splits s vma i areas f vmaBuddy len)
    (split : areas = xs ++ vma :: ys) :
    Chosen (splitState s vma vmaBuddy len) vma i (xs ++ vma :: vmaBuddy :: ys)
      (Function.update f (splitOrder s vma len) (vmaBuddy :: f (splitOrder s vma len))) := by
  have chosen := splits.chosen
  have absent : ∀ j ≤ maxVmaOrder, vmaBuddy ∉ f j := fun j low mem =>
    splits.fresh ((chosen.free_iff vmaBuddy).mpr ⟨j, low, mem⟩).1
  refine ⟨splits.tiled split, listInsert_rings chosen.rings splits.order_le absent, fun u => ?_, ?_,
    chosen.small, mem_insert_iff.mpr (.inr chosen.listed), ?_⟩
  · rw [member_iff split]
    by_cases eq : u = vmaBuddy
    · subst eq
      exact iff_of_true ⟨.inl rfl, by rw [area_buddy, splitRest]⟩
        ⟨_, splits.order_le, mem_insert_iff.mpr (.inl ⟨rfl, rfl⟩)⟩
    · rw [splits.free_eq eq, or_iff_right eq, chosen.free_iff]
      simp only [mem_insert_iff, eq, and_false, false_or]
  · intro j low u mem unlike
    rcases mem_insert_iff.mp mem with ⟨last, rfl⟩ | mem
    · rw [last, vmaLength, area_buddy, splitOrder]
    · have eq : u ≠ vmaBuddy := fun eq => absent j low (eq ▸ mem)
      simpa only [vmaLength, area_other unlike eq] using chosen.order j low u mem unlike
  · refine chosen.mapped.congr rfl (fun u => ?_) fun u held => ?_
    · rw [member_iff split]
      by_cases eq : u = vmaBuddy
      · subst eq
        simp [area_buddy, splitRest, splits.fresh]
      · rw [splits.free_eq eq, or_iff_right eq]
    · have first : u ≠ vma := fun eq => by simp [eq, chosen.member.2] at held
      exact area_other first fun eq => splits.fresh (eq ▸ held.1)

private theorem whole (splits : Splits s vma i areas f vmaBuddy len)
    (split : areas = xs ++ vma :: ys)
    (pages : pageSize ∣ len) (whole : Whole s f) :
    Whole (splitState s vma vmaBuddy len)
      (Function.update f (splitOrder s vma len) (vmaBuddy :: f (splitOrder s vma len))) := by
  have chosen := splits.chosen
  have tiled := splits.tiled split
  have longer := splits.page_le
  have before := whole i chosen.small vma chosen.listed
  rw [(chosen.tiled.length_eq chosen.member.1).1] at before
  intro k low u mem
  rcases mem_insert_iff.mp mem with ⟨-, rfl⟩ | mem
  · rw [(tiled.length_eq ((member_iff split).mpr (.inl rfl))).1, area_buddy, splitRest]
    have rest : (s.area vma).stop - ((s.area vma).start + len) =
        (s.area vma).stop - (s.area vma).start - len := by omega
    rw [rest]
    exact Nat.dvd_sub before pages
  · obtain ⟨inAreas, -⟩ := (chosen.free_iff u).mpr ⟨k, low, mem⟩
    by_cases first : u = vma
    · have inside : vma ∈ xs ++ vma :: vmaBuddy :: ys := by simp
      rw [first, (tiled.length_eq inside).1, splits.area_vma]
      simpa using pages
    · have second : u ≠ vmaBuddy := fun eq => splits.fresh (eq ▸ inAreas)
      rw [vmaLength, area_other first second]
      exact whole k low u mem

private theorem bytes_eq (splits : Splits s vma i areas f vmaBuddy len)
    (split : areas = xs ++ vma :: ys)
    (free : Bool) :
    bytes (splitState s vma vmaBuddy len) (xs ++ vma :: vmaBuddy :: ys) free =
      bytes s areas free := by
  have longer := splits.page_le
  obtain ⟨member, isFree⟩ := splits.chosen.member
  ext b
  constructor
  · rintro ⟨u, inAreas, flag, inside⟩
    by_cases second : u = vmaBuddy
    · rw [second, area_buddy, splitRest] at flag inside
      refine ⟨vma, member, isFree.trans flag, ?_⟩
      simp only [Set.mem_Ico] at inside ⊢
      omega
    · rw [splits.free_eq second] at flag
      have inAreas := ((member_iff split).mp inAreas).resolve_left second
      refine ⟨u, inAreas, flag, ?_⟩
      by_cases first : u = vma
      · rw [first, splits.area_vma] at inside
        rw [first]
        simp only [Set.mem_Ico] at inside ⊢
        omega
      · rwa [area_other first second] at inside
  · rintro ⟨u, inAreas, flag, inside⟩
    have second : u ≠ vmaBuddy := fun eq => splits.fresh (eq ▸ inAreas)
    by_cases above : u = vma ∧ (s.area vma).start + len ≤ b
    · -- the upper part of the area now belongs to the new one
      obtain ⟨rfl, above⟩ := above
      refine ⟨vmaBuddy, (member_iff split).mpr (.inl rfl), ?_, ?_⟩
      · rw [area_buddy, splitRest, ← flag, isFree]
      · rw [area_buddy, splitRest]
        exact ⟨above, inside.2⟩
    · refine ⟨u, (member_iff split).mpr (.inr inAreas), by rwa [splits.free_eq second], ?_⟩
      by_cases first : u = vma
      · rw [first, splits.area_vma]
        rw [first] at inside
        simp only [first, true_and, not_le] at above
        exact ⟨inside.1, above⟩
      · rwa [area_other first second]

end Splits

theorem findOrder_some {order : Nat} (found : findOrder s order = some i) :
    order ≤ i ∧ i ≤ maxVmaOrder ∧ listEmpty s.freeVmaLists (.head i) = false := by
  have member := List.mem_range'_1.mp (List.mem_of_find?_eq_some found)
  have nonempty := List.find?_some found
  refine ⟨member.1, by omega, by simpa using nonempty⟩

theorem le_pages_of_order {m : Nat} (filed : Filed s areas f) (word : m ≤ 2 ^ 32)
    (order : ilog2Roundup m ≤ i) (small : i ≤ maxVmaOrder) (listed : vma ∈ f i) :
    m ≤ vmaLength s vma >>> pageShift := by
  have filedAt := filed.order i small vma listed
  have length : vmaLength s vma < 2 ^ 32 := Nat.mod_lt _ (by decide)
  have bound : vmaLength s vma >>> pageShift ≤ vmaLength s vma := Nat.shiftRight_le _ _
  rcases Nat.eq_zero_or_pos (vmaLength s vma >>> pageShift) with zero | positive
  · -- an area without a page would be filed far behind the last list
    have none : ilog2 0 = 2 ^ 32 - 1 := by decide
    rw [zero, none] at filedAt
    unfold maxVmaOrder at small
    omega
  · exact le_of_ilog2Roundup_le word positive (by omega) (filedAt.symm ▸ order)

private theorem le_vmaLength_of_order (filed : Filed s areas f) (pages : pageSize ∣ len)
    (fits : len < 2 ^ 32) (order : ilog2Roundup (len >>> pageShift) ≤ i) (small : i ≤ maxVmaOrder)
    (listed : vma ∈ f i) : len ≤ vmaLength s vma := by
  have word : len >>> pageShift ≤ len := Nat.shiftRight_le _ _
  have chain := le_pages_of_order filed (by omega) order small listed
  obtain ⟨n, rfl⟩ := pages
  rw [Nat.shiftRight_eq_div_pow, Nat.shiftRight_eq_div_pow] at chain
  simp only [pageShift, pageSize] at chain ⊢
  omega

theorem allocVma_found (garbage vmaBuddy : Option Nat) (newNode : Ptr)
    (unlocked : s.vmaLock = false)
    (found : findOrder s (ilog2Roundup (len >>> pageShift)) = some i)
    (next : containerOf (listNext s.freeVmaLists (.head i)) = some vma)
    (free : (s.area vma).free = true) (long : len ≤ vmaLength s vma) :
    allocVma s len garbage vmaBuddy newNode =
      if (len + pageSize) % 2 ^ 32 ≤ vmaLength s vma then
        match vmaBuddy with
        | none => .ok (s, none)
        | some vmaBuddy => splitVma { s with vmaLock := true } vma vmaBuddy len >>= fun s =>
            takeVma s vma newNode >>= fun s => .ok (s.spinUnlock, some vma)
      else
        takeVma { s with vmaLock := true } vma newNode >>=
          fun s => .ok (s.spinUnlock, some vma) := by
  have locked : findOrder { s with vmaLock := true } (ilog2Roundup (len >>> pageShift)) = some i :=
    found
  have passes : Vmalloc.assert ((s.area vma).free && decide (len ≤ vmaLength s vma)) = .ok () := by
    simp [Vmalloc.assert, free, long]
  have same : vmaLength { s with vmaLock := true } vma = vmaLength s vma := rfl
  have again : { s with vmaLock := true }.spinUnlock = s := by
    rw [VmState.spinUnlock, ← unlocked]
  cases vmaBuddy with
  | none =>
    simp only [allocVma, spinLock_eq unlocked, ok_bind,
      locked, next, passes, same, pure_eq_ok, again]
  | some vmaBuddy =>
    simp only [allocVma, spinLock_eq unlocked, ok_bind, locked, next, passes, same, pure_eq_ok]

private theorem findOrder_chosen (tiled : Tiled s areas) (filed : Filed s areas f)
    (mapped : Mapped s fun vma => vma ∈ areas ∧ (s.area vma).free = false)
    (pages : pageSize ∣ len) (fits : len < 2 ^ 32)
    (found : findOrder s (ilog2Roundup (len >>> pageShift)) = some i) :
    ∃ vma, containerOf (listNext s.freeVmaLists (.head i)) = some vma ∧ len ≤ vmaLength s vma ∧
      Chosen { s with vmaLock := true } vma i areas f := by
  obtain ⟨order, small, nonempty⟩ := findOrder_some found
  have heads : i ∈ {k | k ≤ maxVmaOrder} := small
  obtain ⟨vma, rest, first⟩ := List.exists_cons_of_ne_nil
    (mt (listEmpty_iff filed.rings heads).mpr (by simp [nonempty]))
  have listed : vma ∈ f i := by simp [first]
  refine ⟨vma, ?_, le_vmaLength_of_order filed pages fits order small listed, tiled.lock true,
    filed.rings, filed.free_iff, fun k low u mem _ => filed.order k low u mem, small, listed,
    mapped.congr rfl (fun _ => Iff.rfl) fun _ _ => rfl⟩
  rw [listNext_cons filed.rings heads first]
  rfl

/-- `alloc_vma` of whole pages when some list of sufficient order is not empty and memory is
found: the result lies at the low end of a free area, and has `len` bytes if that was of whole
pages. -/
theorem allocVma_delivers (idle : Idle s) (tiled : Tiled s areas) (filed : Filed s areas f)
    (mapped : Mapped s fun vma => vma ∈ areas ∧ (s.area vma).free = false) (positive : 0 < len)
    (pages : pageSize ∣ len) (fits : len < 2 ^ 32)
    (found : findOrder s (ilog2Roundup (len >>> pageShift)) = some i) (garbage : Option Nat)
    {vmaBuddy : Nat} (fresh : vmaBuddy ∉ areas)
    (freshNode : ∀ tree, s.vmaTree = some tree → tree.heap a = none) :
    Ensures (allocVma s len garbage (some vmaBuddy) (some a)) fun r => ∃ vma areas' f',
      r.2 = some vma ∧ (vma ∈ areas ∧ (s.area vma).free = true) ∧
        (r.1.area vma).start = (s.area vma).start ∧ (r.1.area vma).stop ≤ (s.area vma).stop ∧
          len ≤ (r.1.area vma).stop - (r.1.area vma).start ∧ Delivered s r.1 areas areas' f' vma ∧
            (Whole s f → Whole r.1 f' ∧ (r.1.area vma).stop = (s.area vma).start + len) := by
  obtain ⟨unlocked, tree, nodes, treeEq, holds⟩ := idle
  obtain ⟨vma, next, long, chosen⟩ := findOrder_chosen tiled filed mapped pages fits found
  obtain ⟨member, free⟩ := chosen.member
  obtain ⟨length, bound⟩ := tiled.length_eq member
  have bounds := tiled.bounds member
  have word : (len + pageSize) % 2 ^ 32 = len + pageSize := by
    unfold pageSize
    omega
  rw [allocVma_found garbage _ _ unlocked found next free long, word]
  by_cases split : len + pageSize ≤ vmaLength s vma
  · have splits : Splits { s with vmaLock := true } vma i areas f vmaBuddy len :=
      ⟨chosen, positive, split, fresh⟩
    obtain ⟨xs, ys, parts⟩ := List.append_of_mem member
    simp only [if_pos split]
    rw [splits.splitVma_eq, ok_bind]
    refine (takeVma_delivers (splits.after parts) treeEq holds (freshNode tree treeEq)).mono ?_
    rintro r ⟨result, area, delivered, whole⟩
    rw [splits.area_vma] at area
    have start : (r.1.area vma).start = (s.area vma).start := by rw [area]
    have stop : (r.1.area vma).stop = (s.area vma).start + len := by rw [area]
    refine ⟨vma, xs ++ vma :: vmaBuddy :: ys, _, result, ⟨member, free⟩, start, by omega, by omega,
      ?_, fun before => ⟨whole (splits.whole parts pages before), stop⟩⟩
    have freed := delivered.free
    have used := delivered.used
    rw [splits.bytes_eq parts] at freed used
    exact { delivered with free := freed, used := used }
  · rw [if_neg split]
    refine (takeVma_delivers chosen treeEq holds (freshNode tree treeEq)).mono ?_
    rintro r ⟨result, area, delivered, whole⟩
    have start : (r.1.area vma).start = (s.area vma).start := by rw [area]
    have stop : (r.1.area vma).stop = (s.area vma).stop := by rw [area]
    refine ⟨vma, areas, _, result, ⟨member, free⟩, start, stop.le, by omega,
      { delivered with }, fun before => ⟨whole before, ?_⟩⟩
    -- no whole page is left over
    have exact : vmaLength s vma - len = 0 := by
      refine Nat.eq_zero_of_dvd_of_lt
        (Nat.dvd_sub (before i chosen.small vma chosen.listed) pages) ?_
      omega
    omega

theorem allocVma_wellFormed (idle : Idle s) (wf : WellFormed s) (positive : 0 < len)
    (pages : pageSize ∣ len) (fits : len < 2 ^ 32)
    (found : findOrder s (ilog2Roundup (len >>> pageShift)) = some i) (garbage : Option Nat)
    {vmaBuddy : Nat} (fresh : ∀ areas, Tiled s areas → vmaBuddy ∉ areas)
    (freshNode : ∀ tree, s.vmaTree = some tree → tree.heap a = none) :
    Ensures (allocVma s len garbage (some vmaBuddy) (some a)) fun r => WellFormed r.1 ∧ Idle r.1 ∧
      ∃ vma, r.2 = some vma ∧ InUse r.1 vma ∧ (r.1.area vma).start = (s.area vma).start ∧
        len ≤ (r.1.area vma).stop - (r.1.area vma).start := by
  obtain ⟨areas, f, tiled, filed, mapped⟩ := wf
  refine (allocVma_delivers idle tiled filed mapped positive pages fits found garbage
    (fresh areas tiled) freshNode).mono ?_
  rintro r ⟨vma, areas', f', result, -, start, -, long, delivered, -⟩
  exact ⟨⟨areas', f', delivered.tiled, delivered.filed, delivered.mapped⟩,
    delivered.idle, vma, result,
    ⟨areas', delivered.tiled, delivered.member, delivered.inUse⟩, start, long⟩

/-! ### `vmalloc_init` -/

def initial (s : VmState) (vma : Nat) : VmState :=
  { area := Function.update s.area vma ⟨vmallocStart, vmallocEnd, true⟩
    vmaList := listInsert (listInit s.vmaList (.head ())) (.head ()) (.node vma)
    freeVmaLists := listInsert (initLists s.freeVmaLists) (.head 19) (.node vma)
    vmaTree := some ⟨fun _ => none, 0, none⟩
    vmaLock := false
    heap := vma :: s.heap }

theorem initial_area (s : VmState) (vma : Nat) :
    (initial s vma).area vma = ⟨vmallocStart, vmallocEnd, true⟩ :=
  Function.update_self ..

private theorem initial_order : ilog2 (wsub vmallocEnd vmallocStart >>> pageShift) = 19 := by decide

theorem vmallocInit_eq (s : VmState) (vma : Nat) :
    vmallocInit s (some vma) true = .ok (initial s vma) := by
  simp only [vmallocInit, VmState.setArea, vmaLength, Function.update_self, initial_order]
  rfl

theorem initial_tiled (s : VmState) (vma : Nat) : Tiled (initial s vma) [vma] := by
  have list : Rings (listInit s.vmaList (.head ())) Set.univ fun _ => [] := by
    have none : Rings s.vmaList ∅ fun _ => [] := ⟨by simp, by simp, by simp⟩
    have one := listInit_rings_empty none () (by simp)
    convert one using 1
    ext u
    simp
  refine ⟨?_, ?_⟩
  · have inserted := listInsert_rings list (Set.mem_univ ()) (a := vma) (by simp)
    have only : Function.update (fun _ => []) () [vma] = fun _ => [vma] := by
      funext u
      simp
    rwa [only] at inserted
  · simp [Tiles, initial_area, vmallocStart, vmallocEnd, pageSize, kernelVirtBase]

theorem initial_filed (s : VmState) (vma : Nat) :
    Filed (initial s vma) [vma] (Function.update (fun _ => []) 19 [vma]) := by
  have lists : Rings (initLists s.freeVmaLists) {k | k ≤ maxVmaOrder} fun _ => [] := by
    have rings := listInit_range_rings s.freeVmaLists (maxVmaOrder + 1)
    simpa only [initLists, Nat.lt_succ_iff] using rings
  have filed : ∀ k u, u ∈ Function.update (fun _ => []) 19 [vma] k ↔ k = 19 ∧ u = vma := by
    intro k u
    rw [mem_insert_iff (f := fun _ => [])]
    simp
  refine ⟨?_, fun u => ?_, ?_⟩
  · exact listInsert_rings lists (i := 19) (by decide) (by simp)
  · simp only [List.mem_singleton, filed]
    constructor
    · rintro ⟨rfl, -⟩
      exact ⟨19, by decide, rfl, rfl⟩
    · rintro ⟨k, -, -, rfl⟩
      exact ⟨rfl, by rw [initial_area]⟩
  · intro k _ u mem
    obtain ⟨rfl, rfl⟩ := (filed k u).mp mem
    rw [vmaLength, initial_area, initial_order]

theorem vmallocInit_wellFormed (s : VmState) (vma : Nat) :
    Ensures (vmallocInit s (some vma) true) fun s' => WellFormed s' ∧ Idle s' ∧ Tiled s' [vma] := by
  let tree : RbTree Nat := ⟨fun _ => none, 0, none⟩
  obtain ⟨nodes, holds⟩ : ∃ nodes, Holds tree nodes :=
    OhMyOs.Libs.RedBlackTree.rbTreeCreate_inv true tree rfl
  rw [vmallocInit_eq]
  refine .ok ⟨⟨[vma], _, initial_tiled s vma, initial_filed s vma, tree, rfl, ?_⟩,
    ⟨rfl, tree, nodes, rfl, holds⟩, initial_tiled s vma⟩
  ext j
  refine ⟨?_, ?_⟩
  · rintro ⟨b, n, ⟨-, cell⟩, -⟩
    cases cell
  · rintro ⟨u, ⟨mem, held⟩, -⟩
    obtain rfl := List.mem_singleton.mp mem
    simp [initial_area] at held

end OhMyOs.Mm.VmallocSafety
