/- GID: OhMyOs/Mm/VmallocSafety
   generality: I
   digest: The representation invariant of mm/vmalloc.c and what its calls do to it. -/

import OhMyOs.Lib.Tiling
import OhMyOs.Libs.RedBlackTreeMap
import OhMyOs.Mm.Vmalloc

set_option autoImplicit false
set_option relaxedAutoImplicit false

namespace OhMyOs.Mm.VmallocSafety

open OhMyOs.Lib.Ring OhMyOs.Lib.Tiling OhMyOs.Lib.Outcome
open OhMyOs.Include.IntrusiveList OhMyOs.Include.Bitops OhMyOs.Include.Memory OhMyOs.Include.Log2
open OhMyOs.Libs.RedBlackTree (RbTree contents Holds rbTreeRemove loopFuel)
open OhMyOs.Mm.Vmalloc

/-! ### The invariant -/

structure Tiled (s : VmState) (areas : List Nat) : Prop where
  ring : Rings s.vmaList Set.univ fun _ => areas
  tiles : Tiles (fun vma => (s.area vma).start) (fun vma => (s.area vma).stop) vmallocStart areas
    vmallocEnd

structure Filed (s : VmState) (areas : List Nat) (f : Nat → List Nat) : Prop where
  rings : Rings s.freeVmaLists {k | k ≤ maxVmaOrder} f
  free_iff : ∀ vma, (vma ∈ areas ∧ (s.area vma).free = true) ↔ ∃ k ≤ maxVmaOrder, vma ∈ f k
  order : ∀ k ≤ maxVmaOrder, ∀ vma ∈ f k, ilog2 (vmaLength s vma >>> pageShift) = k

def vmaInterval (s : VmState) (vma : Nat) : Libs.RedBlackTree.Interval Nat :=
  ⟨(s.area vma).start, (s.area vma).stop - 1, vma⟩

def Mapped (s : VmState) (inTree : Nat → Prop) : Prop :=
  ∃ tree, s.vmaTree = some tree ∧ contents tree = {i | ∃ vma, inTree vma ∧ vmaInterval s vma = i}

/-- The state is as the comments and the code of mm/vmalloc.c expect it between two calls. -/
def WellFormed (s : VmState) : Prop :=
  ∃ areas f, Tiled s areas ∧ Filed s areas f ∧
    Mapped s fun vma => vma ∈ areas ∧ (s.area vma).free = false

def InUse (s : VmState) (vma : Nat) : Prop :=
  ∃ areas, Tiled s areas ∧ vma ∈ areas ∧ (s.area vma).free = false

def Available (s : VmState) (start stop : Nat) : Prop :=
  ∃ f, Rings s.freeVmaLists {k | k ≤ maxVmaOrder} f ∧ ∃ k ≤ maxVmaOrder, ∃ vma ∈ f k,
    (s.area vma).start ≤ start ∧ stop ≤ (s.area vma).stop

variable {s s' : VmState} {areas : List Nat} {f : Nat → List Nat} {vma other : Nat}

theorem assert_ok {expr : Bool} (pass : Vmalloc.assert expr = .ok ()) : expr = true := by
  cases expr with
  | false => cases pass
  | true => rfl

theorem Tiled.nodup (tiled : Tiled s areas) : areas.Nodup := tiled.ring.nodup () trivial

theorem Tiled.unique {areas' : List Nat} (left : Tiled s areas) (right : Tiled s areas') :
    areas = areas' :=
  left.ring.unique right.ring (Set.mem_univ ())

private theorem Tiled.length_lt (tiled : Tiled s areas) : areas.length < loopFuel := by
  have bound := tiled.tiles.length_le
  unfold loopFuel
  simp only [vmallocStart, vmallocEnd, pageSize, kernelVirtBase] at bound
  omega

theorem Mapped.congr {inTree inTree' : Nat → Prop} (mapped : Mapped s inTree)
    (tree : s'.vmaTree = s.vmaTree) (same : ∀ u, inTree u ↔ inTree' u)
    (area : ∀ u, inTree u → s'.area u = s.area u) : Mapped s' inTree' := by
  obtain ⟨t, eq, stored⟩ := mapped
  refine ⟨t, tree.trans eq, ?_⟩
  rw [stored]
  ext i
  refine exists_congr fun u => ?_
  rw [← same u]
  refine and_congr_right fun held => ?_
  rw [vmaInterval, vmaInterval, area u held]

/-! ### Absorbing free neighbours -/

/-- Between two rounds of `free_vma`: the area being freed is out of the tree, and all else is
as in a well-formed state. -/
structure Loose (s : VmState) (vma : Nat) (areas : List Nat) (f : Nat → List Nat) : Prop where
  tiled : Tiled s areas
  member : vma ∈ areas
  inUse : (s.area vma).free = false
  filed : Filed s areas f
  mapped : Mapped s fun u => u ∈ areas ∧ u ≠ vma ∧ (s.area u).free = false

theorem neighbour_some {way : Way} (ring : Rings s.vmaList Set.univ fun _ => areas)
    (member : vma ∈ areas) (found : neighbour s way vma = some other) :
    ∃ xs ys, match way with
      | .prev => areas = xs ++ other :: vma :: ys
      | .next => areas = xs ++ vma :: other :: ys := by
  obtain ⟨pre, post, rfl⟩ := List.append_of_mem member
  cases way with
  | prev =>
    rcases List.eq_nil_or_concat pre with rfl | ⟨xs, x, rfl⟩
    · have head := ring.prev_first (Set.mem_univ ()) rfl
      simp [neighbour, vmaPrev, head, containerOf] at found
    · have split : xs.concat x ++ vma :: post = xs ++ x :: vma :: post := by simp
      have back := (ring.neighbours (Set.mem_univ ()) split).2
      simp only [neighbour, vmaPrev, back, containerOf, Option.some.injEq] at found
      exact ⟨xs, post, found ▸ split⟩
  | next =>
    cases post with
    | nil =>
      have head := ring.next_last (Set.mem_univ ()) rfl
      simp [neighbour, vmaNext, head, containerOf] at found
    | cons y ys =>
      have forth := (ring.neighbours (Set.mem_univ ()) rfl).1
      simp only [neighbour, vmaNext, forth, containerOf, Option.some.injEq] at found
      exact ⟨pre, ys, found ▸ rfl⟩

private theorem absorbOne_of_ne {way : Way} {u : Nat} (differ : u ≠ vma) :
    (absorbOne way s vma other).area u = s.area u := by
  cases way <;> simp [absorbOne, extend, VmState.setArea, differ]

theorem absorbOne_free {way : Way} (u : Nat) :
    ((absorbOne way s vma other).area u).free = (s.area u).free := by
  by_cases same : u = vma
  · cases way <;> simp [absorbOne, extend, VmState.setArea, same]
  · rw [absorbOne_of_ne same]

theorem absorbOne_frame (way : Way) (s : VmState) (vma other : Nat) :
    (absorbOne way s vma other).vmaList = listRemove s.vmaList (.node other) ∧
      (absorbOne way s vma other).freeVmaLists = listRemove s.freeVmaLists (.node other) ∧
        (absorbOne way s vma other).vmaTree = s.vmaTree ∧
          (absorbOne way s vma other).vmaLock = s.vmaLock := by
  cases way <;> exact ⟨rfl, rfl, rfl, rfl⟩

structure Grown (s s' : VmState) (vma : Nat) : Prop where
  start : (s'.area vma).start ≤ (s.area vma).start
  stop : (s.area vma).stop ≤ (s'.area vma).stop
  tree : s'.vmaTree = s.vmaTree

private theorem Grown.trans {s'' : VmState} (first : Grown s s' vma) (second : Grown s' s'' vma) :
    Grown s s'' vma :=
  ⟨second.start.trans first.start, first.stop.trans second.stop, second.tree.trans first.tree⟩

private theorem nodup_neighbours {xs ys : List Nat} {a b : Nat}
    (nodup : (xs ++ a :: b :: ys).Nodup) :
    (xs ++ a :: b :: ys).erase a = xs ++ b :: ys ∧ (xs ++ a :: b :: ys).erase b = xs ++ a :: ys ∧
      ∀ u ∈ xs ++ ys, u ≠ a ∧ u ≠ b := by
  obtain ⟨-, right, apart⟩ := List.nodup_append.mp nodup
  obtain ⟨first, rest⟩ := List.nodup_cons.mp right
  obtain ⟨second, -⟩ := List.nodup_cons.mp rest
  have notA : a ∉ xs := fun clash => apart a clash a (by simp) rfl
  have notB : b ∉ xs := fun clash => apart b clash b (by simp) rfl
  have differ : a ≠ b := fun same => first (by simp [same])
  refine ⟨?_, ?_, fun u member => ?_⟩
  · rw [List.erase_append_right _ notA, List.erase_cons_head]
  · rw [List.erase_append_right _ notB, List.erase_cons_tail (by simpa using differ),
      List.erase_cons_head]
  · rcases List.mem_append.mp member with inXs | inYs
    · exact ⟨fun same => notA (same ▸ inXs), fun same => notB (same ▸ inXs)⟩
    · exact ⟨fun same => first (by simp [← same, inYs]), fun same => second (same ▸ inYs)⟩

private theorem absorb_tiled {way : Way} (tiled : Tiled s areas) (member : vma ∈ areas)
    (found : neighbour s way vma = some other) :
    adjacent s vma other way = true ∧ other ∈ areas ∧
      Tiled (absorbOne way s vma other) (areas.erase other) ∧
        Grown s (absorbOne way s vma other) vma := by
  obtain ⟨xs, ys, split⟩ := neighbour_some tiled.ring member found
  have inside : other ∈ areas := by
    cases way <;> simp [split]
  have ring : Rings (listRemove s.vmaList (.node other)) Set.univ fun _ => areas.erase other := by
    have removed := listRemove_rings tiled.ring (Set.mem_univ ()) inside
    convert removed using 1
    funext u
    simp
  have bounds := tiled.tiles.bounds inside
  have same : ∀ u, u ≠ vma → (absorbOne way s vma other).area u = s.area u :=
    fun u differ => absorbOne_of_ne differ
  cases way with
  | prev =>
    obtain rfl : areas = _ := split
    obtain ⟨erased, -, others⟩ := nodup_neighbours tiled.nodup
    have meet := tiled.tiles.meet
    rw [erased] at ring ⊢
    refine ⟨by simpa [adjacent] using meet, inside, ⟨ring, ?_⟩, ?_, ?_, rfl⟩
    · refine tiled.tiles.join ?_ ?_ fun u rest => ?_
      · simp [absorbOne, extend, VmState.setArea]
      · simp [absorbOne, extend, VmState.setArea]
      · simp only [same u (others u rest).2, and_self]
    · simp [absorbOne, extend, VmState.setArea]
      omega
    · simp [absorbOne, extend, VmState.setArea]
  | next =>
    obtain rfl : areas = _ := split
    obtain ⟨-, erased, others⟩ := nodup_neighbours tiled.nodup
    have meet := tiled.tiles.meet
    rw [erased] at ring ⊢
    refine ⟨by simpa [adjacent] using meet, inside, ⟨ring, ?_⟩, ?_, ?_, rfl⟩
    · refine tiled.tiles.join ?_ ?_ fun u rest => ?_
      · simp [absorbOne, extend, VmState.setArea]
      · simp [absorbOne, extend, VmState.setArea]
      · simp only [same u (others u rest).1, and_self]
    · simp [absorbOne, extend, VmState.setArea]
    · simp [absorbOne, extend, VmState.setArea]
      omega

private theorem Loose.absorb {way : Way} (loose : Loose s vma areas f)
    (found : neighbour s way vma = some other) (free : (s.area other).free = true) :
    adjacent s vma other way = true ∧ other ∈ areas ∧
      Grown s (absorbOne way s vma other) vma ∧
        ∃ f', Loose (absorbOne way s vma other) vma (areas.erase other) f' := by
  obtain ⟨tiled, member, inUse, ⟨rings, free_iff, order⟩, mapped⟩ := loose
  obtain ⟨adjacency, inside, tiled', grown⟩ := absorb_tiled tiled member found
  obtain ⟨k, small, listed⟩ := (free_iff other).mp ⟨inside, free⟩
  have differ : vma ≠ other := fun same => by
    rw [same, free] at inUse
    exact Bool.noConfusion inUse
  have rings' := listRemove_rings rings small listed
  have erased : ∀ u, u ∈ areas.erase other ↔ u ≠ other ∧ u ∈ areas := fun u =>
    tiled.nodup.mem_erase_iff
  have flag : ∀ u, ((absorbOne way s vma other).area u).free = (s.area u).free :=
    absorbOne_free
  have same : ∀ u, u ≠ vma → (absorbOne way s vma other).area u = s.area u :=
    fun u unlike => absorbOne_of_ne unlike
  obtain ⟨-, lists, tree, -⟩ := absorbOne_frame way s vma other
  refine ⟨adjacency, inside, grown, Function.update f k ((f k).erase other), tiled',
    (erased vma).mpr ⟨differ, member⟩, ?_, ⟨?_, ?_, ?_⟩, ?_⟩
  · rw [flag, inUse]
  · rw [lists]
    exact rings'
  · intro u
    rw [erased, flag, and_assoc, free_iff, ← exists_and_left]
    refine exists_congr fun j => ?_
    constructor
    · rintro ⟨unlike, low, mem⟩
      exact ⟨low, (mem_erase_iff rings small listed low).mpr ⟨mem, unlike⟩⟩
    · rintro ⟨low, mem⟩
      obtain ⟨mem, unlike⟩ := (mem_erase_iff rings small listed low).mp mem
      exact ⟨unlike, low, mem⟩
  · intro j low u mem
    obtain ⟨mem, -⟩ := (mem_erase_iff rings small listed low).mp mem
    have isFree := ((free_iff u).mpr ⟨j, low, mem⟩).2
    have unlike : u ≠ vma := fun eq => by simp [eq, inUse] at isFree
    have kept := order j low u mem
    simpa only [vmaLength, same u unlike] using kept
  · refine mapped.congr tree (fun u => ?_) fun u inTree => same u inTree.2.1
    rw [erased, flag]
    constructor
    · rintro ⟨mem, unlike, held⟩
      refine ⟨⟨?_, mem⟩, unlike, held⟩
      rintro rfl
      simp [free] at held
    · rintro ⟨⟨-, mem⟩, unlike, held⟩
      exact ⟨mem, unlike, held⟩

private theorem absorb_loose (way : Way) (fuel : Nat) (loose : Loose s vma areas f)
    (enough : areas.length < fuel) :
    Ensures (absorb way fuel s vma) fun s' => (∃ areas' f', Loose s' vma areas' f') ∧
      Grown s s' vma := by
  induction fuel generalizing s areas f with
  | zero => omega
  | succ fuel ih =>
    rw [absorb]
    cases found : neighbour s way vma with
    | none => exact .ok ⟨⟨areas, f, loose⟩, le_rfl, le_rfl, rfl⟩
    | some other =>
      by_cases free : (s.area other).free = true
      · obtain ⟨adjacency, inside, grown, f', loose'⟩ := loose.absorb found free
        have shorter : (areas.erase other).length < fuel := by
          have nonempty := List.length_pos_of_mem inside
          rw [List.length_erase_of_mem inside]
          omega
        simp only [free, if_true, Vmalloc.assert, adjacency, ok_bind]
        exact (ih loose' shorter).mono fun s' next => ⟨next.1, grown.trans next.2⟩
      · simp only [free]
        exact .ok ⟨⟨areas, f, loose⟩, le_rfl, le_rfl, rfl⟩

/-! ### What `free_vma` leaves behind -/

structure Unfiled (s : VmState) (vma : Nat) (areas : List Nat) (f : Nat → List Nat) : Prop where
  tiled : Tiled s areas
  member : vma ∈ areas
  free : (s.area vma).free = true
  rings : Rings s.freeVmaLists {k | k ≤ maxVmaOrder} f
  missing : ∀ k ≤ maxVmaOrder, vma ∉ f k
  free_iff : ∀ u, u ≠ vma → ((u ∈ areas ∧ (s.area u).free = true) ↔ ∃ k ≤ maxVmaOrder, u ∈ f k)
  order : ∀ k ≤ maxVmaOrder, ∀ u ∈ f k, ilog2 (vmaLength s u >>> pageShift) = k
  mapped : Mapped s fun u => u ∈ areas ∧ (s.area u).free = false

private theorem Loose.unfiled (loose : Loose s vma areas f) :
    Unfiled (s.setArea vma fun a => { a with free := true }).spinUnlock vma areas f := by
  obtain ⟨⟨ring, tiles⟩, member, inUse, ⟨rings, free_iff, order⟩, mapped⟩ := loose
  have same : ∀ u, u ≠ vma → ((s.setArea vma fun a => { a with free := true }).spinUnlock).area u =
      s.area u := fun u differ => Function.update_of_ne differ ..
  have missing : ∀ k ≤ maxVmaOrder, vma ∉ f k := fun k low listed => by
    have free := ((free_iff vma).mpr ⟨k, low, listed⟩).2
    simp [inUse] at free
  refine ⟨⟨ring, tiles.congr fun u _ => ?_⟩, member, ?_, rings, missing, fun u differ => ?_,
    fun k low u listed => ?_, mapped.congr rfl (fun u => ?_) fun u held => same u held.2.1⟩
  · by_cases differ : u = vma
    · simp [differ, VmState.setArea, VmState.spinUnlock]
    · rw [same u differ]
      exact ⟨rfl, rfl⟩
  · simp [VmState.setArea, VmState.spinUnlock]
  · rw [same u differ]
    exact free_iff u
  · have differ : u ≠ vma := fun eq => missing k low (eq ▸ listed)
    simpa only [vmaLength, same u differ] using order k low u listed
  · by_cases differ : u = vma
    · simp [differ, VmState.setArea, VmState.spinUnlock]
    · rw [same u differ]
      simp [differ]

theorem Unfiled.not_wellFormed (unfiled : Unfiled s vma areas f) : ¬ WellFormed s := by
  rintro ⟨areas', f', tiled', filed', -⟩
  obtain rfl := unfiled.tiled.unique tiled'
  obtain ⟨k, low, listed⟩ := (filed'.free_iff vma).mp ⟨unfiled.member, unfiled.free⟩
  rw [← unfiled.rings.unique filed'.rings low] at listed
  exact unfiled.missing k low listed

theorem Unfiled.not_available (unfiled : Unfiled s vma areas f) {start stop : Nat}
    (low : (s.area vma).start ≤ start) (nonempty : start < stop)
    (high : stop ≤ (s.area vma).stop) : ¬ Available s start stop := by
  rintro ⟨f', rings', k, small, u, listed, first, last⟩
  rw [← unfiled.rings.unique rings' small] at listed
  have differ : u ≠ vma := fun eq => unfiled.missing k small (eq ▸ listed)
  have member := ((unfiled.free_iff u differ).mpr ⟨k, small, listed⟩).1
  have apart := unfiled.tiled.tiles.apart member unfiled.member differ
  omega

theorem spinLock_eq (unlocked : s.vmaLock = false) :
    s.spinLock = .ok { s with vmaLock := true } := by
  simp [VmState.spinLock, unlocked]

structure Idle (s : VmState) : Prop where
  unlocked : s.vmaLock = false
  tree : ∃ tree nodes, s.vmaTree = some tree ∧ Holds tree nodes

theorem freeVma_unfiled (idle : Idle s) (wf : WellFormed s) (mine : InUse s vma)
    (below : (s.area vma).stop < vmallocEnd) :
    Ensures (freeVma s (some vma)) fun s' => Idle s' ∧
      (s'.area vma).start ≤ (s.area vma).start ∧ (s.area vma).stop ≤ (s'.area vma).stop ∧
        ∃ areas f, Unfiled s' vma areas f := by
  obtain ⟨areas, f, tiled, filed, tree, treeEq, stored⟩ := wf
  obtain ⟨areas', tiled', member, inUse⟩ := mine
  obtain rfl := tiled.unique tiled'
  obtain ⟨unlocked, tree', nodes, treeEq', holds⟩ := idle
  obtain rfl : tree = tree' := Option.some.inj (treeEq.symm.trans treeEq')
  have bounds := tiled.tiles.bounds member
  have passes : Vmalloc.assert (vmallocStart ≤ (s.area vma).start ∧
      (s.area vma).stop < vmallocEnd) =
      .ok () := by
    simp [Vmalloc.assert, bounds.1, below]
  have inside : (vmaInterval s vma).Contains (s.area vma).start := by
    refine ⟨le_rfl, ?_⟩
    simp only [vmaInterval]
    omega
  obtain ⟨t, nodes', removed, holds', left⟩ :=
    holds.remove (stored ▸ ⟨vma, ⟨member, inUse⟩, rfl⟩) inside
  let s1 : VmState := { s with vmaLock := true, vmaTree := some t }
  have loose : Loose s1 vma areas f := by
    refine ⟨⟨tiled.ring, tiled.tiles⟩, member, inUse, ⟨filed.rings, filed.free_iff, filed.order⟩,
      t, rfl, ?_⟩
    rw [left, stored]
    ext i
    constructor
    · rintro ⟨⟨u, ⟨inAreas, held⟩, rfl⟩, unlike⟩
      exact ⟨u, ⟨inAreas, fun same => unlike (by rw [same]; rfl), held⟩, rfl⟩
    · rintro ⟨u, ⟨inAreas, differ, held⟩, rfl⟩
      exact ⟨⟨u, ⟨inAreas, held⟩, rfl⟩,
        fun same => differ (congrArg Libs.RedBlackTree.Interval.value same)⟩
  have call : freeVma s (some vma) = (absorb .prev loopFuel s1 vma >>= fun s =>
      absorb .next loopFuel s vma >>= fun s =>
        .ok (s.setArea vma fun a => { a with free := true }).spinUnlock) := by
    simp only [freeVma, passes, ok_bind, spinLock_eq unlocked, treeEq, removed, mapError_ok]
    rfl
  rw [call]
  refine Ensures.bind (absorb_loose .prev loopFuel loose tiled.length_lt) ?_
  rintro s2 ⟨⟨areas2, f2, loose2⟩, grown2⟩
  refine Ensures.bind (absorb_loose .next loopFuel loose2 loose2.tiled.length_lt) ?_
  rintro s3 ⟨⟨areas3, f3, loose3⟩, grown3⟩
  have grown := grown2.trans grown3
  refine .ok ⟨⟨rfl, ?_⟩, ?_, ?_, areas3, f3, loose3.unfiled⟩
  · exact ⟨t, nodes', grown.tree, holds'⟩
  · simpa [VmState.setArea, VmState.spinUnlock] using grown.start
  · simpa [VmState.setArea, VmState.spinUnlock] using grown.stop

end OhMyOs.Mm.VmallocSafety
