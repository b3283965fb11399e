/- GID: OhMyOs/Kernel/DebugSymbols
   generality: I
   digest: The symbol trees that debug_init of kernel/debug.c builds from the STAB table. -/

import OhMyOs.Libs.RedBlackTreeCalls

set_option autoImplicit false
set_option relaxedAutoImplicit false

namespace OhMyOs.Kernel.DebugSymbols

open OhMyOs.Lib.Outcome OhMyOs.Libs.RedBlackTree

/-! ### The code -/

def nFun : BitVec 8 := 0x24
def nSo : BitVec 8 := 0x64

structure Stab where
  strx : BitVec 32
  type : BitVec 8
  value : BitVec 32
  deriving DecidableEq

/-- The variables of `debug_init`. A pointer into the table is an index, with the entry there. -/
structure DebugState where
  stabSoTree : Option (RbTree Nat)
  stabFunTree : Option (RbTree Nat)
  prevSoStab : Option (Nat × Stab)
  prevFunStab : Option (Nat × Stab)

def isSo (stab : Stab) : Bool := stab.type == nSo && stab.strx != 0

def isFun (stab : Stab) : Bool := stab.type == nFun

/-- `if (prev) rb_tree_insert(tree, prev->n_value, stop, prev);` -/
def insertPrev (tree : Option (RbTree Nat)) (prev : Option (Nat × Stab)) (stop : BitVec 32)
    (newNode : Ptr) : Except Fault (Option (RbTree Nat)) :=
  match prev with
  | none => .ok tree
  | some (i, stab) => do return (← rbTreeInsert tree stab.value.toNat stop.toNat i newNode).1

def debugRound (kmalloc : Nat → Ptr) (s : DebugState) (i : Nat) (stab : Stab) :
    Except Fault DebugState := do
  let s ← (if isSo stab then do
      let tree ← insertPrev s.stabSoTree s.prevSoStab (stab.value - 1) (kmalloc i)
      return { s with stabSoTree := tree, prevSoStab := some (i, stab) }
    else .ok s)
  if isFun stab then do
    let tree ← insertPrev s.stabFunTree s.prevFunStab (stab.value - 1) (kmalloc i)
    return { s with stabFunTree := tree, prevFunStab := some (i, stab) }
  else .ok s

def debugLoop (kmalloc : Nat → Ptr) : List Stab → Nat → DebugState → Except Fault DebugState
  | [], _, s => .ok s
  | stab :: rest, i, s => do debugLoop kmalloc rest (i + 1) (← debugRound kmalloc s i stab)

/-- `kmalloc i` is the node that `rb_tree_insert` gets in round `i`, or after the loop; `created`
says whether the two trees are allocated. -/
def debugInit (kmalloc : Nat → Ptr) (created : Bool × Bool) (stabs : List Stab) :
    Except Fault DebugState := do
  let s ← debugLoop kmalloc stabs 0 ⟨rbTreeCreate created.1, rbTreeCreate created.2, none, none⟩
  let soTree ← insertPrev s.stabSoTree s.prevSoStab 0xffffffff (kmalloc stabs.length)
  let funTree ← insertPrev s.stabFunTree s.prevFunStab 0xffffffff (kmalloc (stabs.length + 1))
  return { s with stabSoTree := soTree, stabFunTree := funTree }

/-- `node = rb_tree_search(tree, eip); if (node) stab = rb_node_value(node);` of `dump_eip`. -/
def stabAt (tree : Option (RbTree Nat)) (eip : Nat) : Except Fault (Option Nat) := do
  match tree, ← rbTreeSearch tree eip with
  | some s, some node => return some (← load s (some node)).item.value
  | _, _ => return none

/-! ### What the trees are for -/

section Spec
variable (pick : Stab → Bool) (stabs : List Stab)

/-- Entry `i` is the last one in the table that is picked and has a value up to the address. -/
def Floor (eip i : Nat) : Prop :=
  (∃ stab, stabs[i]? = some stab ∧ pick stab = true ∧ stab.value.toNat ≤ eip) ∧
    ∀ j stab, i < j → stabs[j]? = some stab → pick stab = true → eip < stab.value.toNat

def IsFloor (eip : Nat) (r : Option Nat) : Prop :=
  (∀ i, r = some i ↔ Floor pick stabs eip i) ∧
    (r = none ↔ ∀ stab ∈ stabs, pick stab = true → eip < stab.value.toNat)

def Ascending : Prop :=
  (∀ stab ∈ stabs, pick stab = true → stab.value ≠ 0) ∧
    (stabs.filter pick).Pairwise fun a b => a.value.toNat ≤ b.value.toNat

structure LastPicked (i : Nat) (stab : Stab) : Prop where
  entry : stabs[i]? = some stab
  picked : pick stab = true
  last : ∀ j later, i < j → stabs[j]? = some later → pick later = false

end Spec

variable {pick : Stab → Bool} {stabs : List Stab} {stab prev : Stab} {eip i : Nat}

private theorem getElem?_snoc_iff {j : Nat} {entry : Stab} :
    (stabs ++ [stab])[j]? = some entry ↔
      stabs[j]? = some entry ∨ (j = stabs.length ∧ entry = stab) := by
  rcases Nat.lt_trichotomy j stabs.length with inside | rfl | beyond
  · rw [List.getElem?_append_left inside]
    exact (or_iff_left fun both => absurd both.1 (by omega)).symm
  · simp [eq_comm]
  · rw [List.getElem?_eq_none (by simp; omega), List.getElem?_eq_none (by omega)]
    exact iff_of_false (by simp) fun either => either.elim (by simp) fun both => by omega

private theorem floor_snoc (skip : pick stab = true → eip < stab.value.toNat) :
    Floor pick (stabs ++ [stab]) eip i ↔ Floor pick stabs eip i := by
  unfold Floor
  constructor
  · rintro ⟨⟨entry, at_i, picked, low⟩, later⟩
    refine ⟨⟨entry, ?_, picked, low⟩, fun j other above here => ?_⟩
    · rcases getElem?_snoc_iff.mp at_i with old | ⟨-, rfl⟩
      · exact old
      · exact absurd (skip picked) (by omega)
    · exact later j other above (getElem?_snoc_iff.mpr (.inl here))
  · rintro ⟨⟨entry, at_i, picked, low⟩, later⟩
    refine ⟨⟨entry, getElem?_snoc_iff.mpr (.inl at_i), picked, low⟩, ?_⟩
    intro j other above here picked'
    rcases getElem?_snoc_iff.mp here with old | ⟨-, rfl⟩
    · exact later j other above old picked'
    · exact skip picked'

private theorem LastPicked.floor_iff (last : LastPicked pick stabs i prev)
    (le : prev.value.toNat ≤ eip)
    (j : Nat) : Floor pick stabs eip j ↔ j = i := by
  constructor
  · rintro ⟨⟨entry, here, picked, -⟩, later⟩
    by_contra differ
    rcases Nat.lt_or_gt_of_ne differ with before | behind
    · have above := later i prev before last.entry last.picked
      omega
    · rw [last.last j entry behind here] at picked
      cases picked
  · rintro rfl
    refine ⟨⟨prev, last.entry, last.picked, le⟩, fun k later above here picked => ?_⟩
    rw [last.last k later above here] at picked
    cases picked

private theorem LastPicked.snoc (last : LastPicked pick stabs i prev) (other : pick stab = false) :
    LastPicked pick (stabs ++ [stab]) i prev := by
  refine ⟨getElem?_snoc_iff.mpr (.inl last.entry), last.picked, fun j later above here => ?_⟩
  rcases getElem?_snoc_iff.mp here with old | ⟨-, rfl⟩
  · exact last.last j later above old
  · exact other

private theorem lastPicked_self (picked : pick stab = true) :
    LastPicked pick (stabs ++ [stab]) stabs.length stab := by
  refine ⟨getElem?_snoc_iff.mpr (.inr ⟨rfl, rfl⟩), picked, fun j later above here => ?_⟩
  have bound := (List.getElem?_eq_some_iff.mp here).1
  rw [List.length_append, List.length_singleton] at bound
  omega

private theorem exists_floor_iff :
    (∃ i, Floor pick stabs eip i) ↔ ∃ stab ∈ stabs, pick stab = true ∧ stab.value.toNat ≤ eip := by
  constructor
  · rintro ⟨i, ⟨entry, here, picked, low⟩, -⟩
    exact ⟨entry, List.mem_of_getElem? here, picked, low⟩
  · intro some
    induction stabs using List.reverseRecOn with
    | nil => simp at some
    | append_singleton stabs stab ih =>
      by_cases counts : pick stab = true ∧ stab.value.toNat ≤ eip
      · exact ⟨stabs.length, ((lastPicked_self counts.1).floor_iff counts.2 _).mpr rfl⟩
      · obtain ⟨entry, member, picked, low⟩ := some
        rcases List.mem_append.mp member with old | new
        · obtain ⟨i, floor⟩ := ih ⟨entry, old, picked, low⟩
          exact ⟨i, (floor_snoc fun picked => by_contra fun le =>
            counts ⟨picked, Nat.le_of_not_lt le⟩).mpr floor⟩
        · obtain rfl := List.mem_singleton.mp new
          exact absurd ⟨picked, low⟩ counts

private theorem isFloor_of_iff {r : Option Nat} (same : ∀ i, r = some i ↔ Floor pick stabs eip i) :
    IsFloor pick stabs eip r := by
  refine ⟨same, ?_⟩
  have none_iff : r = none ↔ ¬ ∃ i, Floor pick stabs eip i := by
    rw [Option.eq_none_iff_forall_ne_some, not_exists]
    exact forall_congr' fun i => not_congr (same i)
  rw [none_iff, exists_floor_iff]
  simp

private theorem Ascending.init (ascending : Ascending pick (stabs ++ [stab])) :
    Ascending pick stabs := by
  obtain ⟨positive, sorted⟩ := ascending
  rw [List.filter_append] at sorted
  exact ⟨fun entry member => positive entry (List.mem_append_left _ member),
    (List.pairwise_append.mp sorted).1⟩

private theorem Ascending.next (ascending : Ascending pick (stabs ++ [stab]))
    (picked : pick stab = true) :
    stab.value ≠ 0 ∧
      ∀ i prev, LastPicked pick stabs i prev → prev.value.toNat ≤ stab.value.toNat := by
  obtain ⟨positive, sorted⟩ := ascending
  refine ⟨positive stab (by simp) picked, fun i prev last => ?_⟩
  rw [List.filter_append] at sorted
  have member : prev ∈ stabs.filter pick :=
    List.mem_filter.mpr ⟨List.mem_of_getElem? last.entry, last.picked⟩
  exact (List.pairwise_append.mp sorted).2.2 prev member stab (by simp [picked])

/-! ### Searches -/

def Known (s : RbTree Nat) (bound : Nat) (answer : Nat → Nat → Prop) : Prop :=
  ∃ nodes, Holds s nodes ∧ (∀ u ∈ nodes, u.2.stop < bound) ∧
    ∀ key < bound, ∀ i, (nodes.find? (covers key)).map (fun u => u.2.value) = some i ↔ answer key i

section Known
variable {s : RbTree Nat} {bound key : Nat} {answer answer' : Nat → Nat → Prop} {a : Addr}

private theorem Known.congr (known : Known s bound answer)
    (same : ∀ key < bound, ∀ i, answer key i ↔ answer' key i) : Known s bound answer' := by
  obtain ⟨nodes, holds, below, found⟩ := known
  exact ⟨nodes, holds, below, fun key low i => (found key low i).trans (same key low i)⟩

private theorem known_empty (empty : Holds s []) (others : ∀ stab ∈ stabs, pick stab = false) :
    Known s bound (Floor pick stabs) := by
  refine ⟨[], empty, by simp, fun key low i => iff_of_false (by simp) fun floor => ?_⟩
  obtain ⟨⟨entry, here, picked, -⟩, -⟩ := floor
  rw [others entry (List.mem_of_getElem? here)] at picked
  cases picked

private theorem find_interval {pre post : List (Addr × Item Nat)} {u : Addr × Item Nat}
    (above : ∀ v ∈ pre, v.2.stop < u.2.start) (low : key ≤ u.2.stop) :
    (pre ++ u :: post).find? (covers key) =
      if key < u.2.start then (pre ++ post).find? (covers key) else some u := by
  rw [List.find?_append, List.find?_append]
  split_ifs with before
  · have outside : ¬ covers key u = true := by
      simp only [covers, decide_eq_true_iff]
      omega
    rw [List.find?_cons_of_neg outside]
  · have inside : covers key u = true := by
      simp only [covers, decide_eq_true_iff]
      omega
    have others : pre.find? (covers key) = none := by
      refine List.find?_eq_none.mpr fun v member => ?_
      have ends := above v member
      simp only [covers, decide_eq_true_iff]
      omega
    rw [others, List.find?_cons_of_pos inside]
    rfl

private theorem insertPrev_holds {nodes : List (Addr × Item Nat)} (holds : Holds s nodes)
    (free : s.heap a = none) (prevPtr : Option (Nat × Stab)) (stop : BitVec 32) :
    ∃ s', insertPrev (some s) prevPtr stop (some a) = .ok (some s') ∧ (∃ nodes', Holds s' nodes') ∧
      ∀ b, b ≠ a → s.heap b = none → s'.heap b = none := by
  match prevPtr with
  | none => exact ⟨s, rfl, ⟨nodes, holds⟩, fun _ _ unused => unused⟩
  | some (i, prev) =>
    obtain ⟨r, call, inserted⟩ := rbTreeInsert_holds holds prev.value.toNat stop.toNat i (some a)
      fun b same => Option.some.inj same ▸ free
    cases inserted with
    | failed _ =>
      refine ⟨s, ?_, ⟨nodes, holds⟩, fun _ _ unused => unused⟩
      simp only [insertPrev, call, ok_bind, pure_eq_ok]
    | @done s' a' _ _ _ _ allocated _ holds' =>
      obtain rfl := Option.some.inj allocated
      refine ⟨s', ?_, ⟨_, holds'⟩, fun b other unused => rbTreeInsert_keeps call other unused⟩
      simp only [insertPrev, call, ok_bind, pure_eq_ok]

private theorem Known.insertPrev (known : Known s prev.value.toNat answer) {stop : BitVec 32}
    (above : prev.value.toNat ≤ stop.toNat + 1) (free : s.heap a = none)
    (old : ∀ key < prev.value.toNat, ∀ j, answer key j ↔ answer' key j)
    (new : ∀ key, prev.value.toNat ≤ key → ∀ j, answer' key j ↔ j = i) :
    ∃ s', insertPrev (some s) (some (i, prev)) stop (some a) = .ok (some s') ∧
      Known s' (stop.toNat + 1) answer' := by
  obtain ⟨nodes, holds, below, found⟩ := known
  obtain ⟨r, call, inserted⟩ := rbTreeInsert_holds holds prev.value.toNat stop.toNat i (some a)
    fun b same => Option.some.inj same ▸ free
  have clear : ∀ u ∈ nodes, overlaps prev.value.toNat stop.toNat u = false := by
    intro u member
    have ends := below u member
    simp only [overlaps, decide_eq_false_iff_not]
    omega
  cases inserted with
  | failed cause =>
    have empty : stop.toNat < prev.value.toNat := by
      rcases cause with reversed | ⟨u, member, overlap⟩ | missing
      · exact reversed
      · rw [clear u member] at overlap
        cases overlap
      · cases missing
    obtain same : prev.value.toNat = stop.toNat + 1 := by omega
    refine ⟨s, ?_, nodes, holds, same ▸ below, fun key low j => ?_⟩
    · simp only [DebugSymbols.insertPrev, call, ok_bind, pure_eq_ok]
    · exact (found key (by omega) j).trans (old key (by omega) j)
  | @done s' a pre post valid apart allocated split holds' =>
    obtain rfl := Option.some.inj allocated
    refine ⟨s', ?_, _, holds', fun u member => ?_, fun key low j => ?_⟩
    · simp only [DebugSymbols.insertPrev, call, ok_bind, pure_eq_ok]
    · rcases List.mem_append.mp member with inPre | inRest
      · have ends := below u (split ▸ List.mem_append_left _ inPre)
        omega
      · rcases List.mem_cons.mp inRest with rfl | inPost
        · exact Nat.lt_succ_self _
        · have ends := below u (split ▸ List.mem_append_right _ inPost)
          omega
    · rw [find_interval (fun v member => below v (split ▸ List.mem_append_left _ member))
        (Nat.le_of_lt_succ low), ← split]
      by_cases before : key < prev.value.toNat
      · rw [if_pos before]
        exact (found key before j).trans (old key before j)
      · rw [if_neg before, Option.map_some, Option.some.injEq,
          new key (Nat.le_of_not_lt before), eq_comm]

private theorem Known.stabAt (known : Known s bound (Floor pick stabs)) (low : eip < bound) :
    ∃ r, stabAt (some s) eip = .ok r ∧ IsFloor pick stabs eip r := by
  obtain ⟨nodes, holds, -, found⟩ := known
  refine ⟨(nodes.find? (covers eip)).map fun u => u.2.value, ?_, isFloor_of_iff (found eip low)⟩
  rw [DebugSymbols.stabAt, rbTreeSearch_holds holds, ok_bind]
  cases hit : nodes.find? (covers eip) with
  | none => rfl
  | some u =>
    obtain ⟨⟨t, rep, rfl, -⟩, -⟩ := holds
    obtain ⟨n, cell, item⟩ := rep.shows.cell_of_mem (List.mem_of_find?_eq_some hit)
    simp only [Option.map_some, load_some cell, ok_bind, pure_eq_ok, item]

end Known

/-! ### The loop -/

/-- The tree of one kind after the entries `done`. Nodes for later rounds are not in use; if the
values ascend, searches below the last picked entry find the floor. -/
structure Tracks (pick : Stab → Bool) (addr : Nat → Addr) (last : Nat) (done : List Stab)
    (tree : Option (RbTree Nat)) (prev : Option (Nat × Stab)) : Prop where
  tree : ∃ s, tree = some s ∧ (∃ nodes, Holds s nodes) ∧
    (∀ j, done.length ≤ j → j ≤ last → s.heap (addr j) = none) ∧
    (Ascending pick done → match prev with
      | none => Holds s [] ∧ ∀ stab ∈ done, pick stab = false
      | some (i, stab) => LastPicked pick done i stab ∧ Known s stab.value.toNat (Floor pick done))

section Loop
variable {addr : Nat → Addr} {last : Nat} {done : List Stab} {tree : Option (RbTree Nat)}
  {prevPtr : Option (Nat × Stab)}

private theorem Tracks.skip (tracks : Tracks pick addr last done tree prevPtr)
    (other : pick stab = false) :
    Tracks pick addr last (done ++ [stab]) tree prevPtr := by
  obtain ⟨s, rfl, holds, free, exact'⟩ := tracks
  refine ⟨s, rfl, holds, fun j low high => free j ?_ high, fun ascending => ?_⟩
  · simp only [List.length_append, List.length_singleton] at low
    omega
  · have known := exact' ascending.init
    cases prevPtr with
    | none =>
      refine ⟨known.1, fun entry member => ?_⟩
      rcases List.mem_append.mp member with old | new
      · exact known.2 entry old
      · obtain rfl := List.mem_singleton.mp new
        exact other
    | some p =>
      refine ⟨known.1.snoc other, known.2.congr fun key _ i => (floor_snoc fun picked => ?_).symm⟩
      rw [other] at picked
      cases picked

private theorem pred_toNat {v : BitVec 32} (nonzero : v ≠ 0) : (v - 1).toNat + 1 = v.toNat := by
  bv_omega

private theorem Tracks.close {s : RbTree Nat} (tracks : Tracks pick addr last done (some s) prevPtr)
    {a : Addr} (unused : s.heap a = none) (stop : BitVec 32) :
    ∃ s', insertPrev (some s) prevPtr stop (some a) = .ok (some s') ∧ (∃ nodes, Holds s' nodes) ∧
      (∀ b, b ≠ a → s.heap b = none → s'.heap b = none) ∧
      (Ascending pick done →
        (∀ i prev, LastPicked pick done i prev → prev.value.toNat ≤ stop.toNat + 1) →
        Known s' (stop.toNat + 1) (Floor pick done)) := by
  obtain ⟨_, same, ⟨nodes, holds⟩, -, exact'⟩ := tracks
  obtain rfl := Option.some.inj same
  obtain ⟨s', call, holds', keeps⟩ := insertPrev_holds holds unused prevPtr stop
  refine ⟨s', call, holds', keeps, fun ascending above => ?_⟩
  match prevPtr, call, exact' ascending with
  | none, call, ⟨empty, others⟩ =>
    obtain rfl : s = s' := by simpa [insertPrev] using call
    exact known_empty empty others
  | some (i, prev), call, ⟨lastPicked, known⟩ =>
    obtain ⟨s'', call', known'⟩ := known.insertPrev (above i prev lastPicked) unused
      (fun _ _ _ => Iff.rfl) fun key low j => lastPicked.floor_iff low j
    obtain rfl : s' = s'' := by simpa using call.symm.trans call'
    exact known'

private theorem Tracks.take (tracks : Tracks pick addr last done tree prevPtr)
    (picked : pick stab = true)
    (room : done.length ≤ last) (distinct : ∀ i ≤ last, ∀ j ≤ last, addr i = addr j → i = j) :
    ∃ tree', insertPrev tree prevPtr (stab.value - 1) (some (addr done.length)) = .ok tree' ∧
      Tracks pick addr last (done ++ [stab]) tree' (some (done.length, stab)) := by
  obtain ⟨s, rfl, -, free, -⟩ := tracks.tree
  obtain ⟨s', call, holds', keeps, known⟩ :=
    tracks.close (free done.length (Nat.le_refl _) room) (stab.value - 1)
  refine ⟨some s', call, s', rfl, holds', fun j low high => ?_, fun ascending => ?_⟩
  · rw [List.length_append, List.length_singleton] at low
    refine keeps _ (fun same => ?_) (free j (by omega) high)
    have := distinct j high _ room same
    omega
  · obtain ⟨nonzero, sorted⟩ := ascending.next picked
    rw [pred_toNat nonzero] at known
    refine ⟨lastPicked_self picked, ?_⟩
    exact (known ascending.init sorted).congr fun key low j => (floor_snoc fun _ => low).symm

private theorem Tracks.finish (tracks : Tracks pick addr last done tree prevPtr) {j : Nat}
    (low : done.length ≤ j) (high : j ≤ last) :
    ∃ s, insertPrev tree prevPtr 0xffffffff (some (addr j)) = .ok (some s) ∧
      (Ascending pick done → Known s (2 ^ 32) (Floor pick done)) := by
  obtain ⟨s, rfl, -, free, -⟩ := tracks.tree
  obtain ⟨s', call, -, -, known⟩ := tracks.close (free j low high) 0xffffffff
  refine ⟨s', call, fun ascending => known ascending fun i prev _ => ?_⟩
  bv_omega

def Both (addr : Nat → Addr) (last : Nat) (done : List Stab) (s : DebugState) : Prop :=
  Tracks isSo addr last done s.stabSoTree s.prevSoStab ∧
    Tracks isFun addr last done s.stabFunTree s.prevFunStab

private theorem debugRound_both {s : DebugState} (both : Both addr last done s) (stab : Stab)
    (room : done.length ≤ last) (distinct : ∀ i ≤ last, ∀ j ≤ last, addr i = addr j → i = j) :
    Ensures (debugRound (fun i => some (addr i)) s done.length stab)
      (Both addr last (done ++ [stab])) := by
  obtain ⟨so, fn⟩ := both
  have first : Ensures (if isSo stab then do
      let tree ← insertPrev s.stabSoTree s.prevSoStab (stab.value - 1) (some (addr done.length))
      return { s with stabSoTree := tree, prevSoStab := some (done.length, stab) }
    else .ok s) fun s' => Tracks isSo addr last (done ++ [stab]) s'.stabSoTree s'.prevSoStab ∧
      s'.stabFunTree = s.stabFunTree ∧ s'.prevFunStab = s.prevFunStab := by
    cases picked : isSo stab with
    | false => exact .ok ⟨so.skip picked, rfl, rfl⟩
    | true =>
      obtain ⟨tree, call, tracks⟩ := so.take picked room distinct
      simp only [if_true, call, ok_bind, pure_eq_ok]
      exact .ok ⟨tracks, rfl, rfl⟩
  refine first.bind fun s' ⟨so', sameTree, samePrev⟩ => ?_
  rw [← sameTree, ← samePrev] at fn
  cases picked : isFun stab with
  | false => exact .ok ⟨so', fn.skip picked⟩
  | true =>
    obtain ⟨tree, call, tracks⟩ := fn.take picked room distinct
    simp only [if_true, call, ok_bind, pure_eq_ok]
    exact .ok ⟨so', tracks⟩

private theorem debugLoop_both (rest : List Stab) {s : DebugState} (both : Both addr last done s)
    (room : done.length + rest.length ≤ last)
    (distinct : ∀ i ≤ last, ∀ j ≤ last, addr i = addr j → i = j) :
    Ensures (debugLoop (fun i => some (addr i)) rest done.length s)
      (Both addr last (done ++ rest)) := by
  induction rest generalizing done s with
  | nil =>
    rw [List.append_nil]
    exact .ok both
  | cons stab rest ih =>
    rw [List.length_cons] at room
    refine (debugRound_both both stab (by omega) distinct).bind fun s' both' => ?_
    have next := ih both' (by simp; omega)
    rwa [List.append_assoc, List.length_append] at next

private theorem tracks_nil : Tracks pick addr last [] (rbTreeCreate true) none :=
  ⟨_, rfl, ⟨[], holds_empty⟩, fun _ _ _ => rfl, fun _ => ⟨holds_empty, by simp⟩⟩

end Loop

/-- For every table, building the trees returns, and in the tree of a kind whose values ascend a
search finds the floor of each address: the last entry up to it, or nothing if there is none. -/
theorem debugInit_floor (stabs : List Stab) (addr : Nat → Addr)
    (distinct : ∀ i ≤ stabs.length + 1, ∀ j ≤ stabs.length + 1, addr i = addr j → i = j) :
    ∃ s, debugInit (fun i => some (addr i)) (true, true) stabs = .ok s ∧
      (Ascending isFun stabs → ∀ eip < 2 ^ 32,
        ∃ r, stabAt s.stabFunTree eip = .ok r ∧ IsFloor isFun stabs eip r) ∧
      (Ascending isSo stabs → ∀ eip < 2 ^ 32,
        ∃ r, stabAt s.stabSoTree eip = .ok r ∧ IsFloor isSo stabs eip r) := by
  have start : Both addr (stabs.length + 1) []
      ⟨rbTreeCreate true, rbTreeCreate true, none, none⟩ := ⟨tracks_nil, tracks_nil⟩
  obtain ⟨s, loop, so, fn⟩ := debugLoop_both stabs start (by simp) distinct
  rw [List.nil_append] at so fn
  obtain ⟨soTree, soCall, soKnown⟩ := so.finish (Nat.le_refl _) (Nat.le_succ _)
  obtain ⟨funTree, funCall, funKnown⟩ := fn.finish (Nat.le_succ _) (Nat.le_refl _)
  refine ⟨{ s with stabSoTree := some soTree, stabFunTree := some funTree }, ?_, ?_, ?_⟩
  · rw [List.length_nil] at loop
    simp only [debugInit, loop, soCall, funCall, ok_bind, pure_eq_ok]
  · intro ascending eip low
    exact (funKnown ascending).stabAt low
  · intro ascending eip low
    exact (soKnown ascending).stabAt low

def repeated : List Stab :=
  [⟨1, nFun, 0x100⟩, ⟨9, nFun, 0x100⟩, ⟨17, nSo, 0x100⟩, ⟨25, nFun, 0x200⟩]

theorem debugInit_floor_repeated :
    ∃ s, debugInit (fun i => some (Fin.ofNat (2 ^ 32) i)) (true, true) repeated = .ok s ∧
      (∃ r, stabAt s.stabFunTree 0x1ff = .ok r ∧ IsFloor isFun repeated 0x1ff r) ∧
      ∃ r, stabAt s.stabSoTree 0xff = .ok r ∧ IsFloor isSo repeated 0xff r := by
  obtain ⟨s, call, inFun, inSo⟩ := debugInit_floor repeated (Fin.ofNat (2 ^ 32)) (by decide)
  refine ⟨s, call, inFun ?_ 0x1ff (by decide), inSo ?_ 0xff (by decide)⟩
  · exact ⟨by decide, by decide⟩
  · exact ⟨by decide, by decide⟩

end OhMyOs.Kernel.DebugSymbols
