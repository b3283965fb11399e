/- GID: OhMyOs/Mm/EarlyHeapRuns
   generality: I
   digest: Whole runs of the early heap; blocks stay apart while merged buddies match. -/

import OhMyOs.Lib.Buddy
import OhMyOs.Lib.Runs
import OhMyOs.Mm.EarlyHeap

set_option autoImplicit false
set_option relaxedAutoImplicit false

namespace OhMyOs.Mm.EarlyHeapRuns

open OhMyOs.Lib.Ring OhMyOs.Lib.Dyadic OhMyOs.Lib.Buddy OhMyOs.Lib.Runs
open OhMyOs.Include.IntrusiveList OhMyOs.Mm.EarlyHeap

def orders : List Nat := List.range (maxOrder + 1)

theorem mem_orders (k : Nat) : k ∈ orders ↔ k ≤ maxOrder := by
  rw [orders, List.mem_range]
  omega

def view (s : HeapState) : Store Nat where
  links := s.links
  order p := (s.blocks p).order
  free p := (s.blocks p).free

def arena : Set Nat := {n | n < 2 ^ maxOrder}

def Tiled (s : HeapState) (hand out : List Block) : Prop :=
  ∃ f, Held orders id (view s) hand out arena f

section FieldLemmas

@[simp] theorem setOrder_free (s : HeapState) (p k q : Nat) :
    ((s.setOrder p k).blocks q).free = (s.blocks q).free := by
  by_cases h : q = p
  · subst h
    simp [HeapState.setOrder]
  · simp [HeapState.setOrder, h]

@[simp] theorem setFree_order (s : HeapState) (p : Nat) (b : Bool) (q : Nat) :
    ((s.setFree p b).blocks q).order = (s.blocks q).order := by
  by_cases h : q = p
  · subst h
    simp [HeapState.setFree]
  · simp [HeapState.setFree, h]

@[simp] theorem setOrder_order_self (s : HeapState) (p k : Nat) :
    ((s.setOrder p k).blocks p).order = k := by
  simp [HeapState.setOrder]

theorem setOrder_order_ne (s : HeapState) {p q : Nat} (k : Nat) (h : q ≠ p) :
    ((s.setOrder p k).blocks q).order = (s.blocks q).order := by
  simp [HeapState.setOrder, h]

@[simp] theorem setFree_free_self (s : HeapState) (p : Nat) (b : Bool) :
    ((s.setFree p b).blocks p).free = b := by
  simp [HeapState.setFree]

private theorem setFree_free_ne (s : HeapState) {p q : Nat} (b : Bool) (h : q ≠ p) :
    ((s.setFree p b).blocks q).free = (s.blocks q).free := by
  simp [HeapState.setFree, h]

theorem assert_true (s : HeapState) {cond : Bool} (h : cond = true) : s.assert cond = s := by
  simp [HeapState.assert, h]

end FieldLemmas

private theorem file_tiled {s : HeapState} {p k : Nat} {hand out : List Block}
    (tiled : Tiled s (⟨p, k⟩ :: hand) out) (order : (s.blocks p).order = k)
    (small : k ≤ maxOrder) :
    Tiled { s.setFree p true with
      links := listInsert (s.setFree p true).links (.head k) (.node p) } hand out := by
  obtain ⟨f, held⟩ := tiled
  refine ⟨_, held.push (i := k) List.nodup_range ((mem_orders k).mpr small) rfl
    ((setFree_order s p true p).trans order) (setFree_free_self s p true) ?_⟩
  intro q h
  exact ⟨setFree_order s p true q, setFree_free_ne s true h⟩

section AllocBlocks

private theorem splitLoop_tiled (order p : Nat) {out : List Block} (fuel : Nat) :
    ∀ (s : HeapState) (k : Nat), Tiled s [⟨p, k⟩] out → (s.blocks p).order = k → order ≤ k →
      k ≤ maxOrder → k ≤ order + fuel →
      Tiled (splitLoop order p fuel s) [⟨p, order⟩] out ∧
        (splitLoop order p fuel s).bugs = s.bugs ∧
        ((splitLoop order p fuel s).blocks p).order = order := by
  induction fuel with
  | zero =>
    intro s k tiled here low _ enough
    obtain rfl : k = order := by omega
    exact ⟨tiled, rfl, here⟩
  | succ fuel ih =>
    intro s k tiled here low small enough
    unfold splitLoop
    by_cases more : order < k
    · obtain ⟨j, rfl⟩ : ∃ j, k = j + 1 := ⟨k - 1, by omega⟩
      have pred : (s.blocks p).order - 1 = j := by omega
      have buddy : blockBuddy (s.setOrder p j) p = p ^^^ 2 ^ j := by
        rw [blockBuddy, setOrder_order_self, Nat.one_shiftLeft]
      rw [if_pos (by omega)]
      simp only [pred, buddy, setOrder_order_self, setFree_order]
      let u := (s.setOrder p j).setOrder (p ^^^ 2 ^ j) j
      -- both halves are in hand, so both order fields may be written
      have halved : ∃ f, Held orders id (view u) [⟨p ^^^ 2 ^ j, j⟩, ⟨p, j⟩] out arena f := by
        obtain ⟨f, held⟩ := tiled
        have lowered : Held orders id (view (s.setOrder p j)) [⟨p, j + 1⟩] out arena f := by
          refine held.touch rfl ?_
          intro q h
          exact ⟨setOrder_order_ne s j h, setOrder_free s p j q⟩
        refine ⟨f, lowered.split.touch rfl ?_⟩
        intro q h
        exact ⟨setOrder_order_ne _ j h, setOrder_free _ _ j q⟩
      have aligned : 2 ^ j ∣ p := by
        obtain ⟨f, held⟩ := halved
        exact held.tiling.aligned ⟨p, j⟩ (by simp)
      have ne : p ≠ p ^^^ 2 ^ j := Ne.symm (xor_two_pow_ne aligned)
      have filedNow := file_tiled (s := u) halved (setOrder_order_self _ _ _) (by omega)
      have field : (u.blocks p).order = j := by
        rw [setOrder_order_ne _ _ ne, setOrder_order_self]
      exact ih _ j filedNow ((setFree_order u _ true p).trans field) (by omega) (by omega)
        (by omega)
    · obtain rfl : k = order := by omega
      rw [if_neg (by omega)]
      exact ⟨tiled, rfl, here⟩

private theorem allocTake_tiled {s : HeapState} {out : List Block} {f : Nat → List Nat}
    {i order p : Nat} {xs : List Nat} (held : Held orders id (view s) [] out arena f)
    (hi : i ≤ maxOrder) (first : f i = p :: xs) (low : order ≤ i) :
    Tiled (allocTake s i order p) [] (⟨p, order⟩ :: out) ∧
      (allocTake s i order p).bugs = s.bugs := by
  have key : i ∈ orders := (mem_orders i).mpr hi
  have mem : p ∈ f i := by rw [first]; simp
  have here : (s.blocks p).order = i := (held.listed i key p mem).1
  let u : HeapState := { s with links := listRemove s.links (.node p) }
  have popped : Tiled u [⟨p, i⟩] out := by
    have held' := held.pop List.nodup_range key mem
    rw [show unlink (view s).links (.node p) = u.links from (listRemove_eq _ _).symm] at held'
    exact ⟨_, held'⟩
  have asserted : u.assert (i == (u.blocks p).order) = u := assert_true u (by simp [u, here])
  have result : allocTake s i order p =
      (splitLoop order p (s.blocks p).order u).setFree p false := by
    unfold allocTake
    simp only
    rw [asserted]
  obtain ⟨⟨g, cutHeld⟩, cutBugs, cutOrder⟩ :=
    splitLoop_tiled order p (s.blocks p).order u i popped here low hi (by omega)
  rw [result]
  generalize splitLoop order p (s.blocks p).order u = v at cutHeld cutBugs cutOrder ⊢
  have touched : Held orders id (view (v.setFree p false)) [⟨p, order⟩] out arena g := by
    refine cutHeld.touch rfl ?_
    intro q h
    exact ⟨setFree_order v p false q, setFree_free_ne v false h⟩
  refine ⟨⟨g, touched.give ?_ ?_⟩, cutBugs⟩
  · exact (setFree_order v p false p).trans cutOrder
  · exact setFree_free_self v p false

/-- `alloc_blocks` hands out a block of the wanted order or fails with the lists as they
were; only an order above `MAX_ORDER` trips its assertion. -/
private theorem allocBlocks_tiled {s : HeapState} {out : List Block} (tiled : Tiled s [] out)
    (order : Nat) :
    allocBlocks s order = (none, s.assert (order ≤ maxOrder)) ∨
      ∃ p t, allocBlocks s order = (some p, t) ∧ order ≤ maxOrder ∧
        Tiled t [] (⟨p, order⟩ :: out) ∧ t.bugs = s.bugs := by
  obtain ⟨f, held⟩ := tiled
  have rings : Rings s.links {i | i ∈ orders} f := held.rings
  have scan : ∀ n i, order ≤ i → i + n = maxOrder + 1 →
      allocScan order n s i = (none, s) ∨
        ∃ p t, allocScan order n s i = (some p, t) ∧
          Tiled t [] (⟨p, order⟩ :: out) ∧ t.bugs = s.bugs := by
    intro n
    induction n with
    | zero =>
      intro i _ _
      exact Or.inl rfl
    | succ n ih =>
      intro i low total
      have key : i ∈ orders := (mem_orders i).mpr (by omega)
      unfold allocScan
      cases first : f i with
      | nil =>
        rw [if_pos ((listEmpty_iff rings key).mpr first)]
        exact ih (i + 1) (by omega) (by omega)
      | cons p xs =>
        have filled : ¬ listEmpty s.links (.head i) = true := by
          intro empty
          have := (listEmpty_iff rings key).mp empty
          rw [first] at this
          contradiction
        rw [if_neg filled, listNext_cons rings key first]
        right
        exact ⟨p, _, rfl, allocTake_tiled held (by omega) first low⟩
  unfold allocBlocks
  simp only
  by_cases small : order ≤ maxOrder
  · rw [assert_true s (decide_eq_true small)]
    rcases scan (maxOrder + 1 - order) order le_rfl (by omega) with fail | ⟨p, t, eq, done⟩
    · exact Or.inl fail
    · exact Or.inr ⟨p, t, eq, small, done⟩
  · have none : maxOrder + 1 - order = 0 := by omega
    rw [none]
    exact Or.inl rfl

end AllocBlocks

section FreeBlocks

/-- Along the merge walk of `free_blocks` every free buddy carries the walk's order. -/
def mergesMatch (s : HeapState) (block order : Nat) : Bool :=
  ordersMatch (fun p => (s.blocks p).free) (fun p => (s.blocks p).order) (maxOrder - order) block
    order

private theorem buddy_in_arena {s : HeapState} {p k : Nat} {out : List Block}
    {f : Nat → List Nat} (held : Held orders id (view s) [⟨p, k⟩] out arena f)
    (room : k < maxOrder) : p ^^^ 2 ^ k ∈ arena := by
  have inside : p ∈ arena := (held.tiling.cover p).mp ⟨⟨p, k⟩, by simp, Block.covers_base _⟩
  exact Nat.xor_lt_two_pow inside (Nat.pow_lt_pow_right (by decide) room)

private theorem mergeLoop_tiled (s₀ : HeapState) {out : List Block} (fuel : Nat) :
    ∀ (s : HeapState) (p k : Nat), Tiled s [⟨p, k⟩] out → (s.blocks p).order = k →
      k ≤ maxOrder → maxOrder ≤ k + fuel →
      (∀ q, (s.blocks q).free = (s₀.blocks q).free) →
      Walk (fun p => (s₀.blocks p).free) (fun p => (s₀.blocks p).order) maxOrder (view s) p k →
      ∃ j ≤ maxOrder, Tiled (mergeLoop fuel s p).1 [⟨(mergeLoop fuel s p).2, j⟩] out ∧
        (mergeLoop fuel s p).1.bugs = s.bugs ∧
        ((mergeLoop fuel s p).1.blocks (mergeLoop fuel s p).2).order = j := by
  induction fuel with
  | zero =>
    intro s p k tiled here small _ _ _
    exact ⟨k, small, tiled, rfl, here⟩
  | succ fuel ih =>
    intro s p k tiled here small enough frees walk
    unfold mergeLoop
    by_cases room : k < maxOrder
    swap
    · rw [if_neg (by omega)]
      exact ⟨k, small, tiled, rfl, here⟩
    have buddy : blockBuddy s p = p ^^^ 2 ^ k := by rw [blockBuddy, here, Nat.one_shiftLeft]
    rw [if_pos (by omega)]
    simp only [buddy]
    cases free : (s.blocks (p ^^^ 2 ^ k)).free with
    | false => exact ⟨k, small, tiled, rfl, here⟩
    | true =>
      obtain ⟨f, held⟩ := tiled
      let s1 : HeapState :=
        { s with links := listRemove s.links (.node (p ^^^ 2 ^ k)) }.setOrder (min p (p ^^^ 2 ^ k))
          (k + 1)
      have links : (view s1).links = unlink (view s).links (.node (p ^^^ 2 ^ k)) :=
        listRemove_eq _ _
      obtain ⟨same, walk', joined⟩ := walk.merge held List.nodup_range room
        (buddy_in_arena held room) free ((frees _).symm.trans free) links fun q h =>
          ⟨setOrder_order_ne _ _ h, setOrder_free _ _ _ _⟩
      have raised : ((s.blocks (min p (p ^^^ 2 ^ k))).order + 1) % 2 ^ 32 = k + 1 := by
        have buddyOrder : (s.blocks (p ^^^ 2 ^ k)).order = k := same
        have small : k < 12 := room
        rcases min_choice p (p ^^^ 2 ^ k) with h | h <;> rw [h] <;> omega
      simp only [Bool.not_true, Bool.false_eq_true, if_false]
      rw [← min_def_lt, min_comm, raised]
      apply ih s1 (min p (p ^^^ 2 ^ k)) (k + 1) joined
      · exact setOrder_order_self _ _ _
      · omega
      · omega
      · intro q
        rw [setOrder_free]
        exact frees q
      · exact walk'

theorem freeBlocks_tiled {s : HeapState} {out : List Block} {b : Block} (tiled : Tiled s [] out)
    (mem : b ∈ out) (small : b.order ≤ maxOrder)
    (matched : mergesMatch s b.base b.order = true) :
    Tiled (freeBlocks s b.base) [] (out.erase b) ∧ (freeBlocks s b.base).bugs = s.bugs := by
  obtain ⟨f, held⟩ := tiled
  have fuel : maxOrder ≤ mergeFuel := by decide
  obtain ⟨j, hj, merged, quiet, order⟩ :=
    mergeLoop_tiled s mergeFuel s b.base b.order ⟨f, held.take mem⟩ (held.given b mem).1
      small (by omega) (fun _ => rfl) ⟨fun _ _ => rfl, matched⟩
  unfold freeBlocks
  simp only
  rw [setFree_order, order]
  exact ⟨file_tiled merged order hj, quiet⟩

end FreeBlocks

section Init

private theorem initLoop_rings (n : Nat) : ∀ (l : Links Nat Nat) (i : Nat),
    Rings l {j | j < i} (fun _ => []) → Rings (initLoop n l i) {j | j < i + n} (fun _ => []) := by
  induction n with
  | zero =>
    intro l i rings
    exact rings
  | succ n ih =>
    intro l i rings
    have one := listInit_rings_empty rings i (by simp)
    have same : insert i {j : Nat | j < i} = {j | j < i + 1} := by
      ext j
      simp only [Set.mem_insert_iff, Set.mem_ofPred_eq]
      omega
    rw [same] at one
    have next := ih _ (i + 1) one
    rw [Nat.add_assoc, Nat.add_comm 1 n] at next
    exact next

theorem kmallocEarlyInit_tiled (links : Links Nat Nat) : Tiled (kmallocEarlyInit links) [] [] := by
  have start : Rings links {j : Nat | j < 0} (fun _ => []) := ⟨by simp, by simp, by simp⟩
  have rings := initLoop_rings (maxOrder + 1) links 0 start
  have keys : {j : Nat | j < 0 + (maxOrder + 1)} = {j | j ∈ orders} := by
    ext j
    simp only [Set.mem_ofPred_eq, mem_orders]
    omega
  rw [keys] at rings
  let s : HeapState := ⟨fun _ => ⟨0, false⟩, initLoop (maxOrder + 1) links 0, 0⟩
  have none : filed orders id (fun _ => []) = [] := by simp [filed]
  have bare : Held orders id (view (s.setOrder 0 maxOrder)) [] [] ∅ (fun _ => []) := by
    refine ⟨rings, ?_, by simp, by simp⟩
    rw [none]
    exact Tiling.nil
  have whole : Held orders id (view (s.setOrder 0 maxOrder)) [⟨0, maxOrder⟩] [] arena
      (fun _ => []) := by
    have added := bare.add (b := ⟨0, maxOrder⟩) (Nat.dvd_zero _) (by simp)
    refine ⟨added.rings, added.tiling.congr ?_, added.listed, added.given⟩
    intro n
    simp [arena, Block.Covers, Block.stop]
  have field : ((s.setOrder 0 maxOrder).blocks 0).order = maxOrder := setOrder_order_self _ _ _
  exact file_tiled ⟨_, whole⟩ field le_rfl

end Init

section Runs

structure HeapRun where
  state : HeapState
  out : List Block

inductive HeapOp
  | alloc (order : Nat)
  | free (block : Nat)

def heapStep (r : HeapRun) : HeapOp → Option HeapRun
  | .alloc order =>
      match allocBlocks r.state order with
      | (some block, t) => some ⟨t, ⟨block, order⟩ :: r.out⟩
      | (none, t) => some ⟨t, r.out⟩
  | .free block =>
      (r.out.find? (fun b => b.base == block)).map
        (fun b => ⟨freeBlocks r.state block, r.out.erase b⟩)

def boot (links : Links Nat Nat) : HeapRun := ⟨kmallocEarlyInit links, []⟩

/-- Outstanding and listed blocks are pairwise disjoint and cover exactly the indices
`0, …, 2 ^ MAX_ORDER - 1`. -/
def HeapSafe (r : HeapRun) : Prop :=
  ∃ f, Rings r.state.links {k | k ≤ maxOrder} f ∧ r.out.Pairwise Block.Apart ∧
    (filed orders id f).Pairwise Block.Apart ∧
    (∀ a ∈ r.out, ∀ b ∈ filed orders id f, a.Apart b) ∧
    ∀ n, ((∃ b ∈ r.out, b.Covers n) ∨ ∃ b ∈ filed orders id f, b.Covers n) ↔ n < 2 ^ maxOrder

def buddiesMatch (r : HeapRun) : HeapOp → Bool
  | .alloc _ => true
  | .free block => mergesMatch r.state block (r.state.blocks block).order

structure HeapInv (r : HeapRun) : Prop where
  tiled : Tiled r.state [] r.out
  small : ∀ b ∈ r.out, b.order ≤ maxOrder

theorem HeapInv.base_lt {r : HeapRun} {b : Block} (inv : HeapInv r) (mem : b ∈ r.out) :
    b.base < 2 ^ maxOrder := by
  obtain ⟨f, held⟩ := inv.tiled
  exact (held.tiling.cover b.base).mp ⟨b, by simp [mem], b.covers_base⟩

private theorem HeapInv.safe {r : HeapRun} (inv : HeapInv r) : HeapSafe r := by
  obtain ⟨f, held⟩ := inv.tiled
  have keys : {k : Nat | k ≤ maxOrder} = {k | k ∈ orders} := by
    ext k
    exact (mem_orders k).symm
  obtain ⟨outs, frees, across⟩ := List.pairwise_append.mp
    (show (r.out ++ filed orders id f).Pairwise Block.Apart from held.tiling.apart)
  refine ⟨f, keys ▸ held.rings, outs, frees, across, ?_⟩
  intro n
  rw [show n < 2 ^ maxOrder ↔ n ∈ arena from Iff.rfl, ← held.tiling.cover n]
  simp only [List.nil_append, List.mem_append, or_and_right, exists_or]

theorem heapStep_inv (r : HeapRun) (op : HeapOp) (t : HeapRun) (inv : HeapInv r)
    (ok : buddiesMatch r op = true) (step : heapStep r op = some t) : HeapInv t := by
  cases op with
  | alloc order =>
    simp only [heapStep] at step
    rcases allocBlocks_tiled inv.tiled order with fail | ⟨p, u, eq, small, tiled, _⟩
    · rw [fail] at step
      obtain rfl := Option.some.inj step
      refine ⟨?_, inv.small⟩
      unfold HeapState.assert
      split
      · exact inv.tiled
      · exact inv.tiled
    · rw [eq] at step
      obtain rfl := Option.some.inj step
      refine ⟨tiled, ?_⟩
      intro b hb
      rcases List.mem_cons.mp hb with rfl | hb
      · exact small
      · exact inv.small b hb
  | free block =>
    obtain ⟨b, found, rfl⟩ := Option.map_eq_some_iff.mp step
    have mem : b ∈ r.out := List.mem_of_find?_eq_some found
    have base : b.base = block := by simpa using List.find?_some found
    subst base
    have field : (r.state.blocks b.base).order = b.order := by
      obtain ⟨f, held⟩ := inv.tiled
      exact (held.given b mem).1
    simp only [buddiesMatch, field] at ok
    obtain ⟨tiled, _⟩ := freeBlocks_tiled inv.tiled mem (inv.small b mem) ok
    exact ⟨tiled, fun c hc => inv.small c (List.mem_of_mem_erase hc)⟩

/-- In every run whose frees only meet buddies of matching order, outstanding and free
blocks stay disjoint and cover exactly the arena. -/
theorem heap_run_safe (links : Links Nat Nat) (t : HeapRun)
    (run : Run heapStep (fun r op => buddiesMatch r op = true) (boot links) t) : HeapSafe t := by
  have start : HeapInv (boot links) := ⟨kmallocEarlyInit_tiled links, by simp [boot]⟩
  exact (run.invariant start (fun s op u => heapStep_inv s op u)).safe

def mixedOps : List HeapOp := [.alloc 1, .alloc 0, .free 0, .free 2]

theorem heap_run_safe_mixed :
    ∃ t, exec heapStep buddiesMatch (boot ⟨id, id⟩) mixedOps = some t ∧ HeapSafe t := by
  have some' : (exec heapStep buddiesMatch (boot ⟨id, id⟩) mixedOps).isSome = true := by
    decide +kernel
  obtain ⟨t, eq⟩ := Option.isSome_iff_exists.mp some'
  exact ⟨t, eq, heap_run_safe ⟨id, id⟩ t (Run.of_exec eq)⟩

def overlapOps : List HeapOp := [.alloc 1, .alloc 0, .alloc 0, .free 2, .free 0]

/-- Freeing block 0 of order 1 merges with block 2 of order 0 and from there up to the
whole arena, although block 3 is still outstanding. -/
theorem heap_run_unsafe_overlap :
    ¬ ∀ (links : Links Nat Nat) (t : HeapRun), Run heapStep Free (boot links) t → HeapSafe t := by
  intro claim
  have eval : (exec heapStep (fun _ _ => true) (boot ⟨id, id⟩) overlapOps).map
      (fun u => decide (u.state.links.next (.head maxOrder) = .node 0 ∧ (⟨3, 0⟩ : Block) ∈ u.out)) =
        some true := by decide +kernel
  obtain ⟨t, eq, found⟩ := Option.map_eq_some_iff.mp eval
  obtain ⟨head, kept⟩ := of_decide_eq_true found
  obtain ⟨f, rings, _, _, across, _⟩ := claim ⟨id, id⟩ t
    ((Run.of_exec eq).mono (fun _ _ _ => trivial))
  have whole : (⟨0, maxOrder⟩ : Block) ∈ filed orders id f :=
    mem_filed.mpr ⟨maxOrder, by decide, rings.first_mem (Nat.le_refl maxOrder) head, rfl⟩
  have apart := across _ kept _ whole
  revert apart
  decide

end Runs

end OhMyOs.Mm.EarlyHeapRuns
