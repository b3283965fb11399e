/- GID: OhMyOs/Libs/GrowableStringContents
   generality: I
   digest: What a growable string contains after any run of calls, and where its stores can go. -/

import Mathlib.Data.List.TakeWhile
import OhMyOs.Lib.Stores
import OhMyOs.Libs.GrowableStringFrees
import OhMyOs.Mm.EarlyHeap

set_option autoImplicit false
set_option relaxedAutoImplicit false

namespace OhMyOs.Libs.GrowableString

open OhMyOs.Include.Constants
open OhMyOs.Lib.Outcome OhMyOs.Lib.Runs OhMyOs.Lib.Stores OhMyOs.Include.Log2
open OhMyOs.Mm.EarlyHeap (allocBlocks kmallocEarlyInit)

def contents (m : Mem) (s : KString) : List Byte :=
  s.str.elim [] fun p => read m.bytes p s.length

/-- `roundup_pow_of_two(size + 1)` -/
def grownCapacity (size : Nat) : Nat := roundupPowOfTwo ((size + 1) % 2 ^ 32)

def capacityFor (s : KString) (size : Nat) : Nat :=
  if size ≤ s.capacity then s.capacity else grownCapacity size

def bufferFor (s : KString) (size : Nat) (str : Option Nat) : Option Nat :=
  if size ≤ s.capacity then s.str else str

structure Stored (m : Mem) (s : KString) (p : Nat) (xs : List Byte) : Prop where
  buffer : s.str = some p
  length : s.length = xs.length
  fits : xs.length ≤ s.capacity
  positive : 0 < s.capacity
  word : s.capacity ≤ 2 ^ 31
  nulFree : ∀ c ∈ xs, c ≠ 0
  holds : Holds m.bytes p xs

/-- What kmalloc returns when the buffer has to grow: memory apart from the old buffer, and not
right behind it if that is full. -/
structure GrowsTo (s : KString) (p size new : Nat) : Prop where
  small : size < 2 ^ 31
  apart : new + grownCapacity size ≤ p ∨ p + s.capacity ≤ new
  spare : s.length = s.capacity → new ≠ p + s.capacity

/-- An address that is not in the buffer the string has once `size` characters fit, and not where
the terminator of an outgrown buffer is written. -/
structure Away (s : KString) (size : Nat) (str : Option Nat) (a : Nat) : Prop where
  buffer : ∀ p, bufferFor s size str = some p → a < p ∨ p + capacityFor s size ≤ a
  old : s.capacity < size → ∀ p, s.str = some p → a ≠ p + s.length

structure Resized (m m' : Mem) (s s' : KString) (size : Nat) (str : Option Nat) (xs : List Byte) :
    Prop where
  stored : ∃ p, bufferFor s size str = some p ∧ Stored m' s' p xs
  capacity : s'.capacity = capacityFor s size
  frame : ∀ a, Away s size str a → m'.bytes a = m.bytes a

structure After (m m' : Mem) (s s' : KString) (size : Nat) (str : Option Nat) (xs : List Byte) :
    Prop where
  stored : ∃ p, bufferFor s size str = some p ∧ Stored m' s' p xs
  capacity : s'.capacity = capacityFor s size
  frame : ∀ a, Away s size str a → (∀ p, bufferFor s size str = some p → a ≠ p + xs.length) →
    m'.bytes a = m.bytes a

variable {m m' : Mem} {s s' : KString} {str : Option Nat} {p size i : Nat} {c : Byte}
  {xs ys : List Byte}

theorem Stored.contents_eq (stored : Stored m s p xs) : contents m s = xs := by
  rw [contents, stored.buffer, stored.length]
  exact stored.holds.read_eq

/-! ### Stores -/

private theorem put_write (m : Mem) (p size i : Nat) (c : Byte) :
    Ensures (put m (some p) size i c) fun m' => m'.bytes = write m.bytes (p + i) [c] :=
  .ok rfl

private theorem strncpy_write (xs : List Byte) (src : Mem → Nat → Byte) (m : Mem) (size i j : Nat)
    (nulFree : ∀ c ∈ xs, c ≠ 0)
    (reads : ∀ m' : Mem, (∀ a, a < p + i ∨ p + i + xs.length ≤ a → m'.bytes a = m.bytes a) →
      ∀ k c, xs[k]? = some c → src m' (j + k) = c) :
    Ensures (strncpy (some p) size src xs.length m i j) fun m' =>
      m'.bytes = write m.bytes (p + i) xs := by
  induction xs generalizing m i j with
  | nil => exact .ok rfl
  | cons c xs ih =>
    have first : src m j = c := reads m (fun _ _ => rfl) 0 c rfl
    have next : (if src m j ≠ 0 then j + 1 else j) = j + 1 :=
      if_pos (first ▸ nulFree c List.mem_cons_self)
    simp only [List.length_cons, strncpy]
    refine (put_write m p size i (src m j)).bind fun m1 stored => ?_
    rw [next, first] at *
    have rest := ih m1 (i + 1) (j + 1) (fun c member => nulFree c (List.mem_cons_of_mem _ member))
      (fun m' same k c' at_ => ?_)
    · refine rest.mono fun m' eq => ?_
      rw [eq, stored]
      rfl
    · rw [Nat.add_assoc, Nat.add_comm 1 k]
      refine reads m' (fun a out => ?_) (k + 1) c' at_
      rw [List.length_cons] at out
      rw [same a (by omega), stored]
      exact write_outside (by rw [List.length_singleton]; omega)

private theorem fitLoop_write (m : Mem) (p capacity i n : Nat) (c : Byte) :
    Ensures (fitLoop (some p) capacity c n m i) fun m' =>
      m'.bytes = write m.bytes (p + i) (List.replicate n c) := by
  induction n generalizing m i with
  | zero => exact .ok rfl
  | succ n ih =>
    refine (put_write m p capacity i c).bind fun m1 stored => (ih m1 (i + 1)).mono fun m' eq => ?_
    rw [eq, stored]
    rfl

/-! ### Growth -/

theorem lt_grownCapacity (small : size < 2 ^ 31) :
    size < grownCapacity size ∧ grownCapacity size ≤ 2 ^ 31 := by
  rw [grownCapacity, Nat.mod_eq_of_lt (by omega)]
  exact roundupPowOfTwo_bounds (by omega)

private theorem moveBuffer_write {new : Nat} (stored : Stored m s p xs)
    (apart : new + xs.length ≤ p ∨ p + xs.length ≤ new) :
    Ensures (moveBuffer m s new size) fun m' =>
      m'.bytes = write (write m.bytes new xs) (p + xs.length) [0] := by
  unfold moveBuffer
  rw [stored.buffer, stored.length]
  have copy := strncpy_write (p := new) xs (fun m j => m.bytes (p + j)) m size 0 0
    stored.nulFree (fun m' same k c at_ => ?_)
  · refine copy.bind fun m1 copied => ?_
    refine (put_write m1 p s.capacity xs.length 0).bind fun m2 marked => .ok ?_
    rw [Nat.add_zero] at copied
    exact marked.trans (by rw [copied])
  · obtain ⟨inside, -⟩ := List.getElem?_eq_some_iff.mp at_
    rw [Nat.zero_add, same (p + k) (by omega)]
    exact stored.holds k c at_

private theorem stringTryExpand_resized (stored : Stored m s p xs)
    (grows : s.capacity < size → ∃ new, str = some new ∧ GrowsTo s p size new) :
    Ensures (stringTryExpand m s size str) fun r =>
      r.2.2 = 0 ∧ Resized m r.1 s r.2.1 size str xs := by
  unfold stringTryExpand
  by_cases enough : size ≤ s.capacity
  · rw [if_pos enough]
    refine .ok ⟨rfl, ⟨p, ?_, stored⟩, ?_, fun a _ => rfl⟩
    · rw [bufferFor, if_pos enough, stored.buffer]
    · rw [capacityFor, if_pos enough]
  · rw [if_neg enough]
    obtain ⟨new, rfl, small, apart, spare⟩ := grows (by omega)
    obtain ⟨above, word⟩ := lt_grownCapacity small
    have fits := stored.fits
    have length := stored.length
    have checked : assert (decide (s.capacity < grownCapacity size)) = .ok () := by
      rw [assert, if_pos (decide_eq_true (by omega))]
    have buffer : bufferFor s size (some new) = some new := if_neg enough
    have capacity : capacityFor s size = grownCapacity size := if_neg enough
    have same : Stored (kmalloc m new) s p xs := ⟨stored.buffer, stored.length, stored.fits,
      stored.positive, stored.word, stored.nulFree, stored.holds⟩
    change Ensures (assert (decide (s.capacity < grownCapacity size)) >>= fun _ =>
      moveBuffer (kmalloc m new) s new (grownCapacity size) >>= fun m1 =>
        pure (m1, { s with str := some new, capacity := grownCapacity size }, (0 : Int))) _
    rw [checked, ok_bind]
    refine (moveBuffer_write same (by omega)).bind fun m1 moved => .ok ⟨rfl, ⟨new, buffer, ?_⟩,
      capacity.symm, fun a away => ?_⟩
    · have holds : Holds m1.bytes new xs := by
        rw [moved]
        refine (write_holds m.bytes new xs).congr fun a low high => write_outside ?_
        rw [List.length_singleton]
        omega
      have room : xs.length ≤ grownCapacity size := by omega
      exact ⟨rfl, stored.length, room, Nat.zero_lt_of_lt above, word, stored.nulFree, holds⟩
    · have outside := away.buffer new buffer
      have mark := away.old (by omega) p stored.buffer
      rw [moved, write_outside (by rw [List.length_singleton]; omega)]
      exact write_outside (by omega)

/-! ### The calls -/

private theorem Stored.edit (stored : Stored m s p xs) (inside : i ≤ xs.length)
    (room : i + ys.length ≤ s.capacity) (nulFree : ∀ c ∈ ys, c ≠ 0)
    (bytes : m'.bytes = write m.bytes (p + i) (ys ++ [0])) :
    Stored m' { s with length := i + ys.length } p (xs.take i ++ ys) := by
  have count : (xs.take i).length = i := by rw [List.length_take]; omega
  have length : (xs.take i ++ ys).length = i + ys.length := by rw [List.length_append, count]
  refine ⟨stored.buffer, length.symm, length ▸ room, stored.positive, stored.word, ?_, ?_⟩
  · intro c member
    rcases List.mem_append.mp member with before | new
    · exact stored.nulFree c (List.mem_of_mem_take before)
    · exact nulFree c new
  · rw [Holds.append_iff, count, bytes]
    refine ⟨stored.holds.take.congr fun a low high => write_outside (.inl (by omega)), ?_⟩
    exact (Holds.append_iff.mp (write_holds m.bytes (p + i) (ys ++ [0]))).1

private theorem Resized.edit {m1 : Mem} {s1 : KString} (resized : Resized m m1 s s1 size str xs)
    (m' : Mem) (ys : List Byte) (inside : i ≤ xs.length) (room : i + ys.length ≤ s1.capacity)
    (nulFree : ∀ c ∈ ys, c ≠ 0)
    (bytes : ∀ p, s1.str = some p → m'.bytes = write m1.bytes (p + i) (ys ++ [0])) :
    After m m' s { s1 with length := i + ys.length } size str (xs.take i ++ ys) := by
  obtain ⟨⟨p, buffer, stored⟩, capacity, frame⟩ := resized
  have edited := bytes p stored.buffer
  refine ⟨⟨p, buffer, stored.edit inside room nulFree edited⟩, capacity, fun a away mark => ?_⟩
  have length : (xs.take i ++ ys).length = i + ys.length := by
    rw [List.length_append, List.length_take]
    omega
  have outside := away.buffer p buffer
  have behind := mark p buffer
  rw [length] at behind
  rw [edited, write_outside (by rw [List.length_append, List.length_singleton]; omega)]
  exact frame a away

private theorem le_capacityFor (small : s.capacity < size → size < 2 ^ 31) :
    size ≤ capacityFor s size := by
  unfold capacityFor
  split_ifs with enough
  · exact enough
  · exact (lt_grownCapacity (small (by omega))).1.le

private theorem Resized.store {m1 m2 : Mem} {s1 : KString} (resized : Resized m m1 s s1 size str xs)
    (m3 : Mem) (ys : List Byte) (room : xs.length + ys.length ≤ s1.capacity)
    (nulFree : ∀ c ∈ ys, c ≠ 0) {q : Nat}
    (buffer : s1.str = some q) (first : m2.bytes = write m1.bytes (q + xs.length) ys)
    (last : m3.bytes = write m2.bytes (q + (xs.length + ys.length)) [0]) :
    After m m3 s ⟨some q, xs.length + ys.length, s1.capacity⟩ size str (xs ++ ys) := by
  have edited := resized.edit m3 ys (le_refl xs.length) room nulFree fun p eq => by
    obtain rfl := Option.some.inj (buffer.symm.trans eq)
    rw [last, first, write_append, Nat.add_assoc]
  rwa [List.take_length, buffer] at edited

theorem ksappendChar_after (stored : Stored m s p xs) (nulFree : c ≠ 0)
    (grows : s.capacity < s.length + 1 →
      ∃ new, str = some new ∧ GrowsTo s p (s.length + 1) new) :
    Ensures (ksappendChar m s c str) fun r =>
      r.2.2 = 0 ∧ After m r.1 s r.2.1 (s.length + 1) str (xs ++ [c]) := by
  have fits := stored.fits
  have word := stored.word
  have length := stored.length
  unfold ksappendChar
  rw [Nat.mod_eq_of_lt (by omega)]
  refine (stringTryExpand_resized stored grows).bind ?_
  rintro ⟨m1, s1, ret⟩ ⟨zero, resized⟩
  obtain rfl : ret = 0 := zero
  change Resized m m1 s s1 _ str xs at resized
  obtain ⟨q, -, stored1⟩ := resized.stored
  have room : s.length + 1 ≤ s1.capacity := by
    rw [resized.capacity]
    exact le_capacityFor fun small => (grows small).elim fun _ found => found.2.small
  have now : (xs.length + 1) % 2 ^ 32 = xs.length + 1 := Nat.mod_eq_of_lt (by omega)
  simp only [ne_eq, not_true_eq_false, if_false, stored1.buffer, stored1.length, now]
  refine (put_write m1 q s1.capacity xs.length c).bind fun m2 first =>
    (put_write m2 q s1.capacity (xs.length + 1) 0).bind fun m3 last => .ok ⟨rfl, ?_⟩
  refine resized.store m3 [c] ?_ ?_ stored1.buffer first last
  · rw [List.length_singleton]
    omega
  · intro d member
    obtain rfl := List.mem_singleton.mp member
    exact nulFree

private theorem nulFree_take {text : List Byte} {n : Nat} (short : n ≤ strlen text) :
    (∀ d ∈ text.take n, d ≠ 0) ∧ (text.take n).length = n := by
  have split : text.take n = (text.takeWhile (· ≠ 0)).take n := by
    conv_lhs => rw [← List.takeWhile_append_dropWhile (p := (· ≠ 0)) (l := text)]
    exact List.take_append_of_le_length short
  rw [split, List.length_take]
  refine ⟨fun d member => ?_, Nat.min_eq_left short⟩
  simpa using List.mem_takeWhile_imp (List.mem_of_mem_take member)

theorem ksappendStrn_after {text : List Byte} {len : Nat} (stored : Stored m s p xs)
    (fits : s.length + appended text len < 2 ^ 32)
    (grows : s.capacity < s.length + appended text len →
      ∃ new, str = some new ∧ GrowsTo s p (s.length + appended text len) new) :
    Ensures (ksappendStrn m s (some text) len str) fun r =>
      r.2.2 = 0 ∧ After m r.1 s r.2.1 (s.length + appended text len) str
        (xs ++ text.take (appended text len)) := by
  have short := appended_le text len
  have length := stored.length
  simp only [ksappendStrn]
  change Ensures (stringTryExpand m s ((s.length + appended text len) % 2 ^ 32) str >>= _) _
  rw [Nat.mod_eq_of_lt fits]
  obtain ⟨plain, count⟩ := nulFree_take short
  refine (stringTryExpand_resized stored grows).bind ?_
  rintro ⟨m1, s1, ret⟩ ⟨zero, resized⟩
  obtain rfl : ret = 0 := zero
  change Resized m m1 s s1 _ str xs at resized
  obtain ⟨q, -, stored1⟩ := resized.stored
  have room : s.length + appended text len ≤ s1.capacity := by
    rw [resized.capacity]
    exact le_capacityFor fun small => (grows small).elim fun _ found => found.2.small
  have count_eq : (if strlen text < len then strlen text else len) = appended text len := rfl
  have now : (xs.length + appended text len) % 2 ^ 32 = xs.length + appended text len :=
    Nat.mod_eq_of_lt (by omega)
  simp only [ne_eq, not_true_eq_false, if_false, stored1.buffer, stored1.length, count_eq, now]
  have copy := strncpy_write (p := q) (text.take (appended text len))
    (fun _ j => text.getD j 0) m1 s1.capacity xs.length 0 plain (fun m' _ k d at_ => ?_)
  · rw [count] at copy
    refine copy.bind fun m2 first => ?_
    refine (put_write m2 q s1.capacity (xs.length + appended text len) 0).bind fun m3 last => ?_
    have stores := resized.store m3 _ (by omega) plain stored1.buffer first
      (by rw [count, last])
    rw [count] at stores
    exact .ok ⟨rfl, stores⟩
  · obtain ⟨inside, value⟩ := List.getElem?_eq_some_iff.mp at_
    rw [List.getElem_take] at value
    rw [List.length_take] at inside
    rw [Nat.zero_add, List.getD_eq_getElem?_getD, List.getElem?_eq_getElem (by omega), value]
    rfl

private theorem kspopChar_after (stored : Stored m s p xs) :
    Ensures (kspopChar m s) fun r =>
      r.2.2 = xs.getLast?.getD 0 ∧ After m r.1 s r.2.1 0 none xs.dropLast := by
  have length := stored.length
  have fits := stored.fits
  have here : Resized m m s s 0 none xs :=
    ⟨⟨p, stored.buffer, stored⟩, rfl, fun _ _ => rfl⟩
  unfold kspopChar
  by_cases empty : s.length = 0
  · obtain rfl : xs = [] := List.eq_nil_of_length_eq_zero (by omega)
    rw [if_pos empty]
    exact .ok ⟨rfl, here.stored, rfl, fun _ _ _ => rfl⟩
  · rw [if_neg empty]
    have last : m.bytes (p + (s.length - 1)) = xs.getLast?.getD 0 := by
      rw [List.getLast?_eq_getElem?, length, List.getElem?_eq_getElem (by omega)]
      exact stored.holds _ _ (List.getElem?_eq_getElem (by omega))
    simp only [stored.buffer]
    refine (put_write m p s.capacity (s.length - 1) 0).bind fun m1 mark => .ok ⟨last, ?_⟩
    have edited := here.edit (i := s.length - 1) m1 [] (by omega)
      (by rw [List.length_nil]; omega) nofun fun q eq => by
        obtain rfl := Option.some.inj (stored.buffer.symm.trans eq)
        exact mark
    rw [List.append_nil, length, ← List.dropLast_eq_take, stored.buffer] at edited
    rw [length]
    exact edited

def fitted (xs : List Byte) (c : Byte) (n : Nat) : List Byte :=
  (xs ++ List.replicate (n - xs.length) c).take n

private theorem ksfit_after {n : Nat} (stored : Stored m s p xs) (nulFree : c ≠ 0)
    (grows : s.capacity < n → ∃ new, str = some new ∧ GrowsTo s p n new) :
    Ensures (ksfit m s c n str) fun r =>
      r.2.2 = 0 ∧ After m r.1 s r.2.1 n str (fitted xs c n) := by
  have fits := stored.fits
  have length := stored.length
  unfold ksfit
  refine (stringTryExpand_resized stored grows).bind ?_
  rintro ⟨m1, s1, ret⟩ ⟨zero, resized⟩
  obtain rfl : ret = 0 := zero
  change Resized m m1 s s1 _ str xs at resized
  obtain ⟨q, -, stored1⟩ := resized.stored
  have room : n ≤ s1.capacity := by
    rw [resized.capacity]
    exact le_capacityFor fun small => (grows small).elim fun _ found => found.2.small
  simp only [ne_eq, not_true_eq_false, if_false, stored1.buffer, stored1.length]
  refine (fitLoop_write m1 q s1.capacity xs.length (n - xs.length) c).bind fun m2 first => ?_
  refine (put_write m2 q s1.capacity n 0).bind fun m3 last => .ok ⟨rfl, ?_⟩
  unfold fitted
  by_cases longer : xs.length ≤ n
  · have whole : (xs ++ List.replicate (n - xs.length) c).length = n := by
      rw [List.length_append, List.length_replicate]
      omega
    have size : xs.length + (List.replicate (n - xs.length) c).length = n := by
      rw [List.length_replicate]
      omega
    have stores := resized.store m3 _ (by omega)
      (fun d member => (List.eq_of_mem_replicate member) ▸ nulFree) stored1.buffer first
      (by rw [size, last])
    rw [size] at stores
    rw [List.take_of_length_le whole.le]
    exact stores
  · have nothing : n - xs.length = 0 := by omega
    rw [nothing] at first ⊢
    have edited := resized.edit (i := n) m3 [] (by omega)
      (by rw [List.length_nil]; omega) nofun fun p eq => by
        obtain rfl := Option.some.inj (stored1.buffer.symm.trans eq)
        rw [last, first]
        rfl
    rw [List.append_nil, stored1.buffer] at edited
    rw [List.replicate_zero, List.append_nil]
    exact edited

/-! ### Runs -/

def specCall (op : StrOp) (xs : List Byte) : List Byte :=
  match appendArgs op, op with
  | some (text, length), _ => xs ++ text.take (min length (strlen text))
  | none, .appendChar c _ => xs ++ [c]
  | none, .popChar => xs.dropLast
  | none, .fit c n _ => fitted xs c n
  | none, _ => xs

def nulFree : StrOp → Bool
  | .appendChar c _ | .fit c _ _ => c ≠ 0
  | _ => true

private theorem appended_eq_min (text : List Byte) (length : Nat) :
    appended text length = min length (strlen text) := by
  unfold appended
  split_ifs with short
  · omega
  · omega

private theorem After.afterCall {r : Mem × KString × Int}
    (after : r.2.2 = 0 ∧ After m r.1 s r.2.1 size str xs) :
    (afterCall r).succeeded = true ∧
      After m (GrowableString.afterCall r).mem s (GrowableString.afterCall r).s size str xs :=
  ⟨decide_eq_true after.1, after.2⟩

private theorem strCall_after {op : StrOp} (stored : Stored m s p xs)
    (fits : addressable s op = true)
    (plain : nulFree op = true)
    (grows : s.capacity < request s op →
      ∃ new, newBuffer op = some new ∧ GrowsTo s p (request s op) new) :
    Ensures (strCall m s op) fun r =>
      r.succeeded = true ∧ After m r.mem s r.s (request s op) (newBuffer op) (specCall op xs) := by
  have room := stored.fits
  have word := stored.word
  have length := stored.length
  unfold request at grows ⊢
  unfold specCall
  unfold addressable at fits
  cases args : appendArgs op with
  | some arg =>
    obtain ⟨text, count⟩ := arg
    simp only [args, decide_eq_true_eq] at fits grows ⊢
    have short := appended_le text count
    rw [Nat.mod_eq_of_lt (by omega)] at grows ⊢
    rw [strCall_append args, ← appended_eq_min]
    exact (ksappendStrn_after stored (by omega) grows).map fun _ => After.afterCall
  | none =>
    cases op with
    | appendChar c str =>
      simp only [args] at grows ⊢
      rw [Nat.mod_eq_of_lt (by omega)] at grows ⊢
      exact (ksappendChar_after stored (of_decide_eq_true plain) grows).map fun _ => After.afterCall
    | appendStrn text count str =>
      cases text with
      | some text => cases args
      | none =>
        refine .ok ⟨rfl, ⟨p, ?_, stored⟩, ?_, fun _ _ _ => rfl⟩
        · rw [bufferFor, if_pos (Nat.zero_le _), stored.buffer]
        · exact (if_pos (Nat.zero_le _)).symm
    | popChar => exact (kspopChar_after stored).map fun _ after => ⟨rfl, after.2⟩
    | fit c n str =>
      simp only [args] at grows ⊢
      exact (ksfit_after stored (of_decide_eq_true plain) grows).map fun _ => After.afterCall
    | appendStr | appendInt | appendHex => cases args

def structSize : Nat := 12

structure Tracked where
  run : StrRun
  model : List Byte

def trackStep (w : Tracked) (op : StrOp) : Option Tracked :=
  (strStep w.run op).map fun r => ⟨r, specCall op w.model⟩

def apart (p n q k : Nat) : Bool := p + n ≤ q || q + k ≤ p

/-- What is assumed of a call on the string at `addr`: no NUL is passed, and if the buffer is too
small, kmalloc returns memory apart from it and from the struct. There is no room for two buffers
and a text with `2 ^ 31` characters. -/
def served (addr : Nat) (w : Tracked) (op : StrOp) : Bool :=
  addressable w.run.s op && nulFree op &&
    (request w.run.s op ≤ w.run.s.capacity ||
      match w.run.s.str, newBuffer op with
      | some p, some new =>
        request w.run.s op < 2 ^ 31 &&
          apart new (grownCapacity (request w.run.s op)) p w.run.s.capacity &&
          apart new (grownCapacity (request w.run.s op)) addr structSize
      | _, _ => false)

/-- No terminator goes to the first byte of the new buffer or of the struct, which it does if they
lie right behind a full buffer. -/
def spareByte (addr : Nat) (w : Tracked) (op : StrOp) : Bool :=
  (request w.run.s op ≤ w.run.s.capacity || w.run.s.length ≠ w.run.s.capacity ||
      newBuffer op ≠ w.run.s.str.map (· + w.run.s.capacity)) &&
    (bufferFor w.run.s (request w.run.s op) (newBuffer op)).map
      (· + (specCall op w.model).length) ≠ some addr

inductive StartedAt (addr : Nat) : Tracked → Prop
  | alloc {m m' : Mem} {s : KString} {str : Nat}
      (done : ksalloc m (some addr) (some str) = .ok (m', some s))
      (fresh : apart str stringMinSize addr structSize = true) :
      StartedAt addr ⟨⟨m', s, true⟩, []⟩

/-- The string has the characters it should have, and so it stays: a pop returns the last of them,
and a call that is served returns 0. No byte of the struct was overwritten. -/
structure Refines (addr : Nat) (start w : Tracked) : Prop where
  contents : contents w.run.mem w.run.s = w.model
  pop : Ensures (kspopChar w.run.mem w.run.s) fun r => r.2.2 = w.model.getLast?.getD 0
  call : ∀ op, (served addr w op && spareByte addr w op) = true →
    Ensures (strCall w.run.mem w.run.s op) fun r =>
      r.succeeded = true ∧ GrowableString.contents r.mem r.s = specCall op w.model
  struct : ∀ a, addr ≤ a → a < addr + structSize → w.run.mem.bytes a = start.run.mem.bytes a

structure TrackInv (addr : Nat) (start w : Tracked) (p : Nat) : Prop where
  stored : Stored w.run.mem w.run.s p w.model
  away : apart p w.run.s.capacity addr structSize = true
  full : w.model.length = w.run.s.capacity → p + w.run.s.capacity ≠ addr
  struct : ∀ a, addr ≤ a → a < addr + structSize → w.run.mem.bytes a = start.run.mem.bytes a

private theorem apart_iff {p n q k : Nat} : apart p n q k = true ↔ p + n ≤ q ∨ q + k ≤ p := by
  simp [apart]

section Run
variable {addr : Nat} {start w : Tracked} {op : StrOp}

private theorem served_grows (buffer : w.run.s.str = some p) (serve : served addr w op = true)
    (large : w.run.s.capacity < request w.run.s op) :
    ∃ new, newBuffer op = some new ∧ request w.run.s op < 2 ^ 31 ∧
      (new + grownCapacity (request w.run.s op) ≤ p ∨ p + w.run.s.capacity ≤ new) ∧
      (new + grownCapacity (request w.run.s op) ≤ addr ∨ addr + structSize ≤ new) := by
  unfold served at serve
  rw [Bool.and_eq_true, Bool.or_eq_true, decide_eq_true_eq, buffer] at serve
  rcases serve.2 with small | room
  · omega
  · cases answer : newBuffer op with
    | none =>
      rw [answer] at room
      cases room
    | some new =>
      rw [answer] at room
      simp only [Bool.and_eq_true, decide_eq_true_eq, apart_iff] at room
      exact ⟨new, rfl, room.1.1, room.1.2, room.2⟩

private theorem served_away (inv : TrackInv addr start w p) (serve : served addr w op = true)
    {q : Nat}
    (buffer : bufferFor w.run.s (request w.run.s op) (newBuffer op) = some q) :
    q + capacityFor w.run.s (request w.run.s op) ≤ addr ∨ addr + structSize ≤ q := by
  unfold bufferFor at buffer
  unfold capacityFor
  split_ifs at buffer ⊢ with enough
  · obtain rfl := Option.some.inj (inv.stored.buffer.symm.trans buffer)
    exact apart_iff.mp inv.away
  · obtain ⟨new, answer, -, -, away⟩ := served_grows inv.stored.buffer serve (by omega)
    obtain rfl := Option.some.inj (answer.symm.trans buffer)
    exact away

private theorem TrackInv.call (inv : TrackInv addr start w p)
    (ok : (served addr w op && spareByte addr w op) = true) :
    Ensures (strCall w.run.mem w.run.s op) fun r =>
      r.succeeded = true ∧ ∃ q, TrackInv addr start ⟨r, specCall op w.model⟩ q := by
  obtain ⟨serve, spare⟩ := Bool.and_eq_true_iff.mp ok
  have fits := inv.stored.fits
  have length := inv.stored.length
  have behind := apart_iff.mp inv.away
  obtain ⟨gap, mark⟩ := Bool.and_eq_true_iff.mp spare
  have grows : w.run.s.capacity < request w.run.s op →
      ∃ new, newBuffer op = some new ∧ GrowsTo w.run.s p (request w.run.s op) new := by
    intro large
    obtain ⟨new, answer, small, away, -⟩ := served_grows inv.stored.buffer serve large
    refine ⟨new, answer, small, away, fun full eq => ?_⟩
    simp [answer, inv.stored.buffer, full, eq] at gap
    omega
  have assumed := (Bool.and_eq_true_iff.mp serve).1
  refine (strCall_after inv.stored (Bool.and_eq_true_iff.mp assumed).1
    (Bool.and_eq_true_iff.mp assumed).2 grows).mono fun r after => ⟨after.1, ?_⟩
  obtain ⟨⟨q, buffer, stored⟩, capacity, frame⟩ := after.2
  have away := served_away inv serve buffer
  rw [buffer] at mark
  have last : q + (specCall op w.model).length ≠ addr := by simpa using mark
  have room := stored.fits
  refine ⟨q, stored, ?_, ?_, fun a low high => ?_⟩
  · rw [apart_iff, capacity]
    exact away
  · intro full
    rw [← full]
    exact last
  · rw [← inv.struct a low high]
    refine frame a ⟨fun q' eq => ?_, fun _ p' eq => ?_⟩ fun q' eq => ?_
    · obtain rfl := Option.some.inj (buffer.symm.trans eq)
      unfold structSize at away high
      omega
    · obtain rfl := Option.some.inj (inv.stored.buffer.symm.trans eq)
      have full := inv.full
      unfold structSize at behind high
      omega
    · obtain rfl := Option.some.inj (buffer.symm.trans eq)
      unfold structSize at away high
      omega

private theorem StartedAt.inv (started : StartedAt addr w) : ∃ p, TrackInv addr w w p := by
  cases started with
  | @alloc m m' s str done fresh =>
    obtain ⟨m1, -, done⟩ := bind_eq_ok done
    cases done
    have positive : 0 < stringMinSize := by decide
    have word : stringMinSize ≤ 2 ^ 31 := by decide
    exact ⟨str, ⟨rfl, rfl, Nat.zero_le _, positive, word, nofun, Holds.nil⟩, fresh, nofun,
      fun _ _ _ => rfl⟩

end Run

/-- In every run in which no terminator is written over the new buffer or the struct, the string
has the characters that the list model has. -/
theorem string_run_refines (addr : Nat) (start w : Tracked) (started : StartedAt addr start)
    (run : Run trackStep (fun w op => (served addr w op && spareByte addr w op) = true) start w) :
    Refines addr start w := by
  have inv : ∃ p, TrackInv addr start w p := by
    apply run.invariant started.inv
    rintro w op t ⟨p, inv⟩ ok step
    obtain ⟨r, done, rfl⟩ := Option.map_eq_some_iff.mp step
    unfold strStep at done
    split_ifs at done with fits
    obtain ⟨r', ran, -, q, inv'⟩ := inv.call ok
    obtain rfl := Except.ok.inj ((of_toOption done).symm.trans ran)
    exact ⟨q, inv'⟩
  obtain ⟨p, inv⟩ := inv
  refine ⟨inv.stored.contents_eq, (kspopChar_after inv.stored).mono fun _ after => after.1,
    fun op ok => (inv.call ok).mono fun r after => ⟨after.1, ?_⟩, inv.struct⟩
  obtain ⟨q, inv'⟩ := after.2
  exact inv'.stored.contents_eq

def allocatedAt (addr str : Nat) : Tracked :=
  ⟨⟨{ bytes := Function.update blank.bytes str 0
      heap := [str, addr]
      writes := [(0, 32)]
      frees := [] }, ⟨some str, 0, 32⟩, true⟩, []⟩

private theorem allocatedAt_started {addr str : Nat}
    (fresh : apart str stringMinSize addr structSize = true) :
    StartedAt addr (allocatedAt addr str) :=
  .alloc (m := blank) rfl fresh

def refineOps : List StrOp :=
  List.replicate 33 (.appendChar 0x61 (some 0xC0112000)) ++
    [.popChar, .fit 0x20 20 none, .appendStr [0x68, 0x69] none, .fit 0x2E 70 (some 0xC0113000)]

theorem string_run_refines_sample :
    ∃ w, exec trackStep (fun w op => served 0xC0110000 w op && spareByte 0xC0110000 w op)
        (allocatedAt 0xC0110000 0xC0110020) refineOps = some w ∧ w.run.s.capacity = 128 ∧
      Refines 0xC0110000 (allocatedAt 0xC0110000 0xC0110020) w := by
  have result : (exec trackStep (fun w op => served 0xC0110000 w op && spareByte 0xC0110000 w op)
      (allocatedAt 0xC0110000 0xC0110020) refineOps).map (fun w => w.run.s.capacity) =
        some 128 := by decide +kernel
  obtain ⟨w, eq, capacity⟩ := Option.map_eq_some_iff.mp result
  exact ⟨w, eq, capacity, string_run_refines _ _ w (allocatedAt_started (by decide))
    (Run.of_exec eq)⟩

/-- 33 times the same character, with the new buffer right behind the old one: the terminator of
the old buffer overwrites the first character. -/
theorem string_run_loses_first :
    ¬ ∀ addr start w, StartedAt addr start →
      Run trackStep (fun w op => served addr w op = true) start w →
        contents w.run.mem w.run.s = w.model := by
  intro claim
  have result : (exec trackStep (served 0xC0110000) (allocatedAt 0xC0110000 0xC0110020)
      (List.replicate 33 (.appendChar 0x61 (some 0xC0110040)))).map
        (fun w => ((contents w.run.mem w.run.s).head?, w.model.head?)) =
          some (some 0, some 0x61) := by decide +kernel
  obtain ⟨w, eq, first⟩ := Option.map_eq_some_iff.mp result
  have same := claim _ _ w (allocatedAt_started (by decide)) (Run.of_exec eq)
  obtain ⟨found, expected⟩ := Prod.mk.inj first
  rw [same, expected] at found
  cases found

/-- Those are the places that `kmalloc_early` has for the struct, its buffer and the new buffer when
the string is the first thing on the heap: blocks 0, 4 and 8 of eight bytes. -/
example :
    let struct := allocBlocks (kmallocEarlyInit ⟨id, id⟩) (ilog2Roundup (structSize / 8))
    let buffer := allocBlocks struct.2 (ilog2Roundup (stringMinSize / 8))
    let larger := allocBlocks buffer.2 (ilog2Roundup (grownCapacity 33 / 8))
    (struct.1, buffer.1, larger.1) = (some 0, some 4, some 8) := by
  decide +kernel

end OhMyOs.Libs.GrowableString
