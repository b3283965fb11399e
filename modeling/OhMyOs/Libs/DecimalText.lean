/- GID: OhMyOs/Libs/DecimalText
   generality: I
   digest: The text that to_str makes of an int, and strtol reading it back. -/

import Mathlib.Data.List.Induction
import OhMyOs.Lib.Digits
import OhMyOs.Libs.GrowableString

set_option autoImplicit false
set_option relaxedAutoImplicit false

namespace OhMyOs.Libs.GrowableString

open OhMyOs.Include.Constants
open OhMyOs.Lib.Digits

/-! ### strtol -/

/-- `c >= low && c <= high`, where `char` is signed. -/
def within (low high c : Byte) : Bool := low.sle c && c.sle high

def strtolDigit (c : Byte) : Option Nat :=
  if within 48 57 c then some (c.toNat - 48)
  else if within 97 122 c then some (c.toNat - 97 + 10)
  else if within 65 90 c then some (c.toNat - 65 + 10)
  else none

/-- The part of `strtol` that takes `0x` or `0` from the front and settles the base. -/
def strtolPrefix (s : List Byte) (base : Int) : List Byte × Int :=
  if (base = 0 || base = 16) && (s[0]? = some 48 && s[1]? = some 120) then (s.drop 2, 16)
  else if base = 0 && s[0]? = some 48 then (s.drop 1, 8)
  else if base = 0 then (s, 10)
  else (s, base)

/-- The digit loop of `strtol`. A pointer is given by the characters from there to the NUL. -/
def strtolLoop (base : Int) : List Byte → Int → Int × List Byte
  | [], val => (val, [])
  | c :: s, val =>
    match strtolDigit c with
    | none => (val, c :: s)
    | some dig =>
      if base ≤ dig then (val, c :: s)
      else strtolLoop base s ((val * base + dig).bmod (2 ^ 32))

def strtol (s : List Byte) (base : Int) : Int × List Byte :=
  let s := s.dropWhile fun c => c = 32 || c = 9
  let neg := s.head? = some 45
  let s := if s.head? = some 43 || s.head? = some 45 then s.drop 1 else s
  let (s, base) := strtolPrefix s base
  let (val, s) := strtolLoop base s 0
  (if neg then (-val).bmod (2 ^ 32) else val, s)

/-! ### What is written -/

theorem digitLoop_digits {base val fuel : Nat} (digit : Nat → Byte) (buf : List Byte)
    (one : 1 < base) (small : val < base ^ fuel) :
    digitLoop base digit fuel val buf = buf ++ (base.digits val).map digit := by
  induction fuel generalizing val buf with
  | zero =>
    obtain rfl : val = 0 := by simpa using small
    simp [digitLoop]
  | succ fuel ih =>
    rw [digitLoop]
    split_ifs with positive
    · rw [ih (buf ++ [digit (val % base)])
        (Nat.div_lt_of_lt_mul (by rwa [← Nat.pow_succ'])), Nat.digits_def' one positive]
      simp
    · obtain rfl : val = 0 := by omega
      simp

private theorem set_swap (front middle back : List Byte) (a b : Byte) :
    let buf := front ++ a :: middle ++ b :: back
    let j := front.length + middle.length + 1
    (buf.set front.length (buf.getD j 0)).set j (buf.getD front.length 0) =
      (front ++ [b]) ++ middle ++ (a :: back) := by
  have last : (front ++ a :: middle ++ b :: back)[front.length + middle.length + 1]? = some b := by
    rw [List.getElem?_append_right (by simp; omega)]
    simp [Nat.add_assoc]
  have first : (front ++ a :: middle ++ b :: back)[front.length]? = some a := by simp
  simp only [List.getD_eq_getElem?_getD, last, first, Option.getD_some]
  rw [List.append_assoc, List.set_append_right _ _ (le_refl _), Nat.sub_self, List.cons_append,
    List.set_cons_zero, List.set_append_right _ _ (by omega),
    show front.length + middle.length + 1 - front.length = middle.length + 1 by omega,
    List.set_cons_succ, List.set_append_right _ _ (le_refl _), Nat.sub_self, List.set_cons_zero]
  simp

private theorem reverseLoop_reverse (fuel : Nat) (front middle back : List Byte)
    (enough : middle.length ≤ fuel) :
    reverseLoop fuel (front ++ middle ++ back) front.length (front.length + middle.length - 1) =
      front ++ middle.reverse ++ back := by
  -- each round swaps the outermost two characters, so the induction takes both off
  induction middle using List.bidirectionalRec generalizing fuel front back with
  | nil =>
    cases fuel with
    | zero => simp [reverseLoop]
    | succ fuel =>
      rw [reverseLoop, if_neg (by simp)]
      simp
  | singleton a =>
    cases fuel with
    | zero => simp at enough
    | succ fuel =>
      rw [reverseLoop, if_neg (by simp)]
      simp
  | cons_append a middle b ih =>
    cases fuel with
    | zero => simp at enough
    | succ fuel =>
      have j : front.length + (a :: (middle ++ [b])).length - 1 =
          front.length + middle.length + 1 := by simp; omega
      have swap := set_swap front middle back a b
      have next := ih fuel (front ++ [b]) (a :: back) (by simp at enough; omega)
      rw [j, reverseLoop, if_pos (by omega)]
      have split : front ++ a :: (middle ++ [b]) ++ back = front ++ a :: middle ++ b :: back := by
        simp
      rw [split]
      simp only at swap
      rw [swap]
      have length : (front ++ [b]).length = front.length + 1 := by simp
      rw [length] at next
      rw [show front.length + middle.length + 1 - 1 = front.length + 1 + middle.length - 1 by omega,
        next]
      simp

theorem reverseStr_reverse (front middle : List Byte) :
    reverseStr (front ++ middle) front.length ((front ++ middle).length - 1) =
      front ++ middle.reverse := by
  have reversed := reverseLoop_reverse ((front ++ middle).length - 1 + 1) front middle []
    (by simp; omega)
  simpa [reverseStr] using reversed

def decimalDigit (d : Nat) : Byte := BitVec.ofNat 8 (48 + d)

def sign (v : Int) : List Byte := if v < 0 then [45] else []

def decimalDigits (n : Nat) : List Nat := if n = 0 then [0] else digits 10 n

private theorem toStr_ne_zero {v : Int} (nonzero : v ≠ 0) {n : Nat}
    (abs : (if v < 0 then (v * -1).bmod (2 ^ 32) else v).toNat = n) :
    toStr v = reverseStr (digitLoop 10 decimalDigit 32 n (sign v)) (sign v).length
      ((digitLoop 10 decimalDigit 32 n (sign v)).length - 1) := by
  subst abs
  have start : (sign v).length = if v < 0 then 1 else 0 := by
    unfold sign
    split_ifs <;> rfl
  rw [start]
  exact if_neg nonzero

private theorem toStr_text {v : Int} (low : -2 ^ 31 < v) (high : v < 2 ^ 31) :
    toStr v = sign v ++ (decimalDigits v.natAbs).map decimalDigit := by
  by_cases zero : v = 0
  · subst zero
    rfl
  · have abs : (if v < 0 then (v * -1).bmod (2 ^ 32) else v).toNat = v.natAbs := by
      split_ifs with negative
      · rw [Int.bmod_eq_of_le (by omega) (by omega)]
        omega
      · omega
    have small : v.natAbs < 10 ^ 32 := by omega
    rw [toStr_ne_zero zero abs, digitLoop_digits decimalDigit (sign v) (by decide) small,
      reverseStr_reverse, decimalDigits, if_neg (by omega), digits, List.map_reverse]

/-! ### Reading it back -/

private theorem strtolDigit_decimalDigit {d : Nat} (digit : d < 10) :
    strtolDigit (decimalDigit d) = some d := by
  interval_cases d <;> decide

private theorem strtolLoop_decimal {ds : List Nat} (decimal : ∀ d ∈ ds, d < 10) (val : Int) :
    strtolLoop 10 (ds.map decimalDigit) val =
      (ds.foldl (fun (v : Int) (d : Nat) => (v * (10 : Nat) + d).bmod (2 ^ 32 : Nat)) val, []) := by
  induction ds generalizing val with
  | nil => rfl
  | cons d ds ih =>
    have digit := decimal d List.mem_cons_self
    rw [List.map_cons, strtolLoop, strtolDigit_decimalDigit digit]
    simp only [if_neg (show ¬ (10 : Int) ≤ d by omega)]
    exact ih (fun e member => decimal e (List.mem_cons_of_mem _ member)) _

/-- Decimal text: at least one digit, no zero in front of others, and a sign if and only if the
number is negative. -/
structure Decimal (v : Int) (text : List Byte) (ds : List Nat) : Prop where
  nonempty : ds ≠ []
  decimal : ∀ d ∈ ds, d < 10
  leading : ds.head? = some 0 → ds = [0]
  value : value 10 ds = v.natAbs
  text : text = sign v ++ ds.map decimalDigit

private theorem decimalDigits_decimal (v : Int) :
    Decimal v (sign v ++ (decimalDigits v.natAbs).map decimalDigit) (decimalDigits v.natAbs) := by
  unfold decimalDigits
  split_ifs with zero
  · refine ⟨by simp, by simp, fun _ => rfl, ?_, rfl⟩
    rw [zero]
    rfl
  · exact ⟨digits_ne_nil zero, digits_lt (by decide),
      fun head => absurd head (digits_head? 10 v.natAbs), value_digits 10 v.natAbs, rfl⟩

private theorem decimalDigit_ne {d : Nat} (digit : d < 10) :
    decimalDigit d ∉ ([32, 9, 43, 45, 120] : List Byte) ∧ (decimalDigit d = 48 → d = 0) := by
  interval_cases d <;> decide

private theorem strtolPrefix_decimal {ds : List Nat} (decimal : ∀ d ∈ ds, d < 10) {base : Int}
    (auto : base = 0 ∨ base = 10) :
    strtolPrefix (ds.map decimalDigit) base = (ds.map decimalDigit, 10) ∨
      ds.head? = some 0 ∧ strtolPrefix (ds.map decimalDigit) base =
        (ds.tail.map decimalDigit, 8) := by
  have noHex : (ds.map decimalDigit)[1]? ≠ some 120 := by
    intro found
    rw [List.getElem?_map] at found
    obtain ⟨d, at_, hex⟩ := Option.map_eq_some_iff.mp found
    have plain := (decimalDigit_ne (decimal d (List.mem_of_getElem? at_))).1
    rw [hex] at plain
    exact plain (by decide)
  unfold strtolPrefix
  rw [if_neg fun hex => by
    simp only [Bool.and_eq_true, decide_eq_true_eq] at hex
    exact noHex hex.2.2]
  rcases auto with rfl | rfl
  · by_cases octal : (ds.map decimalDigit)[0]? = some 48
    · right
      rw [if_pos (by simpa using octal)]
      rw [List.getElem?_map] at octal
      obtain ⟨d, at_, zero⟩ := Option.map_eq_some_iff.mp octal
      obtain rfl := (decimalDigit_ne (decimal d (List.mem_of_getElem? at_))).2 zero
      exact ⟨by rw [List.head?_eq_getElem?, at_], by rw [List.drop_one, List.map_tail]⟩
    · left
      rw [if_neg (by simpa using octal), if_pos rfl]
  · left
    rw [if_neg (by simp), if_neg (by decide)]

private theorem strtolLoop_prefix {ds : List Nat} (decimal : ∀ d ∈ ds, d < 10)
    (leading : ds.head? = some 0 → ds = [0]) {base : Int} (auto : base = 0 ∨ base = 10) :
    strtolLoop (strtolPrefix (ds.map decimalDigit) base).2
        (strtolPrefix (ds.map decimalDigit) base).1 0 =
      ((value 10 ds : Int).bmod (2 ^ 32), []) := by
  rcases strtolPrefix_decimal decimal auto with plain | ⟨zero, octal⟩
  · rw [plain, strtolLoop_decimal decimal, foldl_wrap]
  · obtain rfl := leading zero
    rw [octal]
    rfl

private theorem strtol_sign {v : Int} {ds : List Nat} (nonempty : ds ≠ [])
    (decimal : ∀ d ∈ ds, d < 10) (base : Int) :
    strtol (sign v ++ ds.map decimalDigit) base =
      let r := strtolLoop (strtolPrefix (ds.map decimalDigit) base).2
        (strtolPrefix (ds.map decimalDigit) base).1 0
      (if v < 0 then (-r.1).bmod (2 ^ 32) else r.1, r.2) := by
  obtain ⟨d, ds, rfl⟩ := List.exists_cons_of_ne_nil nonempty
  have plain := (decimalDigit_ne (decimal d List.mem_cons_self)).1
  simp only [List.mem_cons, List.not_mem_nil, or_false, not_or, BitVec.ofNat_eq_ofNat] at plain
  unfold strtol sign
  by_cases negative : v < 0
  · simp [negative]
  · simp [negative, plain]

def DecimalExact (v : Int) : Prop :=
  (∃ ds, Decimal v (toStr v) ds) ∧ ∀ base ∈ ([0, 10] : List Int), strtol (toStr v) base = (v, [])

theorem decimalExact_iff (v : Int) (low : -2 ^ 31 ≤ v) (high : v < 2 ^ 31) :
    DecimalExact v ↔ v ≠ -2 ^ 31 := by
  constructor
  · rintro ⟨⟨ds, decimal⟩, -⟩ rfl
    -- the absolute value is negative again, so no digit is written behind the sign
    have text : toStr (-2 ^ 31) = sign (-2 ^ 31) := by decide +kernel
    have written := decimal.text
    rw [text, List.self_eq_append_right, List.map_eq_nil_iff] at written
    exact decimal.nonempty written
  · intro smallest
    have decimal := decimalDigits_decimal v
    have text := toStr_text (by omega) high
    refine ⟨⟨_, text ▸ decimal⟩, fun base member => ?_⟩
    have auto : base = 0 ∨ base = 10 := by simpa using member
    rw [text, strtol_sign decimal.nonempty decimal.decimal,
      strtolLoop_prefix decimal.decimal decimal.leading auto, decimal.value,
      Int.bmod_eq_of_le (by omega) (by omega)]
    simp only [Prod.mk.injEq, and_true]
    split_ifs with negative
    · rw [Int.bmod_eq_of_le (by omega) (by omega)]
      omega
    · omega

theorem decimalExact_iff_largest : DecimalExact (2 ^ 31 - 1) :=
  (decimalExact_iff (2 ^ 31 - 1) (by decide) (by decide)).mpr (by decide)

/-- The smallest `int` becomes a sign without a digit. -/
theorem toStr_smallest : toStr (-2 ^ 31) = [45] ∧ ¬ DecimalExact (-2 ^ 31) := by
  have text : toStr (-2 ^ 31) = [45] := by decide +kernel
  refine ⟨text, fun exact => ?_⟩
  have back := exact.2 10 (by decide)
  rw [text] at back
  exact absurd back (by decide +kernel)

end OhMyOs.Libs.GrowableString
