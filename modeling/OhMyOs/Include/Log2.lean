/- GID: OhMyOs/Include/Log2
   generality: I
   digest: fls of include/bitops.h and the binary logarithms of include/log2.h. -/

import OhMyOs.Include.Bitops
import Mathlib.Algebra.Order.Ring.Nat
import Mathlib.Data.Nat.Size
import Mathlib.Order.Bounds.Basic

set_option autoImplicit false
set_option relaxedAutoImplicit false

namespace OhMyOs.Include.Log2

open OhMyOs.Include.Bitops

/-- One `if (x & mask) { x >>= shift; r += shift; }` of `fls`, on the pair of `x` and `r`. -/
def flsStep (mask shift : Nat) (p : Nat × Nat) : Nat × Nat :=
  if p.1 &&& mask ≠ 0 then (p.1 >>> shift, p.2 + shift) else p

def fls (x : Nat) : Nat :=
  if x = 0 then 0
  else
    let p := flsStep 0xffff0000 16 (x, 0)
    let p := flsStep 0xff00 8 p
    let p := flsStep 0xf0 4 p
    let p := flsStep 0xc 2 p
    let p := flsStep 0x2 1 p
    if p.1 &&& 0x1 ≠ 0 then p.2 + 1 else p.2

def ilog2Roundup (n : Nat) : Nat := if n = 0 then 0 else fls (n - 1)

/-- `fls(n) - 1`, an `int` converted to `unsigned long`. -/
def ilog2Rounddown (n : Nat) : Nat := wsub (fls n) 1

/-- The macro `ilog2`. -/
def ilog2 (n : Nat) : Nat := ilog2Rounddown n

/-- `1UL << ilog2_roundup(n)`; the shift instruction uses the low five bits of the count. -/
def roundupPowOfTwo (n : Nat) : Nat := (1 <<< (ilog2Roundup n % 32)) % 2 ^ 32

/-- Between two tests of `fls`: `r` bits of the argument are shifted out and the rest is not
zero and shorter than `width` bits. -/
structure Narrowed (x width : Nat) (p : Nat × Nat) : Prop where
  shifted : p.1 = x / 2 ^ p.2
  positive : 0 < p.1
  short : p.1 < 2 ^ width

private theorem and_upper_half {x k : Nat} (short : x < 2 ^ (k + k)) :
    x &&& ((2 ^ k - 1) <<< k) = (x / 2 ^ k) * 2 ^ k := by
  apply Nat.eq_of_testBit_eq
  intro i
  rw [← Nat.shiftLeft_eq, ← Nat.shiftRight_eq_div_pow]
  simp only [Nat.testBit_and, Nat.testBit_shiftLeft, Nat.testBit_two_pow_sub_one,
    Nat.testBit_shiftRight]
  by_cases high : k ≤ i
  · rw [Nat.add_sub_cancel' high]
    by_cases inside : i - k < k
    · simp [high, inside]
    · have beyond : x.testBit i = false :=
        Nat.testBit_lt_two_pow (short.trans_le (Nat.pow_le_pow_right (by omega) (by omega)))
      simp [beyond]
  · simp [high]

private theorem Narrowed.step {x k m : Nat} {p : Nat × Nat} (narrowed : Narrowed x (k + k) p)
    (upper : m = (2 ^ k - 1) <<< k) : Narrowed x k (flsStep m k p) := by
  obtain ⟨shifted, positive, short⟩ := narrowed
  have masked : p.1 &&& m = p.1 / 2 ^ k * 2 ^ k := upper ▸ and_upper_half short
  have base : 0 < 2 ^ k := Nat.two_pow_pos k
  unfold flsStep
  rw [masked]
  by_cases rest : p.1 < 2 ^ k
  · rw [Nat.div_eq_of_lt rest, Nat.zero_mul, if_neg (not_not.mpr rfl)]
    exact ⟨shifted, positive, rest⟩
  · have left : 0 < p.1 / 2 ^ k := Nat.div_pos (Nat.le_of_not_lt rest) base
    rw [if_pos (Nat.mul_pos left base).ne']
    refine ⟨?_, ?_, ?_⟩
    · rw [Nat.shiftRight_eq_div_pow, shifted, Nat.div_div_eq_div_mul, ← Nat.pow_add]
    · rwa [Nat.shiftRight_eq_div_pow]
    · rw [Nat.shiftRight_eq_div_pow]
      rw [Nat.pow_add] at short
      exact Nat.div_lt_of_lt_mul short

theorem fls_bounds {x : Nat} (positive : 0 < x) (fits : x < 2 ^ 32) :
    ∃ k, fls x = k + 1 ∧ 2 ^ k ≤ x ∧ x < 2 ^ (k + 1) := by
  have start : Narrowed x (16 + 16) (x, 0) := ⟨by simp, positive, fits⟩
  have half : Narrowed x (8 + 8) _ := start.step (m := 0xffff0000) (by decide)
  have quarter : Narrowed x (4 + 4) _ := half.step (m := 0xff00) (by decide)
  have eighth : Narrowed x (2 + 2) _ := quarter.step (m := 0xf0) (by decide)
  have two : Narrowed x (1 + 1) _ := eighth.step (m := 0xc) (by decide)
  obtain ⟨shifted, left, short⟩ := two.step (m := 0x2) (by decide)
  simp only [fls, if_neg positive.ne']
  generalize flsStep 0x2 1 _ = p at *
  obtain ⟨y, r⟩ := p
  obtain rfl : y = 1 := by
    simp only at left short
    omega
  have base : 0 < 2 ^ r := Nat.two_pow_pos r
  refine ⟨r, by simp, ?_, ?_⟩
  · exact (Nat.div_pos_iff.mp (shifted ▸ Nat.one_pos)).2
  · rw [Nat.pow_succ, Nat.mul_comm]
    exact (Nat.div_lt_iff_lt_mul base).mp (shifted ▸ Nat.one_lt_two)

theorem fls_eq_size {x : Nat} (fits : x < 2 ^ 32) : fls x = x.size := by
  rcases Nat.eq_zero_or_pos x with rfl | positive
  · rfl
  · obtain ⟨k, value, low, high⟩ := fls_bounds positive fits
    rw [value]
    exact Nat.le_antisymm (Nat.lt_size.mpr low) (Nat.size_le.mpr high)

theorem ilog2_bounds {n : Nat} (positive : 0 < n) (fits : n < 2 ^ 32) :
    2 ^ ilog2 n ≤ n ∧ n < 2 ^ (ilog2 n + 1) := by
  obtain ⟨k, value, low, high⟩ := fls_bounds positive fits
  have small : k < 32 := (Nat.pow_lt_pow_iff_right Nat.one_lt_two).mp (low.trans_lt fits)
  have order : ilog2 n = k := by
    rw [ilog2, ilog2Rounddown, value, wsub_eq (by omega) (by omega), Nat.add_sub_cancel]
  rw [order]
  exact ⟨low, high⟩

theorem ilog2Roundup_bounds {n : Nat} (fits : n ≤ 2 ^ 32) :
    n ≤ 2 ^ ilog2Roundup n ∧ ∀ k, n ≤ 2 ^ k → ilog2Roundup n ≤ k := by
  unfold ilog2Roundup
  by_cases small : n ≤ 1
  · have zero : (if n = 0 then 0 else fls (n - 1)) = 0 := by
      rcases Nat.le_one_iff_eq_zero_or_eq_one.mp small with rfl | rfl
      · rfl
      · rfl
    rw [zero]
    exact ⟨small, fun k _ => Nat.zero_le k⟩
  · obtain ⟨k, value, low, high⟩ := fls_bounds (x := n - 1) (by omega) (by omega)
    rw [if_neg (by omega), value]
    refine ⟨by omega, fun j bound => ?_⟩
    have less : 2 ^ k < 2 ^ j := by omega
    exact (Nat.pow_lt_pow_iff_right Nat.one_lt_two).mp less

theorem ilog2Roundup_isLeast {n : Nat} (fits : n ≤ 2 ^ 32) :
    IsLeast {k | n ≤ 2 ^ k} (ilog2Roundup n) := by
  obtain ⟨above, least⟩ := ilog2Roundup_bounds fits
  exact ⟨above, fun k bound => least k bound⟩

theorem ilog2Rounddown_isGreatest {n : Nat} (positive : 0 < n) (fits : n < 2 ^ 32) :
    IsGreatest {k | 2 ^ k ≤ n} (ilog2Rounddown n) := by
  obtain ⟨low, high⟩ := ilog2_bounds positive fits
  refine ⟨low, fun k bound => ?_⟩
  have below : 2 ^ k < 2 ^ (ilog2 n + 1) := Nat.lt_of_le_of_lt bound high
  exact Nat.lt_succ_iff.mp ((Nat.pow_lt_pow_iff_right Nat.one_lt_two).mp below)

theorem le_of_ilog2Roundup_le {m n : Nat} (small : m ≤ 2 ^ 32) (positive : 0 < n)
    (fits : n < 2 ^ 32) (order : ilog2Roundup m ≤ ilog2 n) : m ≤ n :=
  calc m ≤ 2 ^ ilog2Roundup m := (ilog2Roundup_isLeast small).1
    _ ≤ 2 ^ ilog2 n := Nat.pow_le_pow_right Nat.two_pos order
    _ ≤ n := (ilog2Rounddown_isGreatest positive fits).1

theorem roundupPowOfTwo_bounds {n : Nat} (fits : n ≤ 2 ^ 31) :
    n ≤ roundupPowOfTwo n ∧ roundupPowOfTwo n ≤ 2 ^ 31 := by
  obtain ⟨above, least⟩ := ilog2Roundup_bounds (n := n) (by omega)
  have small : ilog2Roundup n ≤ 31 := least 31 fits
  have power : 2 ^ ilog2Roundup n ≤ 2 ^ 31 := Nat.pow_le_pow_right Nat.two_pos small
  have count : ilog2Roundup n % 32 = ilog2Roundup n := Nat.mod_eq_of_lt (by omega)
  rw [roundupPowOfTwo, Nat.one_shiftLeft, count, Nat.mod_eq_of_lt (by omega)]
  exact ⟨above, power⟩

theorem roundupPowOfTwo_eq_one_or_le {n : Nat} (fits : n < 2 ^ 32) :
    roundupPowOfTwo n = 1 ∨ n ≤ roundupPowOfTwo n := by
  obtain ⟨above, least⟩ := ilog2Roundup_bounds fits.le
  rw [roundupPowOfTwo, Nat.one_shiftLeft]
  by_cases wide : ilog2Roundup n < 32
  · rw [Nat.mod_eq_of_lt wide, Nat.mod_eq_of_lt (Nat.pow_lt_pow_right Nat.one_lt_two wide)]
    exact .inr above
  · have last : ilog2Roundup n = 32 := Nat.le_antisymm (least 32 fits.le) (Nat.le_of_not_lt wide)
    rw [last]
    exact .inl (by decide)

end OhMyOs.Include.Log2
