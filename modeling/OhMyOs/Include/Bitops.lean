/- GID: OhMyOs/Include/Bitops
   generality: I
   digest: Bit primitives of include/atomic.h and the rounding macros of include/stdlib.h. -/

import Mathlib.Data.Nat.Basic
import Mathlib.Tactic.Ring

set_option autoImplicit false
set_option relaxedAutoImplicit false

namespace OhMyOs.Include.Bitops

/-- The macro `BIT`. -/
def bit (i : Nat) : Nat := 1 <<< i

/-- `set_bit` on a word: `btsl`. -/
def setBit (nr : Nat) (w : BitVec 32) : BitVec 32 := w ||| (1#32 <<< nr)

/-- `clear_bit` on a word: `btrl`. -/
def clearBit (nr : Nat) (w : BitVec 32) : BitVec 32 := w &&& ~~~(1#32 <<< nr)

/-- `test_bit` on a word: `btl`. -/
def testBit (nr : Nat) (w : BitVec 32) : Bool := w.getLsbD nr

private theorem one_shiftLeft_getLsbD (n m : Nat) (hn : n < 32) :
    (1#32 <<< n).getLsbD m = decide (m = n) := by
  rw [BitVec.getLsbD_shiftLeft, BitVec.getLsbD_one]
  by_cases h : m = n
  · subst h
    simp [hn]
  · have : ¬ (m < 32 ∧ n ≤ m ∧ m - n = 0) := by omega
    simp only [h, decide_false]
    by_contra c
    simp at c
    omega

@[simp] theorem testBit_setBit_self {n : Nat} (hn : n < 32) (w : BitVec 32) :
    testBit n (setBit n w) = true := by
  simp [testBit, setBit, one_shiftLeft_getLsbD n n hn]

theorem testBit_setBit_ne {n m : Nat} (hn : n < 32) (h : m ≠ n) (w : BitVec 32) :
    testBit m (setBit n w) = testBit m w := by
  simp [testBit, setBit, one_shiftLeft_getLsbD n m hn, h]

@[simp] theorem testBit_clearBit_self {n : Nat} (hn : n < 32) (w : BitVec 32) :
    testBit n (clearBit n w) = false := by
  simp [testBit, clearBit, one_shiftLeft_getLsbD n n hn]

theorem testBit_clearBit_ne {n m : Nat} (hn : n < 32) (h : m ≠ n) (w : BitVec 32) :
    testBit m (clearBit n w) = testBit m w := by
  simp only [testBit, clearBit, BitVec.getLsbD_and, BitVec.getLsbD_not,
    one_shiftLeft_getLsbD n m hn, h, decide_false, Bool.not_false, Bool.and_true]
  by_cases hm : m < 32
  · simp [hm]
  · simp [hm, BitVec.getLsbD_of_ge w m (by omega)]

def wsub (a b : Nat) : Nat := (a + 2 ^ 32 - b) % 2 ^ 32

theorem wsub_eq {a b : Nat} (le : b ≤ a) (fits : a < 2 ^ 32) : wsub a b = a - b := by
  unfold wsub
  have shift : a + 2 ^ 32 - b = a - b + 2 ^ 32 := by omega
  rw [shift, Nat.add_mod_right, Nat.mod_eq_of_lt (by omega)]

/-- The macro `round_down` on `size_t` values. -/
def roundDown (a n : Nat) : Nat := a - a % n

/-- The macro `round_up`; the sum is formed in 32 bits. -/
def roundUp (a n : Nat) : Nat := roundDown ((a + n - 1) % 2 ^ 32) n

theorem roundDown_le (a n : Nat) : roundDown a n ≤ a := Nat.sub_le _ _

theorem roundDown_eq_mul (a n : Nat) : roundDown a n = n * (a / n) := by
  have := Nat.div_add_mod a n
  unfold roundDown
  omega

theorem dvd_roundDown (a n : Nat) : n ∣ roundDown a n := ⟨a / n, roundDown_eq_mul a n⟩

theorem lt_roundDown_add {n : Nat} (hn : 0 < n) (a : Nat) : a < roundDown a n + n := by
  have := Nat.mod_lt a hn
  unfold roundDown
  omega

theorem dvd_roundUp (a n : Nat) : n ∣ roundUp a n := dvd_roundDown _ n

theorem roundUp_bounds {a n : Nat} (hn : 0 < n) (fits : a + n ≤ 2 ^ 32) :
    a ≤ roundUp a n ∧ roundUp a n < a + n := by
  have small : (a + n - 1) % 2 ^ 32 = a + n - 1 := Nat.mod_eq_of_lt (by omega)
  have low := lt_roundDown_add hn (a + n - 1)
  have high := roundDown_le (a + n - 1) n
  unfold roundUp
  rw [small]
  omega

end OhMyOs.Include.Bitops
