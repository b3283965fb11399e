/- GID: OhMyOs/Lib/Digits
   generality: G
   digest: Numbers read from their digits, the leading one first, with or without wraparound. -/

import Mathlib.Data.Nat.Digits.Lemmas

set_option autoImplicit false
set_option relaxedAutoImplicit false

namespace OhMyOs.Lib.Digits

variable {base n k : Nat}

def value (base : Nat) (ds : List Nat) : Nat := Nat.ofDigits base ds.reverse

/-- The digits of a number, the leading one first; zero has none. -/
def digits (base n : Nat) : List Nat := (base.digits n).reverse

@[simp] theorem value_digits (base n : Nat) : value base (digits base n) = n := by
  rw [value, digits, List.reverse_reverse, Nat.ofDigits_digits]

theorem digits_lt (one : 1 < base) : ∀ d ∈ digits base n, d < base :=
  fun _ member => Nat.digits_lt_base one (List.mem_reverse.mp member)

theorem digits_ne_nil (positive : n ≠ 0) : digits base n ≠ [] := by
  rw [digits, ne_eq, List.reverse_eq_nil_iff]
  exact Nat.digits_ne_nil_iff_ne_zero.mpr positive

theorem digits_length_le (one : 1 < base) (small : n < base ^ k) : (digits base n).length ≤ k := by
  rw [digits, List.length_reverse]
  exact (Nat.digits_length_le_iff one n).mpr small

theorem digits_head? (base n : Nat) : (digits base n).head? ≠ some 0 := by
  rw [digits, List.head?_reverse]
  intro last
  have some := List.getLast?_eq_some_iff.mp last
  obtain ⟨front, eq⟩ := some
  have nonempty : base.digits n ≠ [] := by simp [eq]
  have leading := Nat.getLast_digit_ne_zero base (Nat.digits_ne_nil_iff_ne_zero.mp nonempty)
  apply leading
  simp [eq]

private theorem value_concat (base : Nat) (ds : List Nat) (d : Nat) :
    value base (ds ++ [d]) = value base ds * base + d := by
  rw [value, value, List.reverse_append, List.reverse_singleton, List.singleton_append,
    Nat.ofDigits_cons, Nat.mul_comm, Nat.add_comm]

theorem value_zeros (base k : Nat) (ds : List Nat) :
    value base (List.replicate k 0 ++ ds) = value base ds := by
  rw [value, List.reverse_append, List.reverse_replicate, Nat.ofDigits_append_replicate_zero, value]

theorem foldl_wrap (base k : Nat) (ds : List Nat) :
    ds.foldl (fun (v : Int) (d : Nat) => (v * base + d).bmod k) 0 =
      (value base ds : Int).bmod k := by
  -- the reader appends digits at the end, so the induction runs from there
  induction ds using List.reverseRecOn with
  | nil => simp [value]
  | append_singleton ds d ih =>
    rw [List.foldl_append, List.foldl_cons, List.foldl_nil, ih, value_concat, Nat.cast_add,
      Nat.cast_mul, ← Int.bmod_add_bmod, Int.bmod_mul_bmod, Int.bmod_add_bmod]

end OhMyOs.Lib.Digits
