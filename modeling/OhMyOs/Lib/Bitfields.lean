/- GID: OhMyOs/Lib/Bitfields
   generality: G
   digest: Records packed into one number, the lowest field first, and how a field is read back. -/

import Mathlib.Algebra.Group.Nat.Defs
import Mathlib.Data.Nat.ModEq
import Mathlib.Tactic.Ring

set_option autoImplicit false
set_option relaxedAutoImplicit false

namespace OhMyOs.Lib.Bitfields

abbrev Field := Nat × Nat

def width (fields : List Field) : Nat := (fields.map Prod.fst).sum

def pack : List Field → Nat
  | [] => 0
  | (w, v) :: rest => v % 2 ^ w + 2 ^ w * pack rest

def bits (n offset w : Nat) : Nat := n / 2 ^ offset % 2 ^ w

variable {before fields : List Field}

@[simp]
theorem width_nil : width [] = 0 := rfl

@[simp]
theorem width_cons (w v : Nat) : width ((w, v) :: fields) = w + width fields := by
  unfold width
  rw [List.map_cons, List.sum_cons]

private theorem pack_lt (fields : List Field) : pack fields < 2 ^ width fields := by
  induction fields with
  | nil => exact Nat.one_pos
  | cons field rest ih =>
    obtain ⟨w, v⟩ := field
    rw [pack, width_cons, Nat.pow_add]
    have low : v % 2 ^ w < 2 ^ w := Nat.mod_lt _ (Nat.two_pow_pos w)
    have high : 2 ^ w * (pack rest + 1) ≤ 2 ^ w * 2 ^ width rest := Nat.mul_le_mul_left _ ih
    rw [Nat.mul_add] at high
    omega

private theorem pack_append :
    pack (before ++ fields) = pack before + 2 ^ width before * pack fields := by
  induction before with
  | nil => rw [List.nil_append, width_nil, pack, Nat.pow_zero, Nat.one_mul, Nat.zero_add]
  | cons field rest ih =>
    obtain ⟨w, v⟩ := field
    rw [List.cons_append, pack, pack, width_cons, ih, Nat.pow_add]
    ring

@[simp]
theorem pack_singleton (w v : Nat) : pack [(w, v)] = v % 2 ^ w := by
  rw [pack, pack, Nat.mul_zero, Nat.add_zero]

theorem pack_congr {group group' after after' : List Field} (wide : width group = width group')
    (same : pack group = pack group') (rest : pack after = pack after') :
    pack (group ++ after) = pack (group' ++ after') := by
  rw [pack_append, pack_append, wide, same, rest]

theorem bits_pack {offset w : Nat} (i n : Nat) (start : width (fields.take i) = offset)
    (wide : width ((fields.drop i).take n) = w) :
    bits (pack fields) offset w = pack ((fields.drop i).take n) := by
  have split : pack fields = pack (fields.take i) + 2 ^ width (fields.take i) *
      (pack ((fields.drop i).take n) +
        2 ^ width ((fields.drop i).take n) * pack ((fields.drop i).drop n)) := by
    rw [← pack_append, List.take_append_drop, ← pack_append, List.take_append_drop]
  rw [← start, ← wide, bits, split, Nat.add_mul_div_left _ _ (Nat.two_pow_pos _),
    Nat.div_eq_of_lt (pack_lt _), Nat.zero_add, Nat.add_mul_mod_self_left,
    Nat.mod_eq_of_lt (pack_lt _)]

end OhMyOs.Lib.Bitfields
