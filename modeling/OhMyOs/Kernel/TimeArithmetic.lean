/- GID: OhMyOs/Kernel/TimeArithmetic
   generality: I
   digest: time_add_ms and time_cmp of kernel/timer.c are addition and order of milliseconds. -/

import Mathlib.Tactic.SplitIfs
import OhMyOs.Kernel.Timer

set_option autoImplicit false
set_option relaxedAutoImplicit false

namespace OhMyOs.Kernel.Timer

structure Time.Normalised (t : Time) : Prop where
  msecs : t.msecs < 1000
  seconds : t.seconds < 60
  minutes : t.minutes < 60

def Time.total (t : Time) : Nat := ((t.hours * 60 + t.minutes) * 60 + t.seconds) * 1000 + t.msecs

/-- The milliseconds are an `int` that is not negative, and the hours of the sum fit into their
field. -/
structure Addend (t : Time) (ms : Int) : Prop where
  nonneg : 0 ≤ ms
  int : ms < 2 ^ 31
  hours : (t.total + ms.toNat) / 3600000 < 2 ^ 32

variable {t u : Time} {ms : Int}

theorem timeAddMs_eq (normal : t.Normalised) (addend : Addend t ms) :
    timeAddMs t ms =
      { t with
        msecs := (t.total + ms.toNat) % 1000
        seconds := (t.total + ms.toNat) / 1000 % 60
        minutes := (t.total + ms.toNat) / 60000 % 60
        hours := (t.total + ms.toNat) / 3600000 } := by
  obtain ⟨nonneg, int, hours⟩ := addend
  obtain ⟨msecs, seconds, minutes⟩ := normal
  obtain ⟨n, rfl⟩ := Int.eq_ofNat_of_zero_le nonneg
  have unsigned : ((n : Int) % 2 ^ 32).toNat = n := by omega
  simp only [Time.total, Int.toNat_natCast] at hours ⊢
  simp only [timeAddMs, unsigned, Time.mk.injEq, and_true]
  omega

private theorem timeAddMs_normalised (normal : t.Normalised) (addend : Addend t ms) :
    (timeAddMs t ms).Normalised := by
  rw [timeAddMs_eq normal addend]
  exact ⟨Nat.mod_lt _ (by decide), Nat.mod_lt _ (by decide), Nat.mod_lt _ (by decide)⟩

private theorem timeAddMs_total (normal : t.Normalised) (addend : Addend t ms) :
    ((timeAddMs t ms).total : Int) = t.total + ms := by
  have nonneg := addend.nonneg
  rw [timeAddMs_eq normal addend]
  generalize t.total = total
  simp only [Time.total]
  omega

private theorem timeCmp_iff (first : t.Normalised) (second : u.Normalised) :
    timeCmp t u = true ↔ u.total ≤ t.total := by
  obtain ⟨msecs, seconds, minutes⟩ := first
  obtain ⟨msecs', seconds', minutes'⟩ := second
  unfold timeCmp Time.total
  split_ifs with later earlier laterMinute earlierMinute
  · simp only [true_iff]
    omega
  · simp only [false_iff]
    omega
  · simp only [true_iff]
    omega
  · simp only [false_iff]
    omega
  · rw [decide_eq_true_iff]
    omega

/-- On normalised times `time_cmp` is the order of the milliseconds and `time_add_ms` is their sum,
so that later of two sums is the one with the larger addend. -/
theorem time_arithmetic_consistent (t u : Time) (first : t.Normalised) (second : u.Normalised) :
    (timeCmp t u = true ↔ u.total ≤ t.total) ∧
      (∀ ms, Addend t ms →
        (timeAddMs t ms).Normalised ∧ ((timeAddMs t ms).total : Int) = t.total + ms) ∧
      ∀ a b, Addend t a → Addend t b →
        (timeCmp (timeAddMs t a) (timeAddMs t b) = true ↔ a ≥ b) := by
  refine ⟨timeCmp_iff first second, fun ms addend => ?_, fun a b addA addB => ?_⟩
  · exact ⟨timeAddMs_normalised first addend, timeAddMs_total first addend⟩
  · rw [timeCmp_iff (timeAddMs_normalised first addA) (timeAddMs_normalised first addB)]
    have totalA := timeAddMs_total first addA
    have totalB := timeAddMs_total first addB
    omega

/-- A carry through all fields, one millisecond before the second hour. -/
theorem time_arithmetic_consistent_hour :
    (timeAddMs ⟨1, 59, 59, 999, 0⟩ 1).total = 7200000 ∧
      timeCmp (timeAddMs ⟨1, 59, 59, 999, 0⟩ 1) (timeAddMs ⟨1, 59, 59, 999, 0⟩ 0) = true := by
  obtain ⟨-, sum, order⟩ := time_arithmetic_consistent ⟨1, 59, 59, 999, 0⟩ ⟨0, 0, 0, 0, 0⟩
    ⟨by decide, by decide, by decide⟩ ⟨by decide, by decide, by decide⟩
  have one : Addend ⟨1, 59, 59, 999, 0⟩ 1 := ⟨by decide, by decide, by decide⟩
  have zero : Addend ⟨1, 59, 59, 999, 0⟩ 0 := ⟨by decide, by decide, by decide⟩
  refine ⟨?_, (order 1 0 one zero).mpr (by decide)⟩
  have total := (sum 1 one).2
  exact Int.ofNat.inj (total.trans (by decide))

end OhMyOs.Kernel.Timer
