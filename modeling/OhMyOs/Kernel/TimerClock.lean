/- GID: OhMyOs/Kernel/TimerClock
   generality: I
   digest: The clock of kernel/timer.c after any number of timer interrupts. -/

import Mathlib.Logic.Function.Iterate
import Mathlib.Tactic.SplitIfs
import OhMyOs.Kernel.TimeArithmetic

set_option autoImplicit false
set_option relaxedAutoImplicit false

namespace OhMyOs.Kernel.Timer

def zeroTime : Time := ⟨0, 0, 0, 0, 0⟩

def clockAt (n : Nat) : Time where
  hours := n / 360000
  minutes := n / 6000 % 60
  seconds := n / 100 % 60
  msecs := n % 100 * 10
  ticks := n

private theorem total_second (n : Nat) (full : (n + 1) % 100 = 0) :
    Time.total { clockAt n with ticks := n + 1, msecs := (n + 1) % 100 * 10 } + 1000 =
      10 * (n + 1) := by
  simp only [Time.total, clockAt]
  omega

private theorem tick_clockAt (n : Nat) (word : n + 1 < 2 ^ 32) :
    tick (clockAt n) = clockAt (n + 1) := by
  have ticks : ((clockAt n).ticks + 1) % 2 ^ 32 = n + 1 := Nat.mod_eq_of_lt word
  simp only [tick, tickNum, ticks]
  split_ifs with full
  · have total := total_second n full
    rw [timeAdd, timeAddMs_eq]
    · -- With the total in place of the fields, the carries are those of `clockAt`.
      change Time.mk ((_ + 1000) / 3600000) ((_ + 1000) / 60000 % 60) ((_ + 1000) / 1000 % 60)
        ((_ + 1000) % 1000) (n + 1) = _
      rw [total]
      simp only [clockAt, Time.mk.injEq, and_true]
      omega
    · exact ⟨by simp only; omega, Nat.mod_lt _ (by decide), Nat.mod_lt _ (by decide)⟩
    · refine ⟨by decide, by decide, ?_⟩
      change (_ + 1000) / 3600000 < _
      rw [total]
      omega
  · simp only [clockAt, Time.mk.injEq, and_true]
    omega

private theorem iterate_tick (n : Nat) (word : n < 2 ^ 32) : tick^[n] zeroTime = clockAt n := by
  induction n with
  | zero => rfl
  | succ n ih => rw [Function.iterate_succ_apply', ih (by omega), tick_clockAt n word]

private theorem timeMs_clockAt (n : Nat) : timeMs (clockAt n) = 10 * n % 2 ^ 32 := by
  have total : ((n / 360000 * 60 + n / 6000 % 60) * 60 + n / 100 % 60) * 1000 + n % 100 * 10 =
      10 * n := by omega
  simp only [timeMs, clockAt, total]

/-- After `n` interrupts the record is normalised, the time is `10 * n` milliseconds, and it was
never later. -/
structure ClockExact (n : Nat) : Prop where
  msecs : (tick^[n] zeroTime).msecs < 1000
  seconds : (tick^[n] zeroTime).seconds < 60
  minutes : (tick^[n] zeroTime).minutes < 60
  exact : timeMs (tick^[n] zeroTime) = 10 * n
  monotone : ∀ m ≤ n, timeMs (tick^[m] zeroTime) ≤ timeMs (tick^[n] zeroTime)

/-- The clock is exact as long as the milliseconds fit into 32 bits. -/
theorem clockExact_iff (n : Nat) (word : n < 2 ^ 32) : ClockExact n ↔ 10 * n < 2 ^ 32 := by
  constructor
  · intro clock
    have exact := clock.exact
    rw [iterate_tick n word, timeMs_clockAt] at exact
    omega
  · intro fits
    have ms (m : Nat) (le : m ≤ n) : timeMs (tick^[m] zeroTime) = 10 * m := by
      rw [iterate_tick m (by omega), timeMs_clockAt, Nat.mod_eq_of_lt (by omega)]
    refine ⟨?_, ?_, ?_, ms n (Nat.le_refl n), fun m le => ?_⟩
    · rw [iterate_tick n word]
      simp only [clockAt]
      omega
    · rw [iterate_tick n word]
      exact Nat.mod_lt _ (by decide)
    · rw [iterate_tick n word]
      exact Nat.mod_lt _ (by decide)
    · rw [ms m le, ms n (Nat.le_refl n)]
      omega

/-- After one day. -/
theorem clockExact_iff_day : ClockExact 8640000 :=
  (clockExact_iff 8640000 (by decide)).mpr (by decide)

/-- After 49.7 days `time_ms` starts again from 0. -/
theorem clock_wraps : ¬ ∀ n < 2 ^ 32, ClockExact n := by
  intro claim
  have exact := (claim 429496730 (by decide)).exact
  rw [iterate_tick _ (by decide), timeMs_clockAt] at exact
  exact absurd exact (by decide)

end OhMyOs.Kernel.Timer
