/- GID: OhMyOs/Kernel/Timer
   generality: I
   digest: The clock of kernel/timer.c and its arithmetic. -/

import Mathlib.Algebra.Group.Int.Defs
import Mathlib.Algebra.Group.Nat.Defs

set_option autoImplicit false
set_option relaxedAutoImplicit false

namespace OhMyOs.Kernel.Timer

def tickNum : Nat := 100

/-- `struct time`, five unsigned numbers of 32 bits. -/
structure Time where
  hours : Nat
  minutes : Nat
  seconds : Nat
  msecs : Nat
  ticks : Nat
  deriving DecidableEq

/-- `t1` is `t2` or later. -/
def timeCmp (t1 t2 : Time) : Bool :=
  if t1.hours > t2.hours then true
  else if t1.hours < t2.hours then false
  else if t1.minutes > t2.minutes then true
  else if t1.minutes < t2.minutes then false
  else decide ((t1.seconds * 1000 + t1.msecs) % 2 ^ 32 ≥ (t2.seconds * 1000 + t2.msecs) % 2 ^ 32)

/-- The milliseconds are signed, and added as an unsigned number. -/
def timeAddMs (t : Time) (msecs : Int) : Time :=
  let total := (t.msecs + (msecs % 2 ^ 32).toNat) % 2 ^ 32
  let seconds := (t.seconds + total / 1000) % 2 ^ 32
  let minutes := (t.minutes + seconds / 60) % 2 ^ 32
  { t with
    msecs := total % 1000
    seconds := seconds % 60
    minutes := minutes % 60
    hours := (t.hours + minutes / 60) % 2 ^ 32 }

def timeAdd (t : Time) (seconds : Int) : Time := timeAddMs t (seconds * 1000)

def tick (t : Time) : Time :=
  let ticks := (t.ticks + 1) % 2 ^ 32
  let t := { t with ticks := ticks, msecs := ticks % 100 * 10 }
  if ticks % tickNum = 0 then timeAdd t 1 else t

/-- All operands have 32 bits, and so has the sum that is then returned as a number of 64 bits. -/
def timeMs (t : Time) : Nat :=
  (((t.hours * 60 + t.minutes) * 60 + t.seconds) * 1000 + t.msecs) % 2 ^ 32

end OhMyOs.Kernel.Timer
