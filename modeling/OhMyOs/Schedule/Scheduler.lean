/- GID: OhMyOs/Schedule/Scheduler
   generality: I
   digest: The run queues of schedule/schedule.c, with schedule() cut into its atomic steps. -/

import OhMyOs.Include.Constants
import OhMyOs.Include.IntrusiveList

set_option autoImplicit false
set_option relaxedAutoImplicit false

namespace OhMyOs.Schedule.Scheduler

open OhMyOs.Include.Constants
open OhMyOs.Lib.Ring OhMyOs.Include.IntrusiveList

inductive ThreadState
  | inactive | sleeping | runnable | running | exit
  deriving DecidableEq

/-- The fields of `struct thread` that the scheduler uses; `node` and `sched_node` are cells of
the links below. Every thread belongs to `init_proc`. -/
structure Thread where
  tid : Nat
  state : ThreadState

/-- Where a CPU is in `schedule`, with the values of its locals. -/
inductive Pc
  /-- not in `schedule` -/
  | outside
  /-- called -/
  | entered
  /-- the run queue was not empty -/
  | nonempty (prev : Nat)
  /-- `next` was read and is not `prev` -/
  | chosen (prev next : Nat)
  /-- `next` was removed from the run queue -/
  | taken (prev next : Nat)
  /-- `current = next` was done -/
  | switched (prev next : Nat)
  /-- `prev` was inserted at the tail -/
  | queued (prev next : Nat)
  /-- `prev` was removed from its thread group -/
  | unlinked (prev next : Nat)
  deriving DecidableEq

/-- The globals of schedule.c; a `struct thread *` is a number. The last three fields say where
each CPU is, which CPU a thread was made on if it was not freed since, and the first thread of
each initialised CPU. -/
structure SchedState where
  threads : Nat → Thread
  rqs : Links Nat Nat
  threadGroup : Links Unit Nat
  currentThreads : Nat → Option Nat
  gThreadId : Nat
  pc : Nat → Pc
  home : Nat → Option Nat
  idle : Nat → Option Nat

namespace SchedState

def setState (s : SchedState) (t : Nat) (state : ThreadState) : SchedState :=
  { s with threads := Function.update s.threads t { s.threads t with state := state } }

def setPc (s : SchedState) (cpu : Nat) (pc : Pc) : SchedState :=
  { s with pc := Function.update s.pc cpu pc }

end SchedState

/-- `schedule_init`; `idle` is what kmalloc returns. -/
def scheduleInit (s : SchedState) (cpu : Nat) (idle : Option Nat) : SchedState :=
  let s := if cpu = 0 then { s with threadGroup := listInit s.threadGroup (.head ()) } else s
  let s := { s with rqs := listInit s.rqs (.head cpu) }
  match idle with
  | none => s
  | some idle =>
    { s with
      threads := Function.update s.threads idle ⟨s.gThreadId, .running⟩
      gThreadId := (s.gThreadId + 1) % 2 ^ 32
      currentThreads := Function.update s.currentThreads cpu (some idle)
      threadGroup := listInsert s.threadGroup (.head ()) (.node idle)
      home := Function.update s.home idle (some cpu)
      idle := Function.update s.idle cpu (some idle) }

/-- The CPU that `thread_run` called on CPU `self` puts the thread on. -/
def targetCpu (self : Nat) (cpu : Int) : Nat :=
  if cpu < 0 ∨ (maxCpu : Int) ≤ cpu then self else cpu.toNat

/-- `thread_run` when all its allocations succeed; `t` is what kmalloc returns. Only the locked
section touches what other CPUs see. -/
def threadRun (s : SchedState) (self : Nat) (cpu : Int) (t : Nat) : SchedState :=
  let cpu := targetCpu self cpu
  { s with
    threads := Function.update s.threads t ⟨s.gThreadId, .runnable⟩
    gThreadId := (s.gThreadId + 1) % 2 ^ 32
    threadGroup := listInsert s.threadGroup (.head ()) (.node t)
    rqs := listInsert s.rqs (.head cpu) (.node t)
    home := Function.update s.home t (some cpu) }

/-- The next step of `schedule` on a CPU: each access to what other CPUs write, and each section
under `sched_lock`, is one step. Without a result the CPU is outside, or `container_of` was
taken of the list head. -/
def scheduleStep (s : SchedState) (cpu : Nat) : Option SchedState :=
  match s.pc cpu with
  | .outside => none
  | .entered =>
    (s.currentThreads cpu).map fun prev =>
      if listEmpty s.rqs (.head cpu) then s.setPc cpu .outside else s.setPc cpu (.nonempty prev)
  | .nonempty prev =>
    (containerOf (listNext s.rqs (.head cpu))).map fun next =>
      if prev = next then s.setPc cpu .outside else s.setPc cpu (.chosen prev next)
  | .chosen prev next =>
    some ({ s with rqs := listRemove s.rqs (.node next) }.setPc cpu (.taken prev next))
  | .taken prev next =>
    some ({ s with currentThreads := Function.update s.currentThreads cpu (some next) }.setPc cpu
      (.switched prev next))
  | .switched prev next =>
    if (s.threads prev).state ≠ .exit then
      some ({ s with rqs := listInsertTail s.rqs (.head cpu) (.node prev) }.setPc cpu
        (.queued prev next))
    else
      some ({ s with threadGroup := listRemove s.threadGroup (.node prev) }.setPc cpu
        (.unlinked prev next))
  | .queued prev next =>
    some (((s.setState prev .runnable).setState next .running).setPc cpu .outside)
  | .unlinked prev _ =>
    some ({ s with home := Function.update s.home prev none }.setPc cpu .outside)

/-- `thread_exit`, up to its call of `schedule`. -/
def threadExit (s : SchedState) (cpu : Nat) : Option SchedState :=
  (s.currentThreads cpu).map fun t => (s.setState t .exit).setPc cpu .entered

end OhMyOs.Schedule.Scheduler
