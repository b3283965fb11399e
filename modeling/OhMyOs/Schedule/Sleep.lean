/- GID: OhMyOs/Schedule/Sleep
   generality: I
   digest: Sleeping and waking on one CPU: the run queue, the timer list and the clock. -/

import OhMyOs.Kernel.Timer
import OhMyOs.Lib.Runs
import OhMyOs.Schedule.Scheduler

set_option autoImplicit false
set_option relaxedAutoImplicit false

namespace OhMyOs.Schedule.Sleep

open OhMyOs.Lib.Ring OhMyOs.Lib.Runs OhMyOs.Include.IntrusiveList OhMyOs.Kernel.Timer
open OhMyOs.Schedule.Scheduler (ThreadState)

/-! ### The code

All list nodes lie in one memory, because `msleep` links a node on its stack that was never
initialised: the stores through its two pointers can reach every other node. -/

inductive ListHead
  | runQueue
  | timerList
  deriving DecidableEq

/-- The `sched_node` of a thread, the node of the timer on its stack, or other memory, where 0 is
NULL. -/
inductive ListNode
  | sched (t : Nat)
  | timer (t : Nat)
  | memory (addr : Nat)
  deriving DecidableEq

abbrev Ptr := Cell ListHead ListNode

abbrev queueHead : Ptr := .head .runQueue
abbrev timerHead : Ptr := .head .timerList
abbrev schedNode (t : Nat) : Ptr := .node (.sched t)
abbrev timerNode (t : Nat) : Ptr := .node (.timer t)

/-- `expired` is a field of the timer of a thread inside `msleep`. The last two fields only record:
the threads that put themselves to sleep and were not woken since, and for each thread woken by the
timer interrupt its expiry time and the time. -/
structure SleepState where
  links : Links ListHead ListNode
  state : Nat → ThreadState
  current : Nat
  time : Time
  expired : Nat → Time
  inMsleep : Nat → Bool
  live : Nat → Bool
  asleep : Nat → Bool
  woken : List (Time × Time)

namespace SleepState

def setState (s : SleepState) (t : Nat) (state : ThreadState) : SleepState :=
  { s with state := Function.update s.state t state }

end SleepState

/-- `thread_run` when all its allocations succeed; `t` is what kmalloc returns. -/
def threadRun (s : SleepState) (t : Nat) : SleepState :=
  { s with
    links := listInsert s.links queueHead (schedNode t)
    state := Function.update s.state t .runnable
    live := Function.update s.live t true }

def threadSleep (s : SleepState) (t : Nat) : SleepState :=
  { s.setState t .sleeping with links := listRemove s.links (schedNode t) }

/-- The arguments of `list_insert` are the wrong way round: the head is put behind the thread. -/
def threadWakeup (s : SleepState) (t : Nat) : SleepState :=
  { s.setState t .runnable with
    links := listInsert s.links (schedNode t) queueHead
    asleep := Function.update s.asleep t false }

def schedThread : Ptr → Option Nat
  | .node (.sched t) => some t
  | _ => none

/-- The part of `schedule` behind its two tests. -/
def switchTo (s : SleepState) (next : Nat) : SleepState :=
  let prev := s.current
  let removed := listRemove s.links (schedNode next)
  if s.state prev ≠ .exit then
    let s := { s with current := next, links := listInsertTail removed queueHead (schedNode prev) }
    (s.setState prev .runnable).setState next .running
  else
    { s with current := next, links := removed, live := Function.update s.live prev false }

/-- Without a result, `container_of` was taken of something else. -/
def switch (s : SleepState) : Option SleepState :=
  if listEmpty s.links queueHead then some s
  else
    (schedThread (listNext s.links queueHead)).map fun next =>
      if s.current = next then s else switchTo s next

/-- A thread that calls `schedule` while it is `THREAD_SLEEPING` puts itself to sleep. -/
def schedule (s : SleepState) : Option SleepState :=
  switch
    { s with
      asleep := Function.update s.asleep s.current
        (s.asleep s.current || s.state s.current = .sleeping) }

/-- `msleep` up to its call of `schedule`; `prev` and `next` are what the stack holds where the node
of the timer is. -/
def msleepInsert (s : SleepState) (msecs : Int) (prev next : Ptr) : SleepState :=
  let node := timerNode s.current
  let stack := (s.links.setPrev node prev).setNext node next
  { s.setState s.current .sleeping with
    expired := Function.update s.expired s.current (timeAddMs s.time msecs)
    inMsleep := Function.update s.inMsleep s.current true
    links := listInsertBefore stack node timerHead }

/-- The end of `msleep`, once `schedule` has returned. -/
def msleepReturn (s : SleepState) : SleepState :=
  { s with
    links := listRemove s.links (timerNode s.current)
    inMsleep := Function.update s.inMsleep s.current false }

/-- The loop of `timer_irq_handler`, which stops at NULL only. Without a result it ran out of fuel,
or it took for a timer what is none. -/
def timerLoop : Nat → SleepState → Ptr → Option SleepState
  | _, s, .node (.memory 0) => some s
  | fuel + 1, s, .node (.timer t) =>
    if s.inMsleep t then
      let s :=
        if timeCmp (s.expired t) s.time then
          { threadWakeup s t with woken := (s.expired t, s.time) :: s.woken }
        else s
      timerLoop fuel s (s.links.next (timerNode t))
    else none
  | _, _, _ => none

/-- The timers are looked at only when `ticks` has become 0. -/
def timerIrqHandler (s : SleepState) (fuel : Nat) : Option SleepState :=
  let s := { s with time := tick s.time }
  if s.time.ticks = 0 then
    (timerLoop fuel s (listNext s.links timerHead)).bind schedule
  else some s

/-! ### Runs -/

/-- The calls that the current thread makes, its way out of `msleep`, and the timer interrupt. -/
inductive SleepOp
  | threadRun (t : Nat)
  | schedule
  | threadSleep (t : Nat)
  | threadWakeup (t : Nat)
  | msleep (msecs : Int) (prev next : Ptr)
  | msleepReturn
  | timer (fuel : Nat)

def sleepOp (s : SleepState) : SleepOp → Option SleepState
  | .threadRun t => some (threadRun s t)
  | .schedule => schedule s
  | .threadSleep t => some (threadSleep s t)
  | .threadWakeup t => some (threadWakeup s t)
  | .msleep msecs prev next => schedule (msleepInsert s msecs prev next)
  | .msleepReturn => some (msleepReturn s)
  | .timer fuel => timerIrqHandler s fuel

/-- kmalloc returns memory that is not in use, threads that are named exist, and a thread inside
`msleep` first leaves it. -/
def allowed (s : SleepState) : SleepOp → Bool
  | .threadRun t => !s.inMsleep s.current && !s.live t
  | .threadSleep t | .threadWakeup t => !s.inMsleep s.current && s.live t
  | .schedule | .msleep _ _ _ => !s.inMsleep s.current
  | .msleepReturn => s.inMsleep s.current
  | .timer _ => true

def outside : Ptr → Bool
  | .head .runQueue | .node (.sched _) => false
  | _ => true

def closed (l : Links ListHead ListNode) (node : Ptr) : Bool :=
  l.next (l.prev node) = l.next node && l.prev (l.next node) = l.prev node

/-- Where the code does what it is for: `schedule` does not switch away from a thread that is not
running, `thread_sleep` gets a queued thread or changes no link, `thread_wakeup` gets a node that is
linked to itself while the run queue is empty, `msleep` is called while it is empty with no pointer
into it on the stack, and `ticks` does not wrap around. -/
def calm (s : SleepState) : SleepOp → Bool
  | .threadRun _ | .msleepReturn => true
  | .schedule =>
    listEmpty s.links queueHead || listNext s.links queueHead = schedNode s.current ||
      s.state s.current = .running
  | .threadSleep t => s.state t = .runnable || closed s.links (schedNode t)
  | .threadWakeup t => s.links.next (schedNode t) = schedNode t && listEmpty s.links queueHead
  | .msleep _ prev next => listEmpty s.links queueHead && outside prev && outside next
  | .timer _ => (tick s.time).ticks ≠ 0

def Queued (s : SleepState) (q : List Nat) : Prop :=
  Rings s.links {.runQueue} fun _ => q.map .sched

structure Booted (s : SleepState) : Prop where
  queue : Queued s []
  live : ∀ t, s.live t = true ↔ t = s.current
  running : s.state s.current = .running
  awake : ∀ t, s.asleep t = false
  outsideMsleep : ∀ t, s.inMsleep t = false
  woken : s.woken = []

def SleepersOff (s : SleepState) : Prop :=
  (∃ q, Queued s q ∧ ∀ t ∈ q, s.asleep t = false) ∧
    ∀ wake ∈ s.woken, timeCmp wake.2 wake.1 = true

/-- A step switches to no thread that sleeps, and a woken thread is on the run queue once, with all
that were there. -/
structure StepSafe (s : SleepState) (op : SleepOp) (u : SleepState) : Prop where
  chosen : u.current ≠ s.current → s.asleep u.current = false
  wakeup : ∀ t, op = .threadWakeup t →
    ∃ q q', Queued s q ∧ Queued u q' ∧ q'.count t = 1 ∧ ∀ x ∈ q, x ∈ q'

/-! ### The run queue in memory -/

section
variable {l : Links ListHead ListNode} {q : List Nat} {t : Nat} {c d : Ptr}

private theorem queue_frame {l' : Links ListHead ListNode}
    (rings : Rings l {.runQueue} fun _ => q.map ListNode.sched)
    (same : ∀ c, outside c = false → l'.next c = l.next c ∧ l'.prev c = l.prev c) :
    Rings l' {.runQueue} fun _ => q.map ListNode.sched where
  ring i hi := by
    obtain rfl : i = .runQueue := hi
    apply (rings.ring _ rfl).frame (same queueHead rfl).1 (same queueHead rfl).2
    intro x mem
    obtain ⟨t, _, rfl⟩ := List.mem_map.mp mem
    exact same (schedNode t) rfl
  nodup := rings.nodup
  disjoint := rings.disjoint

theorem ne_of_outside {e : Ptr} (inside : outside e = false) (out : outside c = true) : e ≠ c := by
  rintro rfl
  rw [inside] at out
  cases out

private theorem queue_setNext (rings : Rings l {.runQueue} fun _ => q.map ListNode.sched)
    (out : outside c = true) : Rings (l.setNext c d) {.runQueue} fun _ => q.map ListNode.sched := by
  apply queue_frame rings
  intro e inside
  exact ⟨Function.update_of_ne (ne_of_outside inside out) _ _, rfl⟩

private theorem queue_setPrev (rings : Rings l {.runQueue} fun _ => q.map ListNode.sched)
    (out : outside c = true) : Rings (l.setPrev c d) {.runQueue} fun _ => q.map ListNode.sched := by
  apply queue_frame rings
  intro e inside
  exact ⟨rfl, Function.update_of_ne (ne_of_outside inside out) _ _⟩

private theorem queue_of_rings {f : ListHead → List ListNode} (rings : Rings l {.runQueue} f)
    (eq : f .runQueue = q.map ListNode.sched) :
    Rings l {.runQueue} fun _ => q.map ListNode.sched where
  ring i hi := by
    obtain rfl : i = .runQueue := hi
    rw [← eq]
    exact rings.ring _ rfl
  nodup i hi := by
    obtain rfl : i = .runQueue := hi
    rw [← eq]
    exact rings.nodup _ rfl
  disjoint i hi j hj differ := absurd (Eq.trans hi (Eq.symm hj)) differ

private theorem sched_injective :
    Function.Injective ListNode.sched := fun _ _ eq => ListNode.sched.inj eq

private theorem sched_mem_map : ListNode.sched t ∈ q.map ListNode.sched ↔ t ∈ q :=
  List.mem_map_of_injective sched_injective

private theorem queue_nodup (rings : Rings l {.runQueue} fun _ => q.map ListNode.sched) : q.Nodup :=
  List.Nodup.of_map _ (rings.nodup .runQueue rfl)

private theorem queue_insert (rings : Rings l {.runQueue} fun _ => q.map ListNode.sched)
    (new : t ∉ q) :
    Rings (listInsert l queueHead (schedNode t)) {.runQueue}
      fun _ => (t :: q).map ListNode.sched := by
  have fresh : ∀ j ∈ ({.runQueue} : Set ListHead), ListNode.sched t ∉ q.map ListNode.sched :=
    fun _ _ mem => new (sched_mem_map.mp mem)
  exact queue_of_rings (listInsert_rings rings rfl fresh) (Function.update_self ..)

private theorem queue_insertTail (rings : Rings l {.runQueue} fun _ => q.map ListNode.sched)
    (new : t ∉ q) :
    Rings (listInsertTail l queueHead (schedNode t)) {.runQueue}
      fun _ => (q ++ [t]).map ListNode.sched := by
  have fresh : ∀ j ∈ ({.runQueue} : Set ListHead), ListNode.sched t ∉ q.map ListNode.sched :=
    fun _ _ mem => new (sched_mem_map.mp mem)
  apply queue_of_rings (listInsertTail_rings rings rfl fresh)
  rw [Function.update_self, List.map_append, List.map_singleton]

private theorem queue_remove (rings : Rings l {.runQueue} fun _ => q.map ListNode.sched)
    (mem : t ∈ q) :
    Rings (listRemove l (schedNode t)) {.runQueue} fun _ => (q.erase t).map ListNode.sched := by
  apply queue_of_rings (listRemove_rings rings rfl (sched_mem_map.mpr mem))
  rw [Function.update_self, List.map_erase sched_injective]

private theorem queue_wakeup (self : l.next (schedNode t) = schedNode t) :
    Rings (listInsert l (schedNode t) queueHead) {.runQueue}
      fun _ => [t].map ListNode.sched where
  ring i hi := by
    obtain rfl : i = .runQueue := hi
    rw [listInsert_eq]
    simp [Seg, linkAfter, self]
  nodup _ _ := List.nodup_singleton _
  disjoint i hi j hj differ := absurd (Eq.trans hi (Eq.symm hj)) differ

private theorem inside_of_queue {p : Ptr} (inside : outside d = false)
    (reached : p = d ∨ ∃ x ∈ q.map ListNode.sched, p = .node x) : outside p = false := by
  rcases reached with rfl | ⟨x, member, rfl⟩
  · exact inside
  · obtain ⟨_, _, rfl⟩ := List.mem_map.mp member
    rfl

private theorem queue_inside (rings : Rings l {.runQueue} fun _ => q.map ListNode.sched)
    (mem : t ∈ q) :
    outside (l.next (schedNode t)) = false ∧ outside (l.prev (schedNode t)) = false := by
  obtain ⟨xs, ys, rfl⟩ := List.append_of_mem mem
  have seg := rings.ring .runQueue rfl
  rw [List.map_append, List.map_cons, seg_append] at seg
  exact ⟨inside_of_queue rfl seg.2.next_mem, inside_of_queue rfl seg.1.prev_mem⟩

private theorem queue_head_inside (rings : Rings l {.runQueue} fun _ => q.map ListNode.sched) :
    outside (l.next queueHead) = false ∧ outside (l.prev queueHead) = false := by
  have seg := rings.ring .runQueue rfl
  exact ⟨inside_of_queue rfl seg.next_mem, inside_of_queue rfl seg.prev_mem⟩

private theorem listRemove_closed (same : closed l c = true) : listRemove l c = l := by
  obtain ⟨next, prev⟩ := Bool.and_eq_true_iff.mp same
  rw [listRemove_eq, unlink, ← of_decide_eq_true next, Function.update_eq_self,
    of_decide_eq_true next, ← of_decide_eq_true prev, Function.update_eq_self]

end

/-! ### The timers in memory -/

def Tame (l : Links ListHead ListNode) (inMsleep : Nat → Bool) : Prop :=
  ∀ t, inMsleep t = true →
    outside (l.next (timerNode t)) = true ∧ outside (l.prev (timerNode t)) = true

section
variable {l : Links ListHead ListNode} {inMsleep : Nat → Bool} {q : List Nat} {t : Nat} {c d : Ptr}

private theorem outside_update {link : Ptr → Ptr} (before : outside (link (timerNode t)) = true)
    (ok : outside c = false ∨ outside d = true) :
    outside (Function.update link c d (timerNode t)) = true := by
  by_cases here : timerNode t = c
  · subst here
    rw [Function.update_self]
    exact ok.resolve_left (by simp [outside])
  · rwa [Function.update_of_ne here]

private theorem Tame.setNext (tame : Tame l inMsleep) (ok : outside c = false ∨ outside d = true) :
    Tame (l.setNext c d) inMsleep := by
  intro t sleeps
  obtain ⟨next, prev⟩ := tame t sleeps
  exact ⟨outside_update next ok, prev⟩

private theorem Tame.setPrev (tame : Tame l inMsleep) (ok : outside c = false ∨ outside d = true) :
    Tame (l.setPrev c d) inMsleep := by
  intro t sleeps
  obtain ⟨next, prev⟩ := tame t sleeps
  exact ⟨next, outside_update prev ok⟩

private theorem Tame.remove (tame : Tame l inMsleep)
    (ok : (outside (l.next c) = false ∧ outside (l.prev c) = false) ∨
      (outside (l.next c) = true ∧ outside (l.prev c) = true)) :
    Tame (listRemove l c) inMsleep := by
  rw [listRemove_eq]
  show Tame ((l.setNext (l.prev c) (l.next c)).setPrev (l.next c) (l.prev c)) inMsleep
  apply Tame.setPrev
  · exact tame.setNext (ok.imp And.right And.left)
  · exact ok.imp And.left And.right

private theorem Tame.insert (tame : Tame l inMsleep) (first : outside (l.next queueHead) = false) :
    Tame (listInsert l queueHead (schedNode t)) inMsleep :=
  (((tame.setPrev (.inl first)).setNext (.inl rfl)).setPrev (.inl rfl)).setNext (.inl rfl)

private theorem Tame.insertTail (tame : Tame l inMsleep)
    (last : outside (l.prev queueHead) = false) :
    Tame (listInsertTail l queueHead (schedNode t)) inMsleep :=
  (((tame.setNext (.inl last)).setNext (.inl rfl)).setPrev (.inl rfl)).setPrev (.inl rfl)

private theorem Tame.wakeup (tame : Tame l inMsleep) (self : l.next (schedNode t) = schedNode t) :
    Tame (listInsert l (schedNode t) queueHead) inMsleep := by
  have next : outside (l.next (schedNode t)) = false := by
    rw [self]
    rfl
  exact (((tame.setPrev (.inl next)).setNext (.inl rfl)).setPrev (.inl rfl)).setNext (.inl rfl)

end

/-! ### Calm runs -/

/-- The run queue holds exactly the threads that are `THREAD_RUNNABLE`, and sleepers are
`THREAD_SLEEPING`. -/
structure Calm (s : SleepState) (q : List Nat) : Prop where
  queue : Queued s q
  queued : ∀ t, t ∈ q ↔ s.live t = true ∧ s.state t = .runnable
  current : s.live s.current = true
  asleep : ∀ t, s.asleep t = true → s.live t = true ∧ s.state t = .sleeping
  timers : Tame s.links s.inMsleep
  woken : s.woken = []

section
variable {s u : SleepState} {q : List Nat} {t : Nat}

private theorem Booted.calm (booted : Booted s) : Calm s [] where
  queue := booted.queue
  queued t := by
    constructor
    · intro mem
      cases mem
    · rintro ⟨live, runnable⟩
      obtain rfl := (booted.live t).mp live
      rw [booted.running] at runnable
      cases runnable
  current := (booted.live _).mpr rfl
  asleep t sleeps := by
    rw [booted.awake] at sleeps
    cases sleeps
  timers t inside := by
    rw [booted.outsideMsleep] at inside
    cases inside
  woken := booted.woken

private theorem Calm.awake (inv : Calm s q) (mem : t ∈ q) : s.asleep t = false := by
  by_contra sleeps
  have sleeping := (inv.asleep t (Bool.not_eq_false _ ▸ sleeps)).2
  rw [((inv.queued t).mp mem).2] at sleeping
  cases sleeping

private theorem Calm.empty_iff (inv : Calm s q) : listEmpty s.links queueHead = true ↔ q = [] := by
  rw [listEmpty_iff inv.queue rfl, List.map_eq_nil_iff]

private theorem threadRun_calm (inv : Calm s q) (fresh : s.live t = false) :
    Calm (threadRun s t) (t :: q) := by
  have new : t ∉ q := by
    intro mem
    rw [((inv.queued t).mp mem).1] at fresh
    cases fresh
  have other : ∀ x, s.live x = true → x ≠ t := by
    rintro x live rfl
    rw [live] at fresh
    cases fresh
  refine
    { queue := queue_insert inv.queue new
      queued := ?_
      current := ?_
      asleep := ?_
      timers := inv.timers.insert (queue_head_inside inv.queue).1
      woken := inv.woken }
  · intro x
    show x ∈ t :: q ↔ Function.update s.live t true x = true ∧
      Function.update s.state t .runnable x = .runnable
    by_cases same : x = t
    · subst same
      simp
    · rw [Function.update_of_ne same, Function.update_of_ne same, List.mem_cons,
        or_iff_right same]
      exact inv.queued x
  · show Function.update s.live t true s.current = true
    rw [Function.update_of_ne (other _ inv.current)]
    exact inv.current
  · intro x sleeps
    obtain ⟨live, sleeping⟩ := inv.asleep x sleeps
    show Function.update s.live t true x = true ∧
      Function.update s.state t .runnable x = .sleeping
    rw [Function.update_of_ne (other x live), Function.update_of_ne (other x live)]
    exact ⟨live, sleeping⟩

private theorem Calm.queued_update (inv : Calm s q) {q' : List Nat} {state : ThreadState}
    (others : ∀ x, x ≠ t → (x ∈ q' ↔ x ∈ q))
    (self : t ∈ q' ↔ s.live t = true ∧ state = .runnable) (x : Nat) :
    x ∈ q' ↔ s.live x = true ∧ Function.update s.state t state x = .runnable := by
  by_cases same : x = t
  · subst same
    rw [Function.update_self]
    exact self
  · rw [Function.update_of_ne same, others x same]
    exact inv.queued x

private theorem Calm.asleep_update (inv : Calm s q) {x : Nat} (sleeps : s.asleep x = true) :
    s.live x = true ∧ Function.update s.state t .sleeping x = .sleeping := by
  obtain ⟨live, sleeping⟩ := inv.asleep x sleeps
  by_cases same : x = t
  · subst same
    rw [Function.update_self]
    exact ⟨live, rfl⟩
  · rw [Function.update_of_ne same]
    exact ⟨live, sleeping⟩

private theorem threadSleep_calm (inv : Calm s q) (live : s.live t = true)
    (ok : calm s (.threadSleep t) = true) : ∃ q', Calm (threadSleep s t) q' := by
  by_cases mem : t ∈ q
  · have nodup := queue_nodup inv.queue
    refine ⟨q.erase t, queue_remove inv.queue mem, ?_, inv.current, fun _ => inv.asleep_update,
      inv.timers.remove (.inl (queue_inside inv.queue mem)), inv.woken⟩
    apply inv.queued_update
    · intro x differ
      rw [nodup.mem_erase_iff, and_iff_right differ]
    · rw [nodup.mem_erase_iff]
      simp
  · have still : (threadSleep s t).links = s.links := by
      apply listRemove_closed
      apply (Bool.or_eq_true_iff.mp ok).resolve_left
      intro runnable
      exact mem ((inv.queued t).mpr ⟨live, of_decide_eq_true runnable⟩)
    refine ⟨q, ?_, ?_, inv.current, fun _ => inv.asleep_update, ?_, inv.woken⟩
    · rw [Queued, still]
      exact inv.queue
    · apply inv.queued_update
      · exact fun _ _ => Iff.rfl
      · simp [mem]
    · rw [still]
      exact inv.timers

private theorem threadWakeup_calm (inv : Calm s q) (live : s.live t = true)
    (ok : calm s (.threadWakeup t) = true) : q = [] ∧ Calm (threadWakeup s t) [t] := by
  obtain ⟨selfLinked, empty⟩ := Bool.and_eq_true_iff.mp ok
  have self := of_decide_eq_true selfLinked
  obtain rfl := inv.empty_iff.mp empty
  refine ⟨rfl, queue_wakeup self, ?_, inv.current, ?_, inv.timers.wakeup self, inv.woken⟩
  · apply inv.queued_update
    · intro x differ
      simp [differ]
    · simp [live]
  · intro x sleeps
    have differ : x ≠ t := by
      rintro rfl
      change Function.update s.asleep x false x = true at sleeps
      rw [Function.update_self] at sleeps
      cases sleeps
    change Function.update s.asleep t false x = true at sleeps
    rw [Function.update_of_ne differ] at sleeps
    show s.live x = true ∧ Function.update s.state t .runnable x = .sleeping
    rw [Function.update_of_ne differ]
    exact inv.asleep x sleeps

private theorem msleepInsert_calm {msecs : Int} {prev next : Ptr} (inv : Calm s [])
    (prevOut : outside prev = true) (nextOut : outside next = true) :
    Calm (msleepInsert s msecs prev next) [] := by
  have read : ((s.links.setPrev (timerNode s.current) prev).setNext (timerNode s.current)
      next).prev (timerNode s.current) = prev := Function.update_self ..
  have out : outside (((s.links.setPrev (timerNode s.current) prev).setNext
      (timerNode s.current) next).prev (timerNode s.current)) = true := by
    rw [read]
    exact prevOut
  refine
    { queue := ?_
      queued := ?_
      current := inv.current
      asleep := fun _ => inv.asleep_update
      timers := ?_
      woken := inv.woken }
  · have stack := queue_setNext (d := next) (c := timerNode s.current)
      (queue_setPrev (d := prev) (c := timerNode s.current) inv.queue rfl) rfl
    exact queue_setPrev (queue_setPrev (queue_setNext (queue_setNext stack out) rfl) rfl) rfl
  · apply inv.queued_update
    · exact fun _ _ => Iff.rfl
    · simp
  · have stack : Tame ((s.links.setPrev (timerNode s.current) prev).setNext
        (timerNode s.current) next) (Function.update s.inMsleep s.current true) := by
      intro x sleeps
      by_cases same : x = s.current
      · subst same
        rw [read]
        refine ⟨?_, prevOut⟩
        show outside (Function.update s.links.next (timerNode s.current) next
          (timerNode s.current)) = true
        rw [Function.update_self]
        exact nextOut
      · rw [Function.update_of_ne same] at sleeps
        exact ((inv.timers.setPrev (.inr prevOut)).setNext (.inr nextOut)) x sleeps
    exact (((stack.setNext (.inr rfl)).setNext (.inr rfl)).setPrev (.inr out)).setPrev (.inr rfl)

private theorem msleepReturn_calm (inv : Calm s q) (inside : s.inMsleep s.current = true) :
    Calm (msleepReturn s) q := by
  obtain ⟨nextOut, prevOut⟩ := inv.timers s.current inside
  refine { inv with queue := ?_, timers := ?_ }
  · show Rings (listRemove s.links (timerNode s.current)) _ _
    rw [listRemove_eq]
    exact queue_setPrev (queue_setNext inv.queue prevOut) nextOut
  · intro x sleeps
    have still : s.inMsleep x = true := by
      by_cases same : x = s.current
      · rw [same]
        exact inside
      · change Function.update s.inMsleep s.current false x = true at sleeps
        rwa [Function.update_of_ne same] at sleeps
    exact inv.timers.remove (.inr ⟨nextOut, prevOut⟩) x still

private theorem switchTo_calm {next : Nat} {rest : List Nat} (inv : Calm s (next :: rest))
    (running : s.state s.current = .running) : Calm (switchTo s next) (rest ++ [s.current]) := by
  have nodup := queue_nodup inv.queue
  have away : s.current ∉ next :: rest := by
    intro mem
    rw [((inv.queued _).mp mem).2] at running
    cases running
  have differ : next ≠ s.current := fun eq => away (eq ▸ List.mem_cons_self)
  have stays : s.state s.current ≠ .exit := by
    rw [running]
    exact nofun
  have removed : Rings (listRemove s.links (schedNode next)) {.runQueue}
      fun _ => rest.map ListNode.sched := by
    have ring := queue_remove inv.queue (t := next) List.mem_cons_self
    rwa [List.erase_cons_head] at ring
  have tame := inv.timers.remove (.inl (queue_inside inv.queue (t := next) List.mem_cons_self))
  rw [switchTo, if_pos stays]
  refine
    { queue := queue_insertTail removed fun mem => away (List.mem_cons_of_mem _ mem)
      queued := ?_
      current := ((inv.queued next).mp List.mem_cons_self).1
      asleep := ?_
      timers := tame.insertTail (queue_head_inside removed).2
      woken := inv.woken }
  · intro x
    show x ∈ rest ++ [s.current] ↔ s.live x = true ∧
      Function.update (Function.update s.state s.current .runnable) next .running x = .runnable
    by_cases first : x = next
    · subst first
      simp [(List.nodup_cons.mp nodup).1, differ]
    · rw [Function.update_of_ne first]
      by_cases old : x = s.current
      · subst old
        simp [inv.current]
      · rw [Function.update_of_ne old, ← inv.queued x]
        simp [first, old]
  · intro x sleeps
    obtain ⟨live, sleeping⟩ := inv.asleep x sleeps
    have first : x ≠ next := by
      rintro rfl
      rw [((inv.queued _).mp List.mem_cons_self).2] at sleeping
      cases sleeping
    have old : x ≠ s.current := by
      rintro rfl
      rw [running] at sleeping
      cases sleeping
    show s.live x = true ∧
      Function.update (Function.update s.state s.current .runnable) next .running x = .sleeping
    rw [Function.update_of_ne first, Function.update_of_ne old]
    exact ⟨live, sleeping⟩

private theorem Calm.record (inv : Calm s q) :
    Calm { s with
      asleep := Function.update s.asleep s.current
        (s.asleep s.current || s.state s.current = .sleeping) } q := by
  refine { inv with asleep := ?_ }
  intro x sleeps
  change Function.update s.asleep s.current _ x = true at sleeps
  by_cases same : x = s.current
  · subst same
    rw [Function.update_self] at sleeps
    rcases Bool.or_eq_true_iff.mp sleeps with before | now
    · exact inv.asleep _ before
    · exact ⟨inv.current, of_decide_eq_true now⟩
  · rw [Function.update_of_ne same] at sleeps
    exact inv.asleep x sleeps

private theorem schedule_calm (inv : Calm s q) (ok : calm s .schedule = true)
    (step : schedule s = some u) :
    (∃ q', Calm u q') ∧ (u.current ≠ s.current → s.asleep u.current = false) := by
  have recorded := inv.record
  unfold schedule switch at step
  split at step
  · obtain rfl := Option.some.inj step
    exact ⟨⟨q, recorded⟩, fun differ => absurd rfl differ⟩
  · rename_i full
    obtain ⟨next, found, eq⟩ := Option.map_eq_some_iff.mp step
    cases queue : q with
    | nil => exact absurd (inv.empty_iff.mpr queue) full
    | cons first rest =>
      subst queue
      have head : listNext s.links queueHead = schedNode first := listNext_cons inv.queue rfl rfl
      obtain rfl : first = next := by
        change schedThread (listNext s.links queueHead) = some next at found
        rw [head] at found
        exact Option.some.inj found
      split at eq
      · subst eq
        exact ⟨⟨_, recorded⟩, fun differ => absurd rfl differ⟩
      · rename_i other
        have running : s.state s.current = .running := by
          simp only [calm, head, full, Bool.false_or, Bool.or_eq_true, decide_eq_true_eq] at ok
          rcases ok with same | running
          · exact absurd (ListNode.sched.inj (Cell.node.inj same)).symm other
          · exact running
        subst eq
        have switched := switchTo_calm recorded running
        refine ⟨⟨_, switched⟩, fun _ => ?_⟩
        have chosen : (switchTo { s with
            asleep := Function.update s.asleep s.current
              (s.asleep s.current || s.state s.current = .sleeping) } first).current = first := by
          unfold switchTo
          dsimp only
          split <;> rfl
        rw [chosen]
        exact inv.awake List.mem_cons_self

end

/-! ### Waking with a full queue -/

private theorem queue_last {l : Links ListHead ListNode} {q : List Nat} {z : Nat}
    (rings : Rings l {.runQueue} fun _ => q.map ListNode.sched) (mem : z ∈ q)
    (next : l.next (schedNode z) = queueHead) : l.prev queueHead = schedNode z := by
  obtain ⟨xs, ys, rfl⟩ := List.append_of_mem mem
  have seg := rings.ring .runQueue rfl
  rw [List.map_append, List.map_cons, seg_append] at seg
  cases ys with
  | nil => exact seg.2.2
  | cons y ys => exact absurd (seg.2.1.symm.trans next) nofun

/-- While any thread is queued, `thread_wakeup` never adds the woken thread and keeps the others:
the last of the queue still leads to the head, so the woken thread cannot follow it. -/
private theorem threadWakeup_loses {s : SleepState} {q q' : List Nat} {t : Nat}
    (queued : Queued s q)
    (full : q ≠ []) (after : Queued (threadWakeup s t) q') (kept : ∀ x ∈ q, x ∈ q') : t ∉ q' := by
  obtain ⟨init, last, rfl⟩ : ∃ init last, q = init ++ [last] :=
    ⟨_, _, (List.dropLast_append_getLast full).symm⟩
  have toHead : s.links.next (schedNode last) = queueHead := by
    have split : (init ++ [last]).map ListNode.sched = init.map .sched ++ [.sched last] := by
      rw [List.map_append, List.map_singleton]
    exact queued.next_last rfl split
  have mem : last ∈ q' := kept last (List.mem_append_right _ List.mem_cons_self)
  have links : (threadWakeup s t).links = linkAfter s.links (schedNode t) queueHead :=
    listInsert_eq ..
  have back : (threadWakeup s t).links.prev queueHead = schedNode t := by
    rw [links]
    simp [linkAfter]
  by_cases same : last = t
  · -- The head is made to point to what followed the woken thread, which is the head itself.
    subst same
    have empty : (threadWakeup s last).links.next queueHead = queueHead := by
      rw [links]
      simp [linkAfter, toHead]
    have none : q' = [] := List.map_eq_nil_iff.mp ((after.empty_iff rfl).mp empty)
    rw [none] at mem
    cases mem
  · have still : (threadWakeup s t).links.next (schedNode last) = queueHead := by
      rw [links]
      simp [linkAfter, same, toHead]
    have eq := (queue_last after mem still).symm.trans back
    exact absurd (ListNode.sched.inj (Cell.node.inj eq)) same

private theorem sleepOp_calm {s u : SleepState} {q : List Nat} {op : SleepOp} (inv : Calm s q)
    (may : allowed s op = true) (ok : calm s op = true) (step : sleepOp s op = some u) :
    (∃ q', Calm u q') ∧ StepSafe s op u := by
  cases op with
  | threadRun t =>
    obtain rfl := Option.some.inj step
    have fresh : s.live t = false := by simpa [allowed] using (Bool.and_eq_true_iff.mp may).2
    exact ⟨⟨_, threadRun_calm inv fresh⟩, fun differ => absurd rfl differ, nofun⟩
  | schedule =>
    obtain ⟨after, chosen⟩ := schedule_calm inv ok step
    exact ⟨after, chosen, nofun⟩
  | threadSleep t =>
    obtain rfl := Option.some.inj step
    have live := (Bool.and_eq_true_iff.mp may).2
    exact ⟨threadSleep_calm inv live ok, fun differ => absurd rfl differ, nofun⟩
  | threadWakeup t =>
    obtain rfl := Option.some.inj step
    have live := (Bool.and_eq_true_iff.mp may).2
    obtain ⟨rfl, after⟩ := threadWakeup_calm inv live ok
    refine ⟨⟨_, after⟩, fun differ => absurd rfl differ, ?_⟩
    intro t' eq
    obtain rfl := SleepOp.threadWakeup.inj eq
    exact ⟨[], [t], inv.queue, after.queue, List.count_singleton_self, fun _ mem => nomatch mem⟩
  | msleep msecs prev next =>
    obtain ⟨rest, nextOut⟩ := Bool.and_eq_true_iff.mp ok
    obtain ⟨empty, prevOut⟩ := Bool.and_eq_true_iff.mp rest
    obtain rfl := inv.empty_iff.mp empty
    have inserted : Calm (msleepInsert s msecs prev next) [] :=
      msleepInsert_calm inv prevOut nextOut
    have still : calm (msleepInsert s msecs prev next) .schedule = true := by
      simp [calm, inserted.empty_iff.mpr rfl]
    obtain ⟨after, chosen⟩ := schedule_calm inserted still step
    exact ⟨after, chosen, nofun⟩
  | msleepReturn =>
    obtain rfl := Option.some.inj step
    exact ⟨⟨_, msleepReturn_calm inv may⟩, fun differ => absurd rfl differ, nofun⟩
  | timer fuel =>
    have noWrap : (tick s.time).ticks ≠ 0 := of_decide_eq_true ok
    have eq : timerIrqHandler s fuel = some { s with time := tick s.time } := if_neg noWrap
    obtain rfl := Option.some.inj (eq.symm.trans step)
    exact ⟨⟨q, { inv with }⟩, fun differ => absurd rfl differ, nofun⟩

/-- In calm runs sleepers stay off the run queue and are not chosen, the timer wakes nobody too
early, and waking a thread queues it once and keeps the others. -/
theorem sleep_run_safe {s t : SleepState} (start : Booted s)
    (run : Run sleepOp (fun s op => (allowed s op && calm s op) = true) s t) :
    SleepersOff t ∧ ∀ op u, (allowed t op && calm t op) = true → sleepOp t op = some u →
      StepSafe t op u := by
  have inv : ∃ q, Calm t q := by
    apply run.invariant ⟨[], start.calm⟩
    intro s op u before guard step
    obtain ⟨q, inv⟩ := before
    obtain ⟨may, ok⟩ := Bool.and_eq_true_iff.mp guard
    exact (sleepOp_calm inv may ok step).1
  obtain ⟨q, inv⟩ := inv
  constructor
  · refine ⟨⟨q, inv.queue, fun x mem => inv.awake mem⟩, ?_⟩
    rw [inv.woken]
    intro wake mem
    cases mem
  · intro op u guard step
    obtain ⟨may, ok⟩ := Bool.and_eq_true_iff.mp guard
    exact (sleepOp_calm inv may ok step).2

def bootSleep : SleepState :=
  { links := ⟨id, id⟩
    state := fun _ => .running
    current := 0
    time := ⟨0, 0, 0, 0, 0⟩
    expired := fun _ => ⟨0, 0, 0, 0, 0⟩
    inMsleep := fun _ => false
    live := fun t => t = 0
    asleep := fun _ => false
    woken := [] }

private theorem bootSleep_booted : Booted bootSleep where
  queue :=
    { ring := fun _ _ => ⟨rfl, rfl⟩
      nodup := fun _ _ => List.nodup_nil
      disjoint := fun _ _ _ _ _ _ mem => nomatch mem }
  live _ := decide_eq_true_iff
  running := rfl
  awake _ := rfl
  outsideMsleep _ := rfl
  woken := rfl

/-- Alone, the idle thread sleeps, comes back at once, and is woken after a tick. -/
theorem sleep_run_safe_alone : ∃ t,
    Run sleepOp (fun s op => (allowed s op && calm s op) = true) bootSleep t ∧
      t.asleep 0 = true ∧ SleepersOff t ∧
      StepSafe t (.threadWakeup 0) (threadWakeup t 0) := by
  have ran : (exec sleepOp (fun s op => allowed s op && calm s op) bootSleep
      [.msleep 10 (.node (.memory 0xC0100040)) (.node (.memory 0xC0100080)), .msleepReturn,
        .timer 0]).map
        (fun t => (t.asleep 0, allowed t (.threadWakeup 0) && calm t (.threadWakeup 0))) =
      some (true, true) := by decide +kernel
  obtain ⟨t, done, eq⟩ := Option.map_eq_some_iff.mp ran
  have run := Run.of_exec done
  have safe := sleep_run_safe bootSleep_booted run
  exact ⟨t, run, congrArg Prod.fst eq, safe.1, safe.2 _ _ (congrArg Prod.snd eq) rfl⟩

/-- With another thread on the run queue, `msleep` puts the sleeper on it, and the next `schedule`
chooses it. -/
theorem msleep_stays_queued : ∃ t u,
    Run sleepOp (fun s op => allowed s op = true) bootSleep t ∧ t.asleep 0 = true ∧
      ¬ SleepersOff t ∧ sleepOp t .schedule = some u ∧ u.current = 0 ∧
        ¬ StepSafe t .schedule u := by
  have ran : (exec sleepOp allowed bootSleep [.threadRun 1,
      .msleep 10 (.node (.memory 0xC0100040)) (.node (.memory 0xC0100080))]).bind (fun t =>
        (sleepOp t .schedule).map fun u =>
          (t.asleep 0, t.links.next queueHead, t.current, u.current)) =
      some (true, schedNode 0, 1, 0) := by decide +kernel
  obtain ⟨t, done, rest⟩ := Option.bind_eq_some_iff.mp ran
  obtain ⟨u, step, eq⟩ := Option.map_eq_some_iff.mp rest
  have asleep : t.asleep 0 = true := congrArg Prod.fst eq
  have first : t.links.next queueHead = schedNode 0 := congrArg (fun x => x.2.1) eq
  have before : t.current = 1 := congrArg (fun x => x.2.2.1) eq
  have chosen : u.current = 0 := congrArg (fun x => x.2.2.2) eq
  refine ⟨t, u, Run.of_exec done, asleep, ?_, step, chosen, ?_⟩
  · rintro ⟨⟨q, queued, awake⟩, _⟩
    have mem : 0 ∈ q := sched_mem_map.mp (queued.first_mem rfl first)
    rw [awake 0 mem] at asleep
    cases asleep
  · intro safe
    have awake := safe.chosen (by rw [chosen, before]; decide)
    rw [chosen, asleep] at awake
    cases awake

end OhMyOs.Schedule.Sleep
