/- GID: OhMyOs/Schedule/TimerWalk
   generality: I
   digest: The walk of timer_irq_handler over a circular timer list, which ends at NULL only. -/

import OhMyOs.Schedule.Sleep

set_option autoImplicit false
set_option relaxedAutoImplicit false

namespace OhMyOs.Schedule.Sleep

open OhMyOs.Lib.Ring OhMyOs.Include.IntrusiveList OhMyOs.Kernel.Timer

def checkTimer (s : SleepState) (t : Nat) : SleepState :=
  if timeCmp (s.expired t) s.time then
    { threadWakeup s t with woken := (s.expired t, s.time) :: s.woken }
  else s

/-- The nodes that the loop takes for nodes of timers, in order. After a node that is not in a
timer it is not followed further. -/
def examined : Nat → SleepState → Ptr → List Ptr
  | 0, _, _ => []
  | _ + 1, _, .node (.memory 0) => []
  | fuel + 1, s, .node (.timer t) =>
    timerNode t ::
      if s.inMsleep t then
        examined fuel (checkTimer s t) ((checkTimer s t).links.next (timerNode t))
      else []
  | _ + 1, _, node => [node]

def walked (s : SleepState) (fuel : Nat) : List Ptr :=
  if (tick s.time).ticks = 0 then
    examined fuel { s with time := tick s.time } (listNext s.links timerHead)
  else []

/-- From `c` on, the timers of these threads are linked and then the head of the list. The threads
are inside `msleep`, and their `sched_node`s point into the run queue. -/
structure TimersFrom (s : SleepState) (c : Ptr) (q : List Nat) : Prop where
  seg : Seg s.links c (q.map ListNode.timer) timerHead
  sleeping : ∀ t ∈ q, s.inMsleep t = true
  queued : ∀ t ∈ q, outside (s.links.next (schedNode t)) = false

section
variable {s : SleepState} {c : Ptr} {q : List Nat} {t : Nat}

private theorem threadWakeup_links (queued : outside (s.links.next (schedNode t)) = false) {x : Ptr}
    (out : outside x = true) :
    (threadWakeup s t).links.next x = s.links.next x ∧
      (threadWakeup s t).links.prev x = s.links.prev x := by
  have node : x ≠ schedNode t := (ne_of_outside rfl out).symm
  have head : x ≠ queueHead := (ne_of_outside rfl out).symm
  have after : x ≠ s.links.next (schedNode t) := (ne_of_outside queued out).symm
  exact ⟨linkAfter_next_of_ne node head, linkAfter_prev_of_ne after head⟩

private theorem threadWakeup_sched (other : Nat)
    (queued : outside (s.links.next (schedNode other)) = false) :
    outside ((threadWakeup s t).links.next (schedNode other)) = false := by
  by_cases same : other = t
  · subst same
    simp [threadWakeup, listInsert_eq, linkAfter, outside]
  · have node : schedNode other ≠ schedNode t := by simpa [schedNode] using same
    have head : schedNode other ≠ queueHead := by simp [schedNode, queueHead]
    rw [threadWakeup, listInsert_eq, linkAfter_next_of_ne node head]
    exact queued

private theorem TimersFrom.check (timers : TimersFrom s c (t :: q)) :
    TimersFrom (checkTimer s t) (timerNode t) q := by
  obtain ⟨⟨-, -, rest⟩, sleeping, queued⟩ := timers
  have here := queued t List.mem_cons_self
  unfold checkTimer
  split_ifs with expired
  · refine ⟨?_, fun x member => sleeping x (List.mem_cons_of_mem _ member), fun x member => ?_⟩
    · refine rest.frame (threadWakeup_links here rfl).1 (threadWakeup_links here rfl).2 ?_
      intro x member
      obtain ⟨u, -, rfl⟩ := List.mem_map.mp member
      exact threadWakeup_links here rfl
    · exact threadWakeup_sched x (queued x (List.mem_cons_of_mem _ member))
  · exact ⟨rest, fun x member => sleeping x (List.mem_cons_of_mem _ member),
      fun x member => queued x (List.mem_cons_of_mem _ member)⟩

private theorem examined_timers (timers : TimersFrom s c q) (fuel : Nat)
    (enough : q.length < fuel) :
    examined fuel s (s.links.next c) = q.map timerNode ++ [timerHead] := by
  induction q generalizing s c fuel with
  | nil =>
    obtain ⟨fuel, rfl⟩ : ∃ n, fuel = n + 1 := ⟨fuel - 1, by omega⟩
    rw [timers.seg.1]
    rfl
  | cons t q ih =>
    obtain ⟨fuel, rfl⟩ : ∃ n, fuel = n + 1 := ⟨fuel - 1, by omega⟩
    have rest := ih timers.check fuel (by simpa using enough)
    rw [timers.seg.1, examined, if_pos (timers.sleeping t List.mem_cons_self), rest]
    rfl

private theorem timerLoop_timers (timers : TimersFrom s c q) (fuel : Nat) :
    timerLoop fuel s (s.links.next c) = none := by
  induction q generalizing s c fuel with
  | nil =>
    rw [timers.seg.1]
    cases fuel with
    | zero | succ => rfl
  | cons t q ih =>
    rw [timers.seg.1]
    cases fuel with
    | zero => rfl
    | succ fuel =>
      have rest := ih timers.check fuel
      rw [timerLoop, if_pos (timers.sleeping t List.mem_cons_self)]
      exact rest

end

structure TimersLinked (s : SleepState) (q : List Nat) : Prop where
  ring : Rings s.links {.timerList} fun _ => q.map ListNode.timer
  sleeping : ∀ t ∈ q, s.inMsleep t = true
  queued : ∀ t ∈ q, outside (s.links.next (schedNode t)) = false

/-- The interrupt returns, never takes the head of the list for a timer, and if it looks at the
timers, it looks at each queued one once. -/
structure WalkExact (s : SleepState) (q : List Nat) : Prop where
  returns : ∃ fuel t, timerIrqHandler s fuel = some t
  head : ∀ fuel, timerHead ∉ walked s fuel
  once : (tick s.time).ticks = 0 → ∃ fuel, walked s fuel = q.map timerNode

private theorem TimersLinked.timersFrom {s : SleepState} {q : List Nat}
    (linked : TimersLinked s q) :
    TimersFrom { s with time := tick s.time } timerHead q :=
  ⟨linked.ring.ring .timerList rfl, linked.sleeping, linked.queued⟩

/-- The interrupt does what it should just as long as `ticks` does not wrap around. When it does,
the walk over any well-formed list, empty or not, goes on behind the last timer and takes the head
for a timer. -/
theorem walkExact_iff (s : SleepState) (q : List Nat) (linked : TimersLinked s q) :
    (WalkExact s q ↔ (tick s.time).ticks ≠ 0) ∧
      ((tick s.time).ticks = 0 →
        ∀ fuel, q.length < fuel → walked s fuel = q.map timerNode ++ [timerHead]) := by
  refine ⟨⟨fun walk wrapped => ?_, fun running => ⟨⟨0, { s with time := tick s.time }, ?_⟩,
    fun fuel => ?_, fun wrapped => absurd wrapped running⟩⟩, fun wrapped fuel enough => ?_⟩
  · obtain ⟨fuel, t, done⟩ := walk.returns
    simp only [timerIrqHandler, if_pos wrapped] at done
    obtain ⟨u, ended, -⟩ := Option.bind_eq_some_iff.mp done
    have endless := timerLoop_timers linked.timersFrom fuel
    rw [listNext, endless] at ended
    cases ended
  · simp only [timerIrqHandler, if_neg running]
  · rw [walked, if_neg running]
    exact List.not_mem_nil
  · rw [walked, if_pos wrapped]
    exact examined_timers linked.timersFrom fuel enough

def oneTimer (ticks : Nat) : SleepState :=
  { bootSleep with
    links := listInsertBefore ⟨id, id⟩ timerHead (timerNode 1)
    time := ⟨0, 0, 0, 0, ticks⟩
    inMsleep := fun t => t = 1 }

private theorem oneTimer_linked (ticks : Nat) : TimersLinked (oneTimer ticks) [1] where
  ring :=
    { ring := fun i member => by
        obtain rfl : i = .timerList := member
        exact ⟨rfl, rfl, rfl, rfl⟩
      nodup := fun _ _ => List.nodup_singleton _
      disjoint := fun i first j second differ => absurd (Eq.trans first second.symm) differ }
  sleeping t member := by
    obtain rfl := List.mem_singleton.mp member
    rfl
  queued t member := by
    obtain rfl := List.mem_singleton.mp member
    rfl

/-- At any other tick the timers are not looked at. -/
theorem walkExact_iff_tick : WalkExact (oneTimer 41) [1] :=
  (walkExact_iff (oneTimer 41) [1] (oneTimer_linked 41)).1.mpr (by decide)

/-- When the tick counter wraps around, the interrupt takes the head of the list for a timer. -/
theorem walk_takes_head :
    ¬ ∀ (s : SleepState) (q : List Nat), TimersLinked s q → WalkExact s q := by
  intro claim
  have walk := claim (oneTimer 0xffffffff) [1] (oneTimer_linked _)
  have met : timerHead ∈ walked (oneTimer 0xffffffff) 2 := by decide +kernel
  exact walk.head 2 met

end OhMyOs.Schedule.Sleep
