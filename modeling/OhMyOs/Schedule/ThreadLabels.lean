/- GID: OhMyOs/Schedule/ThreadLabels
   generality: I
   digest: The state field of threads over whole calls of the scheduler: a thread that follows an
   exited one is never marked as running. -/

import OhMyOs.Schedule.SchedulerRuns

set_option autoImplicit false
set_option relaxedAutoImplicit false

namespace OhMyOs.Schedule.ThreadLabels

open OhMyOs.Lib.Ring OhMyOs.Lib.Runs OhMyOs.Lib.Ownership OhMyOs.Include.IntrusiveList
open OhMyOs.Schedule.Scheduler

/-! ### Whole calls -/

def finish (cpu : Nat) : Nat → SchedState → Option SchedState
  | 0, s => if s.pc cpu = .outside then some s else none
  | n + 1, s => if s.pc cpu = .outside then some s else (scheduleStep s cpu).bind (finish cpu n)

def schedCall (s : SchedState) : SchedOp → Option SchedState
  | .init cpu idle => some (scheduleInit s cpu idle)
  | .run self cpu t => some (threadRun s self cpu t)
  | .schedule cpu => finish cpu 6 (s.setPc cpu .entered)
  | .exit cpu => (threadExit s cpu).bind (finish cpu 6)
  | .step _ => none

def callAllowed (s : SchedState) : SchedOp → Bool
  | .exit cpu => ready s cpu
  | .step _ => false
  | op => allowed s op

def picked (s s' : SchedState) : SchedOp → List (Nat × ThreadState)
  | .schedule cpu | .exit cpu =>
    if s'.currentThreads cpu = s.currentThreads cpu then []
    else (s'.currentThreads cpu).toList.map fun t => (t, (s'.threads t).state)
  | _ => []

structure LabelRun where
  state : SchedState
  picks : List (Nat × ThreadState)

def labelStep (r : LabelRun) (op : SchedOp) : Option LabelRun :=
  (schedCall r.state op).map fun s => ⟨s, r.picks ++ picked r.state s op⟩

/-! ### Invariant -/

def threadsOf (s : SchedState) (f : Nat → List Nat) (cpu : Nat) : List Nat :=
  (s.currentThreads cpu).toList ++ f cpu

/-- Every thread is the current one of its CPU or on its run queue, and those on the run queues
are runnable. -/
structure Labelled (s : SchedState) (f : Nat → List Nat) : Prop where
  rings : Rings s.rqs {cpu | s.idle cpu ≠ none} f
  custody : Custody s.home (threadsOf s f)
  runs : ∀ cpu, s.idle cpu ≠ none → ∃ t, s.currentThreads cpu = some t
  unused : ∀ cpu, s.idle cpu = none → s.currentThreads cpu = none ∧ f cpu = []
  runnable : ∀ cpu, ∀ t ∈ f cpu, (s.threads t).state = .runnable

variable {s s' : SchedState} {f : Nat → List Nat} {cpu t prev next : Nat} {rest : List Nat}

private theorem Labelled.setPc (labelled : Labelled s f) (pc : Pc) : Labelled (s.setPc cpu pc) f :=
  ⟨labelled.rings, labelled.custody, labelled.runs, labelled.unused, labelled.runnable⟩

private theorem Labelled.current_free (labelled : Labelled s f)
    (runs : s.currentThreads cpu = some t)
    (other : Nat) : t ∉ f other := by
  have mine : t ∈ threadsOf s f cpu := by simp [threadsOf, runs]
  have home := (labelled.custody.mem_iff cpu t).mp mine
  intro member
  by_cases same : other = cpu
  · subst same
    have nodup := labelled.custody.nodup other
    simp only [threadsOf, runs, Option.toList_some, List.singleton_append, List.nodup_cons] at nodup
    exact nodup.1 member
  · exact labelled.custody.elsewhere home same (List.mem_append_right _ member)

private theorem Labelled.setState (labelled : Labelled s f) (runs : s.currentThreads cpu = some t)
    (state : ThreadState) : Labelled (s.setState t state) f := by
  refine ⟨labelled.rings, labelled.custody, labelled.runs, labelled.unused, ?_⟩
  intro other u member
  have differ : u ≠ t := by
    rintro rfl
    exact labelled.current_free runs other member
  simpa [SchedState.setState, Function.update_of_ne differ] using labelled.runnable other u member

/-! ### `schedule` -/

def requeued (s : SchedState) (cpu prev next : Nat) : SchedState :=
  { s with
    threads := ((s.setState prev .runnable).setState next .running).threads
    rqs := listInsertTail (listRemove s.rqs (.node next)) (.head cpu) (.node prev)
    currentThreads := Function.update s.currentThreads cpu (some next)
    pc := Function.update s.pc cpu .outside }

def reaped (s : SchedState) (cpu prev next : Nat) : SchedState :=
  { s with
    rqs := listRemove s.rqs (.node next)
    threadGroup := listRemove s.threadGroup (.node prev)
    currentThreads := Function.update s.currentThreads cpu (some next)
    pc := Function.update s.pc cpu .outside
    home := Function.update s.home prev none }

private theorem finish_empty (place : s.pc cpu = .entered) (runs : s.currentThreads cpu = some prev)
    (empty : listEmpty s.rqs (.head cpu) = true) :
    finish cpu 6 s = some (s.setPc cpu .outside) := by
  simp [finish, scheduleStep, place, runs, empty, SchedState.setPc]

private theorem finish_switch (place : s.pc cpu = .entered)
    (runs : s.currentThreads cpu = some prev)
    (some' : listEmpty s.rqs (.head cpu) = false)
    (first : listNext s.rqs (.head cpu) = .node next) (differ : prev ≠ next) :
    finish cpu 6 s = some (if (s.threads prev).state ≠ .exit then requeued s cpu prev next
      else reaped s cpu prev next) := by
  by_cases exited : (s.threads prev).state = .exit
  · simp [finish, scheduleStep, place, runs, some', first, containerOf, differ, exited,
      SchedState.setPc, reaped]
  · simp [finish, scheduleStep, place, runs, some', first, containerOf, differ, exited,
      SchedState.setPc, SchedState.setState, requeued]

structure Picks (s : SchedState) (f : Nat → List Nat) (cpu prev next : Nat) (rest : List Nat) :
    Prop where
  labelled : Labelled s f
  init : s.idle cpu ≠ none
  runs : s.currentThreads cpu = some prev
  queue : f cpu = next :: rest

namespace Picks

private theorem nodup (picks : Picks s f cpu prev next rest) : (prev :: next :: rest).Nodup := by
  have nodup := picks.labelled.custody.nodup cpu
  rwa [threadsOf, picks.runs, picks.queue] at nodup

private theorem differ (picks : Picks s f cpu prev next rest) : prev ≠ next := by
  rintro rfl
  exact (List.nodup_cons.mp picks.nodup).1 List.mem_cons_self

private theorem rings (picks : Picks s f cpu prev next rest) :
    Rings (listRemove s.rqs (.node next)) {cpu | s.idle cpu ≠ none}
      (Function.update f cpu rest) := by
  have member : next ∈ f cpu := by simp [picks.queue]
  have removed := listRemove_rings picks.labelled.rings (i := cpu) picks.init member
  rwa [picks.queue, List.erase_cons_head] at removed

private theorem member_rest (picks : Picks s f cpu prev next rest) {other : Nat}
    (member : t ∈ Function.update f cpu rest other) : t ∈ f other ∧ t ≠ prev ∧ t ≠ next := by
  have notPrev : t ∈ f other → t ≠ prev := by
    rintro member rfl
    exact picks.labelled.current_free picks.runs other member
  by_cases same : other = cpu
  · subst same
    rw [Function.update_self] at member
    have queued : t ∈ f other := picks.queue ▸ List.mem_cons_of_mem next member
    refine ⟨queued, notPrev queued, ?_⟩
    rintro rfl
    exact (List.nodup_cons.mp (List.nodup_cons.mp picks.nodup).2).1 member
  · rw [Function.update_of_ne same] at member
    refine ⟨member, notPrev member, ?_⟩
    rintro rfl
    have inside : t ∈ threadsOf s f cpu := by simp [threadsOf, picks.queue]
    have home := (picks.labelled.custody.mem_iff cpu t).mp inside
    exact picks.labelled.custody.elsewhere home same (List.mem_append_right _ member)

private theorem runs_switched (picks : Picks s f cpu prev next rest) {other : Nat}
    (init : s.idle other ≠ none) :
    ∃ t, Function.update s.currentThreads cpu (some next) other = some t := by
  by_cases same : other = cpu
  · exact ⟨next, by rw [same, Function.update_self]⟩
  · rw [Function.update_of_ne same]
    exact picks.labelled.runs other init

private theorem unused_switched (picks : Picks s f cpu prev next rest) {other : Nat}
    (unused : s.idle other = none) (queue : List Nat) :
    Function.update s.currentThreads cpu (some next) other = none ∧
      Function.update f cpu queue other = [] := by
  have same : other ≠ cpu := by
    rintro rfl
    exact picks.init unused
  rw [Function.update_of_ne same, Function.update_of_ne same]
  exact picks.labelled.unused other unused

private theorem requeued (picks : Picks s f cpu prev next rest) :
    Labelled (requeued s cpu prev next) (Function.update f cpu (rest ++ [prev])) := by
  have runs := picks.runs
  refine ⟨?_, picks.labelled.custody.perm fun other => ?_, fun _ => picks.runs_switched,
    fun _ unused => picks.unused_switched unused _, fun other t member => ?_⟩
  · have inserted := listInsertTail_rings picks.rings (i := cpu) (a := prev) picks.init
      fun other _ member => (picks.member_rest member).2.1 rfl
    rwa [Function.update_self, Function.update_idem] at inserted
  · by_cases same : other = cpu
    · subst same
      have moved : (next :: (rest ++ [prev])).Perm (prev :: next :: rest) :=
        List.perm_append_singleton prev (next :: rest)
      simpa [threadsOf, ThreadLabels.requeued, runs, picks.queue] using moved
    · simp [threadsOf, ThreadLabels.requeued, same]
  · have cases' : t = prev ∨ t ∈ Function.update f cpu rest other := by
      by_cases same : other = cpu
      · subst same
        simpa [or_comm] using member
      · exact .inr (by simpa [same] using member)
    rcases cases' with rfl | old
    · simp [ThreadLabels.requeued, SchedState.setState, picks.differ]
    · obtain ⟨before, notPrev, notNext⟩ := picks.member_rest old
      simpa [ThreadLabels.requeued, SchedState.setState, notPrev, notNext] using
        picks.labelled.runnable other t before

private theorem reaped (picks : Picks s f cpu prev next rest) :
    Labelled (reaped s cpu prev next) (Function.update f cpu rest) := by
  have runs := picks.runs
  refine ⟨picks.rings, picks.labelled.custody.drop (i := cpu) ?_ fun other differ => ?_,
    fun _ => picks.runs_switched, fun _ unused => picks.unused_switched unused _,
    fun other t member => ?_⟩
  · simp [threadsOf, ThreadLabels.reaped, runs, picks.queue]
  · simp [threadsOf, ThreadLabels.reaped, differ]
  · exact picks.labelled.runnable other t (picks.member_rest member).1

end Picks

/-- `schedule` returns. If the run queue is empty nothing but the place changes; otherwise the
first thread of the queue runs, and it is marked as running unless the thread before has
exited. -/
private theorem finish_spec (labelled : Labelled s f) (init : s.idle cpu ≠ none)
    (place : s.pc cpu = .entered) (runs : s.currentThreads cpu = some prev) :
    ∃ s' f', finish cpu 6 s = some s' ∧ Labelled s' f' ∧
      s'.pc = Function.update s.pc cpu .outside ∧ s'.idle = s.idle ∧
        ((listEmpty s.rqs (.head cpu) = true ∧ s'.currentThreads cpu = some prev) ∨
          (listEmpty s.rqs (.head cpu) = false ∧ ∃ next, s'.currentThreads cpu = some next ∧
            next ≠ prev ∧
              ((s'.threads next).state = .running ↔ (s.threads prev).state ≠ .exit))) := by
  cases queue : f cpu with
  | nil =>
    have empty := (listEmpty_iff labelled.rings init).mpr queue
    exact ⟨_, f, finish_empty place runs empty, labelled.setPc .outside,
      rfl, rfl, .inl ⟨empty, runs⟩⟩
  | cons next rest =>
    have picks : Picks s f cpu prev next rest := ⟨labelled, init, runs, queue⟩
    have some' : listEmpty s.rqs (.head cpu) = false := by
      rw [Bool.eq_false_iff, ne_eq, listEmpty_iff labelled.rings init, queue]
      exact List.cons_ne_nil next rest
    have first := listNext_cons labelled.rings init queue
    have call := finish_switch place runs some' first picks.differ
    by_cases exited : (s.threads prev).state = .exit
    · rw [if_neg (not_not.mpr exited)] at call
      refine ⟨_, _, call, picks.reaped, rfl, rfl, .inr ⟨some', next, ?_, picks.differ.symm, ?_⟩⟩
      · simp [reaped]
      · have waiting := labelled.runnable cpu next (queue ▸ List.mem_cons_self)
        simp [reaped, waiting, exited]
    · rw [if_pos exited] at call
      refine ⟨_, _, call, picks.requeued, rfl, rfl, .inr ⟨some', next, ?_, picks.differ.symm, ?_⟩⟩
      · simp [requeued]
      · simp [requeued, SchedState.setState, exited]

/-! ### The other calls -/

private theorem Labelled.initFails (labelled : Labelled s f) (unused : s.idle cpu = none) :
    Labelled (scheduleInit s cpu none) f := by
  have rings : Rings (listInit s.rqs (.head cpu)) {cpu | s.idle cpu ≠ none} f :=
    (newHead_rings labelled.rings unused (labelled.unused cpu unused).2).restrict
      (Set.subset_insert cpu _)
  unfold scheduleInit
  split_ifs
  · exact ⟨rings, labelled.custody, labelled.runs, labelled.unused, labelled.runnable⟩
  · exact ⟨rings, labelled.custody, labelled.runs, labelled.unused, labelled.runnable⟩

private theorem Labelled.not_queued (labelled : Labelled s f) (free : s.home t = none)
    (other : Nat) :
    t ∉ f other := by
  intro member
  have home := (labelled.custody.mem_iff other t).mp (List.mem_append_right _ member)
  rw [free] at home
  cases home

private theorem Labelled.initSucceeds {idle : Nat} (labelled : Labelled s f)
    (unused : s.idle cpu = none)
    (free : s.home idle = none) : Labelled (scheduleInit s cpu (some idle)) f := by
  obtain ⟨group, eq⟩ := scheduleInit_some s cpu idle
  obtain ⟨none, empty⟩ := labelled.unused cpu unused
  rw [eq]
  refine ⟨?_, labelled.custody.add free (i := cpu) ?_ fun other differ => ?_, fun other init => ?_,
    fun other init => ?_, fun other t member => ?_⟩
  · rw [initialised_insert]
    exact newHead_rings labelled.rings unused empty
  · simp [threadsOf, none, empty]
  · simp [threadsOf, differ]
  · by_cases same : other = cpu
    · exact ⟨idle, by simp [same]⟩
    · simp only [Function.update_of_ne same] at init ⊢
      exact labelled.runs other init
  · have same : other ≠ cpu := by
      rintro rfl
      simp at init
    simp only [Function.update_of_ne same] at init ⊢
    exact labelled.unused other init
  · have differ : t ≠ idle := by
      rintro rfl
      exact labelled.not_queued free other member
    simpa [Function.update_of_ne differ] using labelled.runnable other t member

private theorem Labelled.threadRun {self : Nat} {arg : Int} (labelled : Labelled s f)
    (init : s.idle (targetCpu self arg) ≠ none) (free : s.home t = none) :
    Labelled (threadRun s self arg t)
      (Function.update f (targetCpu self arg) (t :: f (targetCpu self arg))) := by
  refine ⟨?_, labelled.custody.add free (i := targetCpu self arg) ?_ fun other differ => ?_,
    labelled.runs, fun other unused => ?_, fun other u member => ?_⟩
  · exact listInsert_rings labelled.rings init fun other _ => labelled.not_queued free other
  · simp only [threadsOf, Scheduler.threadRun, Function.update_self]
    exact List.perm_middle
  · simp [threadsOf, Scheduler.threadRun, differ]
  · have differ : other ≠ targetCpu self arg := by
      rintro rfl
      exact init unused
    simpa [Scheduler.threadRun, differ] using labelled.unused other unused
  · rcases mem_insert_iff.mp member with ⟨-, rfl⟩ | old
    · simp [Scheduler.threadRun]
    · have differ : u ≠ t := by
        rintro rfl
        exact labelled.not_queued free other old
      simpa [Scheduler.threadRun, Function.update_of_ne differ] using
        labelled.runnable other u old

/-! ### Runs -/

/-- `schedule` finds the run queue empty if the current thread has exited. -/
def picksLive (s : SchedState) : SchedOp → Bool
  | .schedule cpu => listEmpty s.rqs (.head cpu) ||
      (s.currentThreads cpu).all fun t => (s.threads t).state ≠ .exit
  | .exit cpu => listEmpty s.rqs (.head cpu)
  | _ => true

structure Between (s : SchedState) (f : Nat → List Nat) : Prop where
  labelled : Labelled s f
  outside : ∀ cpu, s.pc cpu = .outside

private theorem Between.call (between : Between s f) (s' : SchedState) (init : s.idle cpu ≠ none)
    (runs : s.currentThreads cpu = some prev) (labelled : Labelled s' f)
    (idle : s'.idle = s.idle) (rqs : s'.rqs = s.rqs)
    (pc : s'.pc = Function.update s.pc cpu .entered)
    (same : s'.currentThreads = s.currentThreads) :
    ∃ s'' f', finish cpu 6 s' = some s'' ∧ Between s'' f' ∧
      ((∀ p ∈ picked s s'' (.schedule cpu), p.2 = .running) ↔
        listEmpty s.rqs (.head cpu) = true ∨ (s'.threads prev).state ≠ .exit) := by
  have place : s'.pc cpu = .entered := by rw [pc, Function.update_self]
  obtain ⟨s'', f', call, labelled', pc', -, way⟩ :=
    finish_spec labelled (idle ▸ init) place (same ▸ runs)
  refine ⟨s'', f', call, ⟨labelled', fun other => ?_⟩, ?_⟩
  · rw [pc', pc, Function.update_idem]
    by_cases here : other = cpu
    · rw [here, Function.update_self]
    · rw [Function.update_of_ne here]
      exact between.outside other
  · rw [rqs] at way
    rcases way with ⟨empty, kept⟩ | ⟨some', next, now, differ, label⟩
    · simp [picked, kept, runs, empty]
    · have changed : s''.currentThreads cpu ≠ s.currentThreads cpu := by
        rw [now, runs]
        exact fun eq => differ (Option.some.inj eq)
      have list : picked s s'' (.schedule cpu) = [(next, (s''.threads next).state)] := by
        rw [picked, if_neg changed, now]
        rfl
      simp [list, some', label]

private theorem Between.step {op : SchedOp} (between : Between s f) (ok : callAllowed s op = true) :
    ∃ s' f', schedCall s op = some s' ∧ Between s' f' ∧
      ((∀ p ∈ picked s s' op, p.2 = .running) ↔ picksLive s op = true) := by
  obtain ⟨labelled, outside⟩ := between
  cases op with
  | init cpu idle =>
    simp only [callAllowed, allowed, Bool.and_eq_true, decide_eq_true_eq] at ok
    have quiet : ∀ c, (scheduleInit s cpu idle).pc c = .outside := by
      intro c
      unfold scheduleInit
      cases idle with
      | none => split_ifs <;> exact outside c
      | some idle => split_ifs <;> exact outside c
    refine ⟨_, f, rfl, ⟨?_, quiet⟩, by simp [picked, picksLive]⟩
    cases idle with
    | none => exact labelled.initFails ok.1.2
    | some idle => exact labelled.initSucceeds ok.1.2 (by simpa using ok.2)
  | run self arg t =>
    simp only [callAllowed, allowed, Bool.and_eq_true, decide_eq_true_eq] at ok
    have init : s.idle (targetCpu self arg) ≠ none := by
      obtain ⟨idle, init⟩ := Option.isSome_iff_exists.mp ok.1.2
      simp [init]
    exact ⟨_, _, rfl, ⟨labelled.threadRun init ok.2, outside⟩, by simp [picked, picksLive]⟩
  | schedule cpu =>
    obtain ⟨⟨idle, init⟩, -⟩ := ready_iff.mp ok
    obtain ⟨prev, runs⟩ := labelled.runs cpu (by simp [init])
    obtain ⟨s', f', call, between', label⟩ := Between.call ⟨labelled, outside⟩
      (s.setPc cpu .entered) (by simp [init]) runs (labelled.setPc .entered) rfl rfl rfl rfl
    refine ⟨s', f', call, between', label.trans ?_⟩
    simp [picksLive, runs, SchedState.setPc]
  | exit cpu =>
    obtain ⟨⟨idle, init⟩, -⟩ := ready_iff.mp ok
    obtain ⟨prev, runs⟩ := labelled.runs cpu (by simp [init])
    obtain ⟨s', f', call, between', label⟩ :=
      Between.call ⟨labelled, outside⟩ ((s.setState prev .exit).setPc cpu .entered)
        (by simp [init]) runs ((labelled.setState runs .exit).setPc .entered) rfl rfl rfl rfl
    refine ⟨s', f', ?_, between', label.trans ?_⟩
    · simp only [schedCall, threadExit, runs, Option.map_some, Option.bind_some]
      exact call
    · simp [picksLive, SchedState.setState, SchedState.setPc]
  | step cpu => cases ok

private theorem between_of_booted (booted : Booted s) : Between s fun _ => [] := by
  refine ⟨⟨⟨?_, ?_, ?_⟩, ⟨?_, ?_⟩, ?_, ?_, ?_⟩, booted.outside⟩
  · intro cpu init
    exact absurd (booted.idle cpu) init
  · exact fun _ _ => List.nodup_nil
  · intro i _ j _ _ x member
    cases member
  · intro cpu
    simp [threadsOf, booted.current]
  · intro cpu t
    simp [threadsOf, booted.current, booted.home]
  · intro cpu init
    exact absurd (booted.idle cpu) init
  · exact fun cpu _ => ⟨booted.current cpu, rfl⟩
  · intro cpu t member
    cases member

/-- The threads that `schedule` has picked were running when it returned, and those on the run
queues are runnable. -/
structure LabelsAgree (r : LabelRun) : Prop where
  picks : ∀ p ∈ r.picks, p.2 = .running
  queues : ∃ f, Rings r.state.rqs {cpu | r.state.idle cpu ≠ none} f ∧
    ∀ cpu, r.state.idle cpu ≠ none → ∀ t ∈ f cpu, (r.state.threads t).state = .runnable

private theorem Between.queues (between : Between s f) :
    ∃ f, Rings s.rqs {cpu | s.idle cpu ≠ none} f ∧
      ∀ cpu, s.idle cpu ≠ none → ∀ t ∈ f cpu, (s.threads t).state = .runnable :=
  ⟨f, between.labelled.rings, fun cpu _ => between.labelled.runnable cpu⟩

private theorem labelStep_spec {r : LabelRun} {op : SchedOp} (between : Between r.state f)
    (ok : callAllowed r.state op = true) :
    ∃ r' f', labelStep r op = some r' ∧ Between r'.state f' ∧
      (LabelsAgree r' ↔ (∀ p ∈ r.picks, p.2 = .running) ∧ picksLive r.state op = true) := by
  obtain ⟨s', f', call, between', label⟩ := between.step ok
  refine ⟨⟨s', r.picks ++ picked r.state s' op⟩, f', by rw [labelStep, call]; rfl, between', ?_⟩
  rw [← label]
  constructor
  · intro agree
    exact ⟨fun p member => agree.picks p (List.mem_append_left _ member),
      fun p member => agree.picks p (List.mem_append_right _ member)⟩
  · rintro ⟨before, now⟩
    refine ⟨fun p member => ?_, between'.queues⟩
    rcases List.mem_append.mp member with old | new
    · exact before p old
    · exact now p new

structure LabelInv (r : LabelRun) : Prop where
  between : ∃ f, Between r.state f
  agree : LabelsAgree r

private theorem LabelInv.step {r r' : LabelRun} {op : SchedOp} (inv : LabelInv r)
    (ok : callAllowed r.state op = true) (live : picksLive r.state op = true)
    (step : labelStep r op = some r') : LabelInv r' := by
  obtain ⟨⟨f, between⟩, agree⟩ := inv
  obtain ⟨r1, f', done, between', label⟩ := labelStep_spec between ok
  obtain rfl := Option.some.inj (done.symm.trans step)
  exact ⟨⟨f', between'⟩, label.mpr ⟨agree.picks, live⟩⟩

/-- From zeroed memory on, while `schedule` finds the run queue empty whenever the current thread
has exited, the labels agree with the scheduler; the first time it does not, the thread it picks
is not marked as running. Every call returns. -/
theorem label_run_agrees (s : SchedState) (booted : Booted s) (t : LabelRun)
    (run : Run labelStep (fun r op => callAllowed r.state op = true ∧ picksLive r.state op = true)
      ⟨s, []⟩ t) :
    LabelsAgree t ∧ ∀ op, callAllowed t.state op = true → ∃ t', labelStep t op = some t' ∧
      (LabelsAgree t' ↔ picksLive t.state op = true) := by
  have start : LabelInv ⟨s, []⟩ :=
    ⟨⟨_, between_of_booted booted⟩, by simp, (between_of_booted booted).queues⟩
  have inv : LabelInv t := run.invariant start fun _ _ _ inv ok step => inv.step ok.1 ok.2 step
  obtain ⟨⟨f, between⟩, agree⟩ := inv
  refine ⟨agree, fun op ok => ?_⟩
  obtain ⟨t', -, step, -, label⟩ := labelStep_spec between ok
  exact ⟨t', step, label.trans (and_iff_right agree.picks)⟩

private theorem zeroed_booted : Booted zeroed :=
  ⟨fun _ => rfl, fun _ => rfl, fun _ => rfl, fun _ => rfl⟩

/-- Thread 12 is created and runs, then thread 13, then the idle thread again. -/
theorem label_run_agrees_two_threads :
    ∃ t, exec labelStep (fun r op => callAllowed r.state op && picksLive r.state op) ⟨zeroed, []⟩
        [.init 0 (some 10), .run 0 (-1) 12, .schedule 0, .run 0 0 13, .schedule 0, .schedule 0] =
          some t ∧
      t.picks = [(12, .running), (13, .running), (10, .running)] ∧ LabelsAgree t := by
  have result : (exec labelStep (fun r op => callAllowed r.state op && picksLive r.state op)
      ⟨zeroed, []⟩ [.init 0 (some 10), .run 0 (-1) 12, .schedule 0, .run 0 0 13, .schedule 0,
        .schedule 0]).map LabelRun.picks =
      some [(12, .running), (13, .running), (10, .running)] := by
    decide +kernel
  obtain ⟨t, eq, picks⟩ := Option.map_eq_some_iff.mp result
  have run : Run labelStep
      (fun r op => callAllowed r.state op = true ∧ picksLive r.state op = true) ⟨zeroed, []⟩ t :=
    (Run.of_exec eq).mono fun _ _ ok => by simpa using ok
  exact ⟨t, eq, picks, (label_run_agrees zeroed zeroed_booted t run).1⟩

/-- Thread 12 is created, runs and exits; the idle thread that runs then is marked as runnable. -/
theorem label_run_exit_unmarked :
    ¬ ∀ s, Booted s → ∀ t, Run labelStep (fun r op => callAllowed r.state op = true) ⟨s, []⟩ t →
      LabelsAgree t := by
  intro claim
  have result : (exec labelStep (fun r op => callAllowed r.state op) ⟨zeroed, []⟩
      [.init 0 (some 10), .run 0 (-1) 12, .schedule 0, .exit 0]).map LabelRun.picks =
        some [(12, .running), (10, .runnable)] := by decide +kernel
  obtain ⟨t, eq, picks⟩ := Option.map_eq_some_iff.mp result
  have running := (claim zeroed zeroed_booted t (Run.of_exec eq)).picks (10, .runnable)
    (by simp [picks])
  cases running

end OhMyOs.Schedule.ThreadLabels
