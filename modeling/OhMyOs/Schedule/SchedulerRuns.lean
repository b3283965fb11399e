/- GID: OhMyOs/Schedule/SchedulerRuns
   generality: I
   digest: Interleaved runs of the scheduler on many CPUs lose and duplicate no thread. -/

import OhMyOs.Lib.Ownership
import OhMyOs.Lib.Runs
import OhMyOs.Schedule.Scheduler

set_option autoImplicit false
set_option relaxedAutoImplicit false

namespace OhMyOs.Schedule.Scheduler

open OhMyOs.Include.Constants
open OhMyOs.Lib.Ring OhMyOs.Lib.Runs OhMyOs.Lib.Ownership OhMyOs.Include.IntrusiveList

/-! ### Runs -/

/-- What the CPUs do: initialise, create a thread from CPU `self`, call `schedule`, call
`thread_exit`, or go on inside `schedule`. -/
inductive SchedOp
  | init (cpu : Nat) (idle : Option Nat)
  | run (self : Nat) (cpu : Int) (t : Nat)
  | schedule (cpu : Nat)
  | exit (cpu : Nat)
  | step (cpu : Nat)

def schedOp (s : SchedState) : SchedOp → Option SchedState
  | .init cpu idle => some (scheduleInit s cpu idle)
  | .run self cpu t => some (threadRun s self cpu t)
  | .schedule cpu => some (s.setPc cpu .entered)
  | .exit cpu => threadExit s cpu
  | .step cpu => scheduleStep s cpu

def ready (s : SchedState) (cpu : Nat) : Bool := (s.idle cpu).isSome && s.pc cpu = .outside

/-- A CPU is initialised once, threads go to initialised CPUs, kmalloc returns memory that is not
in use, a CPU does one call at a time, and the idle thread does not exit. -/
def allowed (s : SchedState) : SchedOp → Bool
  | .init cpu idle => cpu < maxCpu && s.idle cpu = none && idle.all fun t => s.home t = none
  | .run self cpu t => ready s self && (s.idle (targetCpu self cpu)).isSome && s.home t = none
  | .schedule cpu => ready s cpu
  | .exit cpu => ready s cpu && s.currentThreads cpu ≠ s.idle cpu
  | .step _ => true

structure Booted (s : SchedState) : Prop where
  outside : ∀ cpu, s.pc cpu = .outside
  current : ∀ cpu, s.currentThreads cpu = none
  home : ∀ t, s.home t = none
  idle : ∀ cpu, s.idle cpu = none

/-! ### What a CPU holds -/

def hand (pc : Pc) (current : Option Nat) : List Nat :=
  match pc with
  | .taken prev next | .switched prev next | .unlinked prev next => [prev, next]
  | _ => current.toList

def Pc.Locals (current : Nat) (queue : List Nat) : Pc → Prop
  | .outside | .entered => True
  | .nonempty prev => prev = current ∧ queue ≠ []
  | .chosen prev next => prev = current ∧ next ∈ queue
  | .taken prev _ => prev = current
  | .switched _ next | .unlinked _ next => next = current
  | .queued prev next => next = current ∧ prev ∈ queue

def Pc.leaving (current : Nat) : Pc → Option Nat
  | .outside | .queued _ _ => none
  | .entered => some current
  | .nonempty prev | .chosen prev _ | .taken prev _ | .switched prev _ | .unlinked prev _ =>
    some prev

structure CpuOk (threads : Nat → Thread) (pc : Pc) (current : Nat) (queue : List Nat) (idle : Nat) :
    Prop where
  locals : pc.Locals current queue
  idleHeld : idle ∈ hand pc (some current) ++ queue
  idleStays : (threads idle).state ≠ .exit
  leaving : ∀ t ∈ hand pc (some current) ++ queue, (threads t).state = .exit →
    pc.leaving current = some t
  exited : ∀ prev next, pc = .unlinked prev next → (threads prev).state = .exit

def held (s : SchedState) (f : Nat → List Nat) (cpu : Nat) : List Nat :=
  hand (s.pc cpu) (s.currentThreads cpu) ++ f cpu

structure Queues (s : SchedState) (f : Nat → List Nat) : Prop where
  rings : Rings s.rqs {cpu | s.idle cpu ≠ none} f
  custody : Custody s.home (held s f)
  cpus : ∀ cpu idle, s.idle cpu = some idle →
    ∃ current, s.currentThreads cpu = some current ∧
      CpuOk s.threads (s.pc cpu) current (f cpu) idle
  unused : ∀ cpu, s.idle cpu = none →
    s.pc cpu = .outside ∧ s.currentThreads cpu = none ∧ f cpu = []

variable {s s' : SchedState} {f : Nat → List Nat} {cpu idle current t prev next : Nat} {pc : Pc}
  {queue : List Nat} {threads threads' : Nat → Thread}

theorem Booted.queues (booted : Booted s) : Queues s fun _ => [] := by
  refine ⟨⟨?_, ?_, ?_⟩, ⟨?_, ?_⟩, ?_, ?_⟩
  · intro cpu init
    exact absurd (booted.idle cpu) init
  · intro cpu _
    exact List.nodup_nil
  · intro i _ j _ _ x member
    cases member
  · intro cpu
    simp [held, hand, booted.outside, booted.current]
  · intro cpu t
    simp [held, hand, booted.outside, booted.current, booted.home]
  · intro cpu idle init
    rw [booted.idle] at init
    cases init
  · intro cpu _
    exact ⟨booted.outside cpu, booted.current cpu, rfl⟩

private theorem CpuOk.frame (ok : CpuOk threads pc current queue idle)
    (same : ∀ t ∈ hand pc (some current) ++ queue, threads' t = threads t) :
    CpuOk threads' pc current queue idle := by
  refine ⟨ok.locals, ok.idleHeld, ?_, fun t member exited => ok.leaving t member ?_, ?_⟩
  · rw [same idle ok.idleHeld]
    exact ok.idleStays
  · rwa [← same t member]
  · rintro prev next rfl
    rw [same prev List.mem_cons_self]
    exact ok.exited prev next rfl

structure Local (s s' : SchedState) (cpu : Nat) (pc : Pc) (current : Nat) : Prop where
  pc : s'.pc = Function.update s.pc cpu pc
  current : s'.currentThreads = Function.update s.currentThreads cpu (some current)
  idle : s'.idle = s.idle
  threads : ∀ t other, other ≠ cpu → s.home t = some other → s'.threads t = s.threads t

private theorem Local.held_self (only : Local s s' cpu pc current) :
    held s' (Function.update f cpu queue) cpu = hand pc (some current) ++ queue := by
  simp only [held, only.pc, only.current, Function.update_self]

private theorem Local.held_other (only : Local s s' cpu pc current) {other : Nat}
    (differ : other ≠ cpu) :
    held s' (Function.update f cpu queue) other = held s f other := by
  simp only [held, only.pc, only.current, Function.update_of_ne differ]

private theorem Queues.step (queues : Queues s f) (init : s.idle cpu = some idle)
    (only : Local s s' cpu pc current)
    (rings : Rings s'.rqs {cpu | s.idle cpu ≠ none} (Function.update f cpu queue))
    (custody : Custody s'.home (held s' (Function.update f cpu queue)))
    (ok : CpuOk s'.threads pc current queue idle) : Queues s' (Function.update f cpu queue) := by
  refine ⟨only.idle ▸ rings, custody, ?_, ?_⟩
  · intro other idle' init'
    rw [only.idle] at init'
    by_cases same : other = cpu
    · subst same
      obtain rfl := Option.some.inj (init.symm.trans init')
      refine ⟨current, ?_, ?_⟩
      · rw [only.current, Function.update_self]
      · rw [only.pc, Function.update_self, Function.update_self]
        exact ok
    · obtain ⟨current', here, ok'⟩ := queues.cpus other idle' init'
      rw [only.current, only.pc, Function.update_of_ne same, Function.update_of_ne same,
        Function.update_of_ne same]
      refine ⟨current', here, ok'.frame fun t member => ?_⟩
      refine only.threads t other same ((queues.custody.mem_iff other t).mp ?_)
      rwa [held, here]
  · intro other init'
    rw [only.idle] at init'
    have same : other ≠ cpu := by
      rintro rfl
      rw [init] at init'
      cases init'
    rw [only.current, only.pc, Function.update_of_ne same, Function.update_of_ne same,
      Function.update_of_ne same]
    exact queues.unused other init'

private theorem Queues.move (queues : Queues s f) (init : s.idle cpu = some idle)
    (only : Local s s' cpu pc current) (home : s'.home = s.home)
    (rings : Rings s'.rqs {cpu | s.idle cpu ≠ none} (Function.update f cpu queue))
    (moved : (hand pc (some current) ++ queue).Perm (held s f cpu))
    (ok : CpuOk s'.threads pc current queue idle) : Queues s' (Function.update f cpu queue) := by
  refine queues.step init only rings (home ▸ queues.custody.perm fun other => ?_) ok
  by_cases same : other = cpu
  · subst same
    rw [only.held_self]
    exact moved
  · rw [only.held_other same]

private theorem Queues.stay (queues : Queues s f) (init : s.idle cpu = some idle)
    (only : Local s s' cpu pc current) (home : s'.home = s.home) (rqs : s'.rqs = s.rqs)
    (moved : (hand pc (some current)).Perm (hand (s.pc cpu) (s.currentThreads cpu)))
    (ok : CpuOk s'.threads pc current (f cpu) idle) : Queues s' f := by
  have after :=
    queues.move init only home (by rw [rqs, Function.update_eq_self]; exact queues.rings)
    (moved.append_right (f cpu)) ok
  rwa [Function.update_eq_self] at after

/-! ### The steps of `schedule` -/

structure At (s : SchedState) (f : Nat → List Nat) (cpu idle : Nat) (pc : Pc) (current : Nat) :
    Prop where
  queues : Queues s f
  init : s.idle cpu = some idle
  place : s.pc cpu = pc
  runs : s.currentThreads cpu = some current
  ok : CpuOk s.threads pc current (f cpu) idle

theorem Queues.at (queues : Queues s f) (init : s.idle cpu = some idle) :
    ∃ current, At s f cpu idle (s.pc cpu) current := by
  obtain ⟨current, here, ok⟩ := queues.cpus cpu idle init
  exact ⟨current, queues, init, rfl, here, ok⟩

namespace At

variable {pc' : Pc}

private theorem held_eq (here : At s f cpu idle pc current) :
    held s f cpu = hand pc (some current) ++ f cpu := by
  rw [held, here.place, here.runs]

theorem nodup (here : At s f cpu idle pc current) : (hand pc (some current) ++ f cpu).Nodup :=
  here.held_eq ▸ here.queues.custody.nodup cpu

theorem home (here : At s f cpu idle pc current) (member : t ∈ hand pc (some current) ++ f cpu) :
    s.home t = some cpu :=
  (here.queues.custody.mem_iff cpu t).mp (here.held_eq ▸ member)

theorem index_mem (here : At s f cpu idle pc current) : cpu ∈ {cpu | s.idle cpu ≠ none} := by
  rw [Set.mem_ofPred_eq, here.init]
  exact Option.some_ne_none idle

private theorem set_local (here : At s f cpu idle pc current) :
    Local s (s.setPc cpu pc') cpu pc' current :=
  ⟨rfl, by rw [← here.runs, Function.update_eq_self]; rfl, rfl, fun _ _ _ _ => rfl⟩

private theorem goto (here : At s f cpu idle pc current)
    (same : hand pc' (some current) = hand pc (some current)) (locals : pc'.Locals current (f cpu))
    (leaving : ∀ t ∈ hand pc (some current) ++ f cpu, (s.threads t).state = .exit →
      pc'.leaving current = some t)
    (exited : ∀ prev next, pc' = .unlinked prev next → (s.threads prev).state = .exit) :
    Queues (s.setPc cpu pc') f := by
  refine here.queues.stay here.init here.set_local rfl rfl ?_
    ⟨locals, ?_, here.ok.idleStays, ?_, exited⟩
  · rw [same, here.place, here.runs]
  · rw [same]
    exact here.ok.idleHeld
  · rw [same]
    exact leaving

private theorem queue_ne_nil (here : At s f cpu idle .entered current)
    (exited : (s.threads current).state = .exit) : f cpu ≠ [] := by
  intro empty
  have member := here.ok.idleHeld
  rw [empty] at member
  obtain rfl : idle = current := by simpa [hand] using member
  exact here.ok.idleStays exited

theorem entered (here : At s f cpu idle .entered current) (stepped : scheduleStep s cpu = some s') :
    Queues s' f := by
  simp only [scheduleStep, here.place, here.runs, Option.map_some, Option.some.injEq] at stepped
  have empty_iff := listEmpty_iff here.queues.rings here.index_mem
  split_ifs at stepped with empty
  · subst stepped
    refine here.goto rfl trivial (fun t member exited => ?_) (fun prev next eq => by cases eq)
    obtain rfl := Option.some.inj (here.ok.leaving t member exited)
    exact absurd (empty_iff.mp empty) (here.queue_ne_nil exited)
  · subst stepped
    refine here.goto rfl ⟨rfl, fun none => empty (empty_iff.mpr none)⟩ (fun t member exited => ?_)
      (fun prev next eq => by cases eq)
    exact here.ok.leaving t member exited

theorem nonempty (here : At s f cpu idle (.nonempty prev) current)
    (stepped : scheduleStep s cpu = some s') : Queues s' f := by
  obtain ⟨rfl, some⟩ := here.ok.locals
  obtain ⟨next, rest, split⟩ := List.exists_cons_of_ne_nil some
  have differ : prev ≠ next := by
    have nodup := here.nodup
    rw [split] at nodup
    rintro rfl
    exact (List.nodup_cons.mp nodup).1 List.mem_cons_self
  simp only [scheduleStep, here.place,
    listNext_cons here.queues.rings here.index_mem split, containerOf,
    Option.map_some, Option.some.injEq, if_neg differ] at stepped
  subst stepped
  refine here.goto rfl ⟨rfl, split ▸ List.mem_cons_self⟩ here.ok.leaving
    (fun prev next eq => by cases eq)

private theorem chosen (here : At s f cpu idle (.chosen prev next) current)
    (stepped : scheduleStep s cpu = some s') : ∃ f, Queues s' f := by
  obtain ⟨rfl, member⟩ := here.ok.locals
  simp only [scheduleStep, here.place, Option.some.injEq] at stepped
  subst stepped
  have moved : ([prev, next] ++ (f cpu).erase next).Perm ([prev] ++ f cpu) :=
    (List.perm_cons_erase member).symm.cons prev
  refine ⟨_, here.queues.move here.init
    ⟨rfl, by rw [← here.runs, Function.update_eq_self]; rfl, rfl, fun _ _ _ _ => rfl⟩ rfl
    (listRemove_rings here.queues.rings here.index_mem member) (here.held_eq ▸ moved) ?_⟩
  refine ⟨rfl, moved.mem_iff.mpr here.ok.idleHeld, here.ok.idleStays,
    ?_, fun prev next eq => by cases eq⟩
  intro t held
  exact here.ok.leaving t (moved.mem_iff.mp held)

theorem taken (here : At s f cpu idle (.taken prev next) current)
    (stepped : scheduleStep s cpu = some s') : Queues s' f := by
  simp only [scheduleStep, here.place, Option.some.injEq] at stepped
  subst stepped
  refine here.queues.stay here.init ⟨rfl, rfl, rfl, fun _ _ _ _ => rfl⟩ rfl rfl ?_
    ⟨rfl, here.ok.idleHeld, here.ok.idleStays, here.ok.leaving, fun prev next eq => by cases eq⟩
  rw [here.place]
  rfl

theorem switched (here : At s f cpu idle (.switched prev next) current)
    (stepped : scheduleStep s cpu = some s') : ∃ f, Queues s' f := by
  obtain rfl : next = current := here.ok.locals
  simp only [scheduleStep, here.place] at stepped
  split_ifs at stepped with stays
  · obtain rfl := Option.some.inj stepped
    have moved : ([next] ++ (f cpu ++ [prev])).Perm ([prev, next] ++ f cpu) :=
      List.perm_append_singleton prev (next :: f cpu)
    have fresh : ∀ other ∈ {cpu | s.idle cpu ≠ none}, prev ∉ f other := by
      intro other _ member
      have mine := here.home (t := prev) List.mem_cons_self
      by_cases same : other = cpu
      · subst same
        have nodup := here.nodup
        exact (List.nodup_cons.mp nodup).1 (List.mem_cons_of_mem next member)
      · exact here.queues.custody.elsewhere mine same (List.mem_append_right _ member)
    refine ⟨_, here.queues.move here.init
      ⟨rfl, by rw [← here.runs, Function.update_eq_self]; rfl, rfl, fun _ _ _ _ => rfl⟩ rfl
      (listInsertTail_rings here.queues.rings here.index_mem fresh) (here.held_eq ▸ moved) ?_⟩
    refine ⟨⟨rfl, by simp⟩, moved.mem_iff.mpr here.ok.idleHeld, here.ok.idleStays, ?_,
      fun prev next eq => by cases eq⟩
    intro t held exited
    obtain rfl := Option.some.inj (here.ok.leaving t (moved.mem_iff.mp held) exited)
    exact absurd exited stays
  · obtain rfl := Option.some.inj stepped
    refine ⟨f, here.queues.stay here.init
      ⟨rfl, by rw [← here.runs, Function.update_eq_self]; rfl, rfl, fun _ _ _ _ => rfl⟩
        rfl rfl ?_ ?_⟩
    · rw [here.place]
      rfl
    · refine ⟨rfl, here.ok.idleHeld, here.ok.idleStays, here.ok.leaving, ?_⟩
      rintro prev' next' ⟨⟩
      exact not_not.mp stays

theorem queued (here : At s f cpu idle (.queued prev next) current)
    (stepped : scheduleStep s cpu = some s') : Queues s' f := by
  obtain ⟨rfl, member⟩ := here.ok.locals
  simp only [scheduleStep, here.place, Option.some.injEq] at stepped
  subst stepped
  have states : ∀ t,
      ((((s.setState prev .runnable).setState next .running).threads t).state = .exit →
      (s.threads t).state = .exit) := by
    intro t exited
    by_cases isNext : t = next
    · subst isNext
      simp [SchedState.setState] at exited
    · by_cases isPrev : t = prev
      · subst isPrev
        simp [SchedState.setState, isNext] at exited
      · simpa [SchedState.setState, isNext, isPrev] using exited
  refine here.queues.stay here.init
    ⟨rfl, by rw [← here.runs, Function.update_eq_self]; rfl, rfl, ?_⟩ rfl rfl ?_ ?_
  · intro t other differ elsewhere
    have notNext : t ≠ next := by
      rintro rfl
      have mine := here.home (t := t) List.mem_cons_self
      exact differ (Option.some.inj (elsewhere.symm.trans mine))
    have notPrev : t ≠ prev := by
      rintro rfl
      have mine := here.home (t := t) (List.mem_append_right _ member)
      exact differ (Option.some.inj (elsewhere.symm.trans mine))
    simp [SchedState.setState, SchedState.setPc, notNext, notPrev]
  · rw [here.place, here.runs]
    rfl
  · refine ⟨trivial, here.ok.idleHeld, fun exited => here.ok.idleStays (states idle exited), ?_,
      fun prev next eq => by cases eq⟩
    intro t held exited
    have none := here.ok.leaving t held (states t exited)
    cases none

theorem unlinked (here : At s f cpu idle (.unlinked prev next) current)
    (stepped : scheduleStep s cpu = some s') : Queues s' f := by
  obtain rfl : next = current := here.ok.locals
  simp only [scheduleStep, here.place, Option.some.injEq] at stepped
  have nodup : (prev :: next :: f cpu).Nodup := here.nodup
  have gone := here.ok.exited prev next rfl
  have only : Local s s' cpu .outside next := by
    subst stepped
    exact ⟨rfl, by rw [← here.runs, Function.update_eq_self]; rfl, rfl, fun _ _ _ _ => rfl⟩
  have custody : Custody s'.home (held s' (Function.update f cpu (f cpu))) := by
    subst stepped
    refine here.queues.custody.drop (i := cpu) ?_ fun other differ => only.held_other differ
    rw [only.held_self, here.held_eq]
    rfl
  have threads : s'.threads = s.threads := by rw [← stepped]; rfl
  have after := here.queues.step here.init only
    (by rw [Function.update_eq_self, ← stepped]; exact here.queues.rings) custody (by
      rw [threads]
      refine ⟨trivial, ?_, here.ok.idleStays, ?_, fun prev next eq => by cases eq⟩
      · rcases List.mem_cons.mp here.ok.idleHeld with rfl | member
        · exact absurd gone here.ok.idleStays
        · exact member
      · intro t member exited
        obtain rfl := Option.some.inj (here.ok.leaving t (List.mem_cons_of_mem _ member) exited)
        exact absurd member (List.nodup_cons.mp nodup).1)
  rwa [Function.update_eq_self] at after

private theorem scheduleStep (here : At s f cpu idle pc current)
    (stepped : scheduleStep s cpu = some s') :
    ∃ f, Queues s' f := by
  cases pc with
  | outside =>
    simp only [Scheduler.scheduleStep, here.place] at stepped
    cases stepped
  | entered => exact ⟨f, here.entered stepped⟩
  | nonempty prev => exact ⟨f, here.nonempty stepped⟩
  | chosen prev next => exact here.chosen stepped
  | taken prev next => exact ⟨f, here.taken stepped⟩
  | switched prev next => exact here.switched stepped
  | queued prev next => exact ⟨f, here.queued stepped⟩
  | unlinked prev next => exact ⟨f, here.unlinked stepped⟩

theorem schedule (here : At s f cpu idle .outside current) : Queues (s.setPc cpu .entered) f := by
  refine here.goto rfl trivial (fun t member exited => ?_) (fun prev next eq => by cases eq)
  have none := here.ok.leaving t member exited
  cases none

theorem threadExit (here : At s f cpu idle .outside current) (other : current ≠ idle) :
    Queues ((s.setState current .exit).setPc cpu .entered) f := by
  have elsewhere : ∀ t, t ≠ current → (s.setState current .exit).threads t = s.threads t :=
    fun t differ => Function.update_of_ne differ ..
  refine here.queues.stay here.init
    ⟨rfl, by rw [← here.runs, Function.update_eq_self]; rfl, rfl, ?_⟩ rfl rfl ?_ ?_
  · intro t cpu' differ home
    refine elsewhere t ?_
    rintro rfl
    have mine := here.home (t := t) List.mem_cons_self
    exact differ (Option.some.inj (home.symm.trans mine))
  · rw [here.place, here.runs]
    rfl
  · refine ⟨trivial, here.ok.idleHeld, ?_, ?_, fun prev next eq => by cases eq⟩
    · have same := elsewhere idle other.symm
      exact same ▸ here.ok.idleStays
    · intro t member exited
      by_cases same : t = current
      · rw [same]
        rfl
      · have before : (s.threads t).state = .exit := elsewhere t same ▸ exited
        have none := here.ok.leaving t member before
        cases none

end At

/-! ### New threads and new CPUs -/

private theorem Queues.not_held (queues : Queues s f) (free : s.home t = none) (cpu : Nat) :
    t ∉ held s f cpu := by
  intro member
  rw [queues.custody.mem_iff, free] at member
  cases member

private theorem CpuOk.insert (ok : CpuOk threads pc current queue idle)
    (same : ∀ t' ∈ hand pc (some current) ++ queue, threads' t' = threads t')
    (state : (threads' t).state ≠ .exit) : CpuOk threads' pc current (t :: queue) idle := by
  have ok' := ok.frame same
  refine ⟨?_, ?_, ok'.idleStays, ?_, ok'.exited⟩
  · have locals := ok.locals
    cases pc with
    | outside | entered => trivial
    | nonempty prev => exact ⟨locals.1, List.cons_ne_nil t queue⟩
    | chosen prev next => exact ⟨locals.1, List.mem_cons_of_mem t locals.2⟩
    | taken prev next | switched prev next | unlinked prev next => exact locals
    | queued prev next => exact ⟨locals.1, List.mem_cons_of_mem t locals.2⟩
  · rw [List.perm_middle.mem_iff]
    exact List.mem_cons_of_mem t ok.idleHeld
  · intro t' member exited
    rcases List.mem_cons.mp (List.perm_middle.mem_iff.mp member) with rfl | old
    · exact absurd exited state
    · exact ok'.leaving t' old exited

theorem At.threadRun {self : Nat} {arg : Int} (here : At s f (targetCpu self arg) idle pc current)
    (free : s.home t = none) :
    Queues (threadRun s self arg t)
      (Function.update f (targetCpu self arg) (t :: f (targetCpu self arg))) := by
  have elsewhere : ∀ t', t' ≠ t → (Scheduler.threadRun s self arg t).threads t' = s.threads t' :=
    fun t' differ => Function.update_of_ne differ ..
  have held_ne : ∀ cpu, ∀ t' ∈ held s f cpu, t' ≠ t := by
    rintro cpu t' member rfl
    exact here.queues.not_held free cpu member
  have only : Local s (Scheduler.threadRun s self arg t) (targetCpu self arg) pc current := by
    refine ⟨?_, ?_, rfl, ?_⟩
    · rw [← here.place, Function.update_eq_self]
      rfl
    · rw [← here.runs, Function.update_eq_self]
      rfl
    · intro t' other _ home
      exact elsewhere t' (held_ne other t' ((here.queues.custody.mem_iff other t').mpr home))
  refine here.queues.step here.init only ?_ ?_ ?_
  · refine listInsert_rings here.queues.rings here.index_mem fun other _ member => ?_
    exact here.queues.not_held free other (List.mem_append_right _ member)
  · refine here.queues.custody.add free ?_ fun other differ => only.held_other differ
    rw [only.held_self, here.held_eq]
    exact List.perm_middle
  · refine here.ok.insert (fun t' member => ?_) ?_
    · exact elsewhere t' (held_ne (targetCpu self arg) t' (here.held_eq ▸ member))
    · simp [Scheduler.threadRun]

theorem newHead_rings (rings : Rings s.rqs {cpu | s.idle cpu ≠ none} f) (unused : s.idle cpu = none)
    (empty : f cpu = []) :
    Rings (listInit s.rqs (.head cpu)) (insert cpu {cpu | s.idle cpu ≠ none}) f := by
  have more := listInit_rings rings cpu (by simp [unused])
  rwa [← empty, Function.update_eq_self] at more

theorem initialised_insert (idles : Nat → Option Nat) (cpu idle : Nat) :
    {c | Function.update idles cpu (some idle) c ≠ none} = insert cpu {c | idles c ≠ none} := by
  ext c
  by_cases here : c = cpu
  · simp [here]
  · simp [here]

private theorem Queues.newHead (queues : Queues s f) (unused : s.idle cpu = none) :
    Rings (listInit s.rqs (.head cpu)) (insert cpu {cpu | s.idle cpu ≠ none}) f :=
  newHead_rings queues.rings unused (queues.unused cpu unused).2.2

theorem Queues.initFails (queues : Queues s f) (unused : s.idle cpu = none) :
    Queues (scheduleInit s cpu none) f := by
  have rings : Rings (listInit s.rqs (.head cpu)) {cpu | s.idle cpu ≠ none} f :=
    (queues.newHead unused).restrict (Set.subset_insert cpu _)
  unfold scheduleInit
  split_ifs
  · exact ⟨rings, queues.custody, queues.cpus, queues.unused⟩
  · exact ⟨rings, queues.custody, queues.cpus, queues.unused⟩

theorem scheduleInit_some (s : SchedState) (cpu idle : Nat) :
    ∃ group, scheduleInit s cpu (some idle) =
      { s with
        rqs := listInit s.rqs (.head cpu)
        threads := Function.update s.threads idle ⟨s.gThreadId, .running⟩
        gThreadId := (s.gThreadId + 1) % 2 ^ 32
        currentThreads := Function.update s.currentThreads cpu (some idle)
        threadGroup := group
        home := Function.update s.home idle (some cpu)
        idle := Function.update s.idle cpu (some idle) } := by
  unfold scheduleInit
  split_ifs
  · exact ⟨_, rfl⟩
  · exact ⟨_, rfl⟩

theorem Queues.initSucceeds (queues : Queues s f) (unused : s.idle cpu = none)
    (free : s.home idle = none) : Queues (scheduleInit s cpu (some idle)) f := by
  obtain ⟨group, eq⟩ := scheduleInit_some s cpu idle
  obtain ⟨outside, none, empty⟩ := queues.unused cpu unused
  rw [eq]
  refine ⟨?_, ?_, ?_, ?_⟩
  · rw [initialised_insert]
    exact queues.newHead unused
  · refine queues.custody.add free (i := cpu) ?_ fun other differ => ?_
    · simp [held, hand, outside, none, empty]
    · simp [held, differ]
  · intro c idle' init
    by_cases here : c = cpu
    · subst here
      obtain rfl : idle = idle' := by simpa using init
      refine ⟨idle, by simp, ?_⟩
      simp only [outside, empty]
      refine ⟨trivial, by simp [hand], by simp, ?_, fun prev next eq => by cases eq⟩
      intro t member exited
      obtain rfl : t = idle := by simpa [hand] using member
      simp at exited
    · simp only [Function.update_of_ne here] at init ⊢
      obtain ⟨current, runs, ok⟩ := queues.cpus c idle' init
      refine ⟨current, runs, ok.frame fun t member => Function.update_of_ne ?_ ..⟩
      rintro rfl
      refine queues.not_held free c ?_
      rwa [held, runs]
  · intro c init
    have here : c ≠ cpu := by
      rintro rfl
      simp at init
    simp only [Function.update_of_ne here] at init ⊢
    exact queues.unused c init

/-! ### Every run -/

theorem ready_iff :
    ready s cpu = true ↔ (∃ idle, s.idle cpu = some idle) ∧ s.pc cpu = .outside := by
  simp [ready, Option.isSome_iff_exists]

theorem schedOp_queues {op : SchedOp} (inv : ∃ f, Queues s f) (ok : allowed s op = true)
    (stepped : schedOp s op = some s') : ∃ f, Queues s' f := by
  obtain ⟨f, queues⟩ := inv
  cases op with
  | init cpu idle =>
    simp only [allowed, Bool.and_eq_true, decide_eq_true_eq] at ok
    obtain rfl := Option.some.inj stepped
    cases idle with
    | none => exact ⟨f, queues.initFails ok.1.2⟩
    | some idle => exact ⟨f, queues.initSucceeds ok.1.2 (by simpa using ok.2)⟩
  | run self arg t =>
    simp only [allowed, Bool.and_eq_true, decide_eq_true_eq] at ok
    obtain rfl := Option.some.inj stepped
    obtain ⟨idle, init⟩ := Option.isSome_iff_exists.mp ok.1.2
    obtain ⟨current, here⟩ := queues.at init
    exact ⟨_, here.threadRun ok.2⟩
  | schedule cpu =>
    obtain rfl := Option.some.inj stepped
    obtain ⟨⟨idle, init⟩, outside⟩ := ready_iff.mp ok
    obtain ⟨current, here⟩ := queues.at init
    rw [outside] at here
    exact ⟨f, here.schedule⟩
  | exit cpu =>
    simp only [allowed, Bool.and_eq_true, decide_eq_true_eq] at ok
    obtain ⟨⟨idle, init⟩, outside⟩ := ready_iff.mp ok.1
    obtain ⟨current, here⟩ := queues.at init
    rw [outside] at here
    simp only [schedOp, threadExit, here.runs, Option.map_some, Option.some.injEq] at stepped
    subst stepped
    refine ⟨f, here.threadExit ?_⟩
    rintro rfl
    exact ok.2 (here.runs.trans here.init.symm)
  | step cpu =>
    cases init : s.idle cpu with
    | none =>
      have outside := (queues.unused cpu init).1
      simp only [schedOp, scheduleStep, outside] at stepped
      cases stepped
    | some idle =>
      obtain ⟨current, here⟩ := queues.at init
      exact here.scheduleStep stepped

def Pc.left : Pc → Nat
  | .outside => 0
  | .queued _ _ | .unlinked _ _ => 1
  | .switched _ _ => 2
  | .taken _ _ => 3
  | .chosen _ _ => 4
  | .nonempty _ => 5
  | .entered => 6

def zeroed : SchedState :=
  { threads := fun _ => ⟨0, .inactive⟩
    rqs := ⟨id, id⟩
    threadGroup := ⟨id, id⟩
    currentThreads := fun _ => none
    gThreadId := 0
    pc := fun _ => .outside
    home := fun _ => none
    idle := fun _ => none }

/-- CPU 0 creates threads on CPU 1 while that is inside `schedule`; the thread it switches to
creates one on its own CPU and exits. -/
def sampleOps : List SchedOp :=
  [.init 0 (some 10), .init 1 (some 11), .run 0 1 12, .schedule 1, .step 1, .run 0 1 13, .step 1,
    .run 0 (-1) 14, .step 1, .step 1, .schedule 0, .step 0, .step 1, .step 1, .run 1 9 15, .exit 1,
    .step 0, .step 1, .step 1, .step 1, .step 1, .step 1, .step 1]

end OhMyOs.Schedule.Scheduler
