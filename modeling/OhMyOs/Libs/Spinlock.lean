/- GID: OhMyOs/Libs/Spinlock
   generality: I
   digest: The spinlocks of libs/lock.c under every interleaving of their memory accesses. -/

import Mathlib.Logic.Function.Basic
import OhMyOs.Lib.Runs

set_option autoImplicit false
set_option relaxedAutoImplicit false

namespace OhMyOs.Libs.Spinlock

open OhMyOs.Lib.Runs

variable {Cpu Lock : Type} [DecidableEq Cpu] [DecidableEq Lock]

/-! ### The memory accesses -/

def atomicRead (counter : Lock → Int) (lock : Lock) : Int := counter lock

def atomicSet (counter : Lock → Int) (lock : Lock) (i : Int) : Lock → Int :=
  Function.update counter lock i

def cmpxchg (counter : Lock → Int) (lock : Lock) (old new : Int) : Int × (Lock → Int) :=
  (counter lock, if counter lock = old then Function.update counter lock new else counter)

def spinlockInit (counter : Lock → Int) (lock : Lock) : Lock → Int := atomicSet counter lock 0

def spinUnlock (counter : Lock → Int) (lock : Lock) : Lock → Int := atomicSet counter lock 0

/-! ### Calls in progress -/

inductive Pc
  | reading | swapping
  deriving DecidableEq

/-- A `spin_lock` call that has not returned, with its local `count`. -/
structure Call (Lock : Type) where
  lock : Lock
  pc : Pc
  count : BitVec 32

/-- The counters, the calls in progress on each CPU with the innermost first, and every lock that
was taken and not released, with the CPU that took it. -/
structure SpinState (Cpu Lock : Type) where
  counter : Lock → Int
  calls : Cpu → List (Call Lock)
  held : List (Cpu × Lock)

def SpinState.setCalls (s : SpinState Cpu Lock) (cpu : Cpu) (calls : List (Call Lock)) :
    SpinState Cpu Lock :=
  { s with calls := Function.update s.calls cpu calls }

def spinLockStep (s : SpinState Cpu Lock) (cpu : Cpu) : Option (SpinState Cpu Lock) :=
  match s.calls cpu with
  | [] => none
  | call :: rest =>
    match call.pc with
    | .reading =>
      if atomicRead s.counter call.lock ≠ 0 then
        some (s.setCalls cpu ({ call with count := call.count + 1 } :: rest))
      else some (s.setCalls cpu ({ call with pc := .swapping } :: rest))
    | .swapping =>
      let (ret, counter) := cmpxchg s.counter call.lock 0 1
      if ret ≠ 0 then some ({ s with counter }.setCalls cpu ({ call with pc := .reading } :: rest))
      else some ({ s with counter, held := (cpu, call.lock) :: s.held }.setCalls cpu rest)

/-- A CPU enters `spin_lock`, goes on inside it, or calls `spin_unlock`. It may enter `spin_lock`
while another call is in progress: an interrupt does so, and so does the failed assert on `count`,
which prints. -/
inductive SpinOp (Cpu Lock : Type)
  | spinLock (cpu : Cpu) (lock : Lock)
  | step (cpu : Cpu)
  | spinUnlock (cpu : Cpu) (lock : Lock)

def spinOp (s : SpinState Cpu Lock) : SpinOp Cpu Lock → Option (SpinState Cpu Lock)
  | .spinLock cpu lock => some (s.setCalls cpu (⟨lock, .reading, 0⟩ :: s.calls cpu))
  | .step cpu => spinLockStep s cpu
  | .spinUnlock cpu lock =>
    some { s with counter := spinUnlock s.counter lock, held := s.held.erase (cpu, lock) }

/-- A CPU unlocks only a lock it holds. -/
def allowed (s : SpinState Cpu Lock) : SpinOp Cpu Lock → Bool
  | .spinUnlock cpu lock => (cpu, lock) ∈ s.held
  | _ => true

structure Initialised (s : SpinState Cpu Lock) : Prop where
  counter : ∀ lock, s.counter = spinlockInit s.counter lock
  calls : ∀ cpu, s.calls cpu = []
  held : s.held = []

/-! ### Mutual exclusion -/

def holders (s : SpinState Cpu Lock) (lock : Lock) : Nat :=
  s.held.countP fun entry => entry.2 = lock

/-- The counter is the number of holders, and there is at most one. -/
def Counted (s : SpinState Cpu Lock) : Prop :=
  ∀ lock, s.counter lock = holders s lock ∧ holders s lock ≤ 1

omit [DecidableEq Cpu] in
private theorem Initialised.counted {s : SpinState Cpu Lock} (init : Initialised s) :
    Counted s := by
  intro lock
  have none : holders s lock = 0 := by simp [holders, init.held]
  refine ⟨?_, by omega⟩
  rw [init.counter lock, none]
  simp [spinlockInit, atomicSet]

omit [DecidableEq Cpu] in
private theorem Counted.take {s : SpinState Cpu Lock} (counted : Counted s) (cpu : Cpu)
    {lock : Lock}
    (free : s.counter lock = 0) :
    Counted { s with
      counter := Function.update s.counter lock 1
      held := (cpu, lock) :: s.held } := by
  intro other
  have old := counted other
  unfold holders at old ⊢
  by_cases same : other = lock
  · subst same
    simp only [Function.update_self, List.countP_cons, decide_true, if_true]
    omega
  · have apart : lock ≠ other := fun eq => same eq.symm
    simpa only [Function.update_of_ne same, List.countP_cons, apart, decide_false,
      Bool.false_eq_true, if_false, Nat.add_zero] using old

private theorem Counted.release {s : SpinState Cpu Lock} (counted : Counted s) {cpu : Cpu}
    {lock : Lock}
    (holds : (cpu, lock) ∈ s.held) :
    Counted { s with
      counter := spinUnlock s.counter lock
      held := s.held.erase (cpu, lock) } := by
  intro other
  have old := counted other
  unfold holders at old ⊢
  have moved := List.perm_cons_erase holds
  have split := moved.countP_eq fun entry : Cpu × Lock => decide (entry.2 = other)
  rw [List.countP_cons] at split
  by_cases same : other = lock
  · subst same
    simp only [decide_true, if_true] at split
    simp only [spinUnlock, atomicSet, Function.update_self]
    omega
  · have apart : lock ≠ other := fun eq => same eq.symm
    simp only [apart, decide_false, Bool.false_eq_true, if_false, Nat.add_zero] at split
    simpa only [spinUnlock, atomicSet, Function.update_of_ne same, ← split] using old

private theorem spinLockStep_cases {s t : SpinState Cpu Lock} {cpu : Cpu}
    (step : spinLockStep s cpu = some t) :
    (t.counter = s.counter ∧ t.held = s.held) ∨
      ∃ lock, s.counter lock = 0 ∧ t.counter = Function.update s.counter lock 1 ∧
        t.held = (cpu, lock) :: s.held := by
  unfold spinLockStep at step
  cases calls : s.calls cpu with
  | nil => simp [calls] at step
  | cons call rest =>
    simp only [calls] at step
    cases pc : call.pc with
    | reading =>
      simp only [pc] at step
      split_ifs at step with busy
      all_goals
        obtain rfl := Option.some.inj step
        exact .inl ⟨rfl, rfl⟩
    | swapping =>
      simp only [pc, cmpxchg] at step
      by_cases free : s.counter call.lock = 0
      · simp only [free, ne_eq, not_true_eq_false, if_false, if_true] at step
        obtain rfl := Option.some.inj step
        exact .inr ⟨call.lock, free, rfl, rfl⟩
      · simp only [free, ne_eq, not_false_eq_true, if_false, if_true] at step
        obtain rfl := Option.some.inj step
        exact .inl ⟨rfl, rfl⟩

private theorem spinOp_counted {s t : SpinState Cpu Lock} {op : SpinOp Cpu Lock}
    (counted : Counted s)
    (ok : allowed s op = true) (step : spinOp s op = some t) : Counted t := by
  cases op with
  | spinLock cpu lock =>
    obtain rfl := Option.some.inj step
    exact counted
  | step cpu =>
    rcases spinLockStep_cases step with ⟨counter, held⟩ | ⟨lock, free, counter, held⟩
    · intro lock
      have same := counted lock
      unfold holders at same ⊢
      rwa [counter, held]
    · intro other
      have taken := counted.take cpu free other
      unfold holders at taken ⊢
      rwa [counter, held]
  | spinUnlock cpu lock =>
    obtain rfl := Option.some.inj step
    exact counted.release (of_decide_eq_true ok)

/-- At most one CPU is between its `spin_lock` and its `spin_unlock`, and the counter says whether
there is one. -/
structure Exclusive (s : SpinState Cpu Lock) : Prop where
  once : ∀ lock, holders s lock ≤ 1
  one : ∀ lock a b, (a, lock) ∈ s.held → (b, lock) ∈ s.held → a = b
  counter : ∀ lock, s.counter lock = 1 ↔ ∃ cpu, (cpu, lock) ∈ s.held

private theorem Counted.exclusive {s : SpinState Cpu Lock} (counted : Counted s) : Exclusive s := by
  refine ⟨fun lock => (counted lock).2, ?_, ?_⟩
  · intro lock a b first second
    by_contra differ
    have rest : (b, lock) ∈ s.held.erase (a, lock) := by
      apply (List.mem_erase_of_ne _).mpr second
      intro eq
      exact differ (congrArg Prod.fst eq).symm
    have two := (List.perm_cons_erase first).countP_eq fun entry => decide (entry.2 = lock)
    have more : 0 < (s.held.erase (a, lock)).countP fun entry => decide (entry.2 = lock) :=
      List.countP_pos_iff.mpr ⟨_, rest, by simp⟩
    have bound := (counted lock).2
    unfold holders at bound
    simp only [List.countP_cons, decide_true, if_true] at two
    omega
  · intro lock
    have facts := counted lock
    have some_iff : 0 < holders s lock ↔ ∃ cpu, (cpu, lock) ∈ s.held := by
      unfold holders
      rw [List.countP_pos_iff]
      constructor
      · rintro ⟨⟨cpu, other⟩, mem, eq⟩
        obtain rfl := of_decide_eq_true eq
        exact ⟨cpu, mem⟩
      · rintro ⟨cpu, mem⟩
        exact ⟨_, mem, by simp⟩
    rw [← some_iff]
    omega

/-- Every interleaving, on any number of CPUs and locks, keeps mutual exclusion. -/
theorem spin_run_exclusive {s t : SpinState Cpu Lock} (init : Initialised s)
    (run : Run spinOp (fun s op => allowed s op = true) s t) : Exclusive t := by
  have counted : Counted t :=
    run.invariant init.counted fun _ _ _ counted ok step => spinOp_counted counted ok step
  exact counted.exclusive

/-- Two CPUs read 0, and the second swap fails after the first. -/
theorem spin_run_exclusive_contended :
    ∃ t : SpinState Nat Unit, Exclusive t ∧ t.held = [(0, ())] ∧
      (t.calls 1).map Call.pc = [Pc.reading] := by
  let s : SpinState Nat Unit := ⟨fun _ => 0, fun _ => [], []⟩
  have init : Initialised s :=
    ⟨fun lock => (Function.update_eq_self lock s.counter).symm, fun _ => rfl, rfl⟩
  have done : (exec spinOp allowed s
      [.spinLock 0 (), .spinLock 1 (), .step 0, .step 1, .step 0, .step 1]).map
        (fun t => (t.held, (t.calls 1).map Call.pc)) = some ([(0, ())], [Pc.reading]) := by
    decide +kernel
  obtain ⟨t, run, eq⟩ := Option.map_eq_some_iff.mp done
  exact ⟨t, spin_run_exclusive init (.of_exec run), congrArg Prod.fst eq, congrArg Prod.snd eq⟩

end OhMyOs.Libs.Spinlock
