/- GID: OhMyOs/Schedule/VirtualCpus
   generality: I
   digest: One CPU as many: under any interleaving of interrupts and context switches every thread
   has the registers that it would have alone, but for those that a switch does not save. -/

import OhMyOs.Kernel.TrapFrames
import OhMyOs.Lib.Runs

set_option autoImplicit false
set_option relaxedAutoImplicit false

namespace OhMyOs.Schedule.VirtualCpus

open OhMyOs.Include.Constants
open OhMyOs.Kernel.TrapFrames OhMyOs.Lib.Blocks OhMyOs.Lib.Runs OhMyOs.Lib.Words
open OhMyOs.Libs.GrowableString OhMyOs.Schedule.ThreadStart OhMyOs.Schedule.ThreadCreation

/-! ### The machine -/

structure Machine where
  mem : Memory
  regs : Regs
  current : Nat

def contextOf (t : Nat) : Nat := t + 24

/-- What happens on the CPU: code runs; an interrupt comes; the handler of the last interrupt
returns; the thread switches to another; a thread was made; the thread switches to another for the
last time, from a context on its own stack. -/
inductive CpuOp
  | code (mem : Memory) (regs : Regs)
  | interrupt (v : Nat) (err back irqHandler : BitVec 32)
  | interruptReturn
  | switchTo (t : Nat) (back : BitVec 32)
  | spawn (t kstack : Nat) (mem : Memory)
  | exitTo (context t : Nat) (back : BitVec 32)

def machineStep (s : Machine) : CpuOp → Machine
  | .code mem regs => { s with mem := mem, regs := regs }
  | .interrupt v err back irqHandler =>
    let (mem, regs) := interrupt s.mem s.regs v err back irqHandler
    { s with mem := mem, regs := regs }
  | .interruptReturn => { s with regs := interruptReturn s.mem s.regs }
  | .switchTo t back =>
    let (mem, regs) := callSwitch s.mem s.regs (contextOf s.current) (contextOf t) back
    { mem := mem, regs := regs, current := t }
  | .spawn _ _ mem => { s with mem := mem }
  | .exitTo context t back =>
    let (mem, regs) := callSwitch s.mem s.regs context (contextOf t) back
    { mem := mem, regs := regs, current := t }

/-! ### A CPU for each thread -/

/-- A thread with registers of its own. For each interrupt that it is in, the innermost first,
there are the registers that were interrupted and the address of the trap frame. -/
structure Virtual where
  kstack : Nat
  regs : Regs
  frames : List (Nat × Regs)

structure Threads where
  threads : Nat → Option Virtual
  current : Nat

def Threads.set (a : Threads) (t : Nat) (v : Option Virtual) : Threads :=
  { a with threads := Function.update a.threads t v }

/-- Thread `t` goes on, with the flags and the segments of the CPU and what `context_switch` leaves
in eax. -/
def Threads.goOn (a : Threads) (t : Nat) (cpu : Regs) : Threads where
  threads := Function.update a.threads t
    ((a.threads t).map fun u => { u with regs := resume u.regs cpu (contextOf t) })
  current := t

/-- The same where each thread has a CPU. An interrupt is a detour that ends where it began, and
a switch stops one thread and lets another go on. -/
def virtualStep (a : Threads) (v : Virtual) : CpuOp → Threads
  | .code _ regs => a.set a.current (some { v with regs := regs })
  | .interrupt _ _ _ irqHandler =>
    a.set a.current (some { v with
      regs := handlerRegs v.regs irqHandler
      frames := (v.regs.esp - 60, v.regs) :: v.frames })
  | .interruptReturn =>
    match v.frames with
    | [] => a
    | (_, regs) :: frames => a.set a.current (some { v with regs := regs, frames := frames })
  | .switchTo t back =>
    (a.set a.current (some { v with regs := park v.regs back })).goOn t v.regs
  | .spawn t kstack mem =>
    let regs := { restore mem v.regs (contextOf t) with eip := load 4 mem (contextOf t) }
    a.set t (some ⟨kstack, regs, []⟩)
  | .exitTo _ t _ => (a.set a.current none).goOn t v.regs

def bothStep (s : Machine × Threads) (op : CpuOp) : Option (Machine × Threads) :=
  (s.2.threads s.2.current).map fun v => (machineStep s.1 op, virtualStep s.2 v op)

/-! ### What the threads must not do -/

def Virtual.top (v : Virtual) : Nat := v.kstack + kernelStackSize

def Virtual.floor (v : Virtual) : Nat :=
  match v.frames with
  | [] => v.top
  | (tf, _) :: _ => tf - 8

def Keeps (a : Threads) (m m' : Memory) : Prop :=
  ∀ t v, a.threads t = some v →
    (∀ p, v.floor ≤ p → p < v.top → m' p = m p) ∧
      (t ≠ a.current → ∀ p, contextOf t ≤ p → p < contextOf t + 32 → m' p = m p)

structure Fits (t kstack : Nat) : Prop where
  thread : t + threadSize ≤ 2 ^ 32
  stack : kstack + kernelStackSize < 2 ^ 32
  apart : Apart (t, threadSize) (kstack, kernelStackSize)

structure Strangers (t kstack u kstack' : Nat) : Prop where
  threads : Apart (t, threadSize) (u, threadSize)
  left : Apart (t, threadSize) (kstack', kernelStackSize)
  right : Apart (u, threadSize) (kstack, kernelStackSize)
  both : Apart (kstack, kernelStackSize) (kstack', kernelStackSize)

/-- Code leaves alone what is not its own and does not overrun its stack; the vectors are those
whose stubs fit the CPU; a handler returns where its frame is; a thread that is switched to is
there; kmalloc gives a new thread memory of its own; and the last context of a thread is on its
stack. -/
def Behaved (s : Machine × Threads) (op : CpuOp) : Prop :=
  ∃ v, s.2.threads s.2.current = some v ∧
    match op with
    | .code mem regs => Keeps s.2 s.1.mem mem ∧ v.kstack + 4 ≤ regs.esp ∧ regs.esp ≤ v.floor
    | .interrupt n _ _ _ => Aligned n ∧ v.kstack + 72 ≤ v.regs.esp
    | .interruptReturn => v.frames ≠ [] ∧ v.regs.esp = v.floor
    | .switchTo t _ => t ≠ s.2.current ∧ s.2.threads t ≠ none ∧ v.kstack + 12 ≤ v.regs.esp
    | .spawn t kstack mem =>
      Keeps s.2 s.1.mem mem ∧ s.2.threads t = none ∧ Fits t kstack ∧
        (∀ u w, s.2.threads u = some w → Strangers t kstack u w.kstack) ∧
        kstack + 4 ≤ (load 4 mem (contextOf t + 4)).toNat ∧
        (load 4 mem (contextOf t + 4)).toNat ≤ kstack + kernelStackSize
    | .exitTo context t _ =>
      t ≠ s.2.current ∧ s.2.threads t ≠ none ∧ v.kstack + 12 ≤ v.regs.esp ∧
        v.regs.esp ≤ context ∧ context + 32 ≤ v.floor

/-! ### Frames on a stack -/

/-- The trap frames lie between `low` and `top`, each with the argument of its `irq_handler` below
it. -/
def Framed (m : Memory) (top : Nat) : Nat → List (Nat × Regs) → Prop
  | low, [] => low ≤ top
  | low, (tf, regs) :: frames =>
    low + 8 ≤ tf ∧ Saved m tf regs ∧ load 4 m (tf - 4) = BitVec.ofNat 32 tf ∧
      Framed m top (tf + 60) frames

section Framed
variable {m m' : Memory} {top low low' : Nat} {frames : List (Nat × Regs)} {v : Virtual}

private theorem Framed.le (framed : Framed m top low frames) : low ≤ top := by
  induction frames generalizing low with
  | nil => exact framed
  | cons frame frames ih =>
    obtain ⟨above, -, -, rest⟩ := framed
    have := ih rest
    omega

private theorem Framed.same (framed : Framed m top low frames)
    (same : ∀ p, low ≤ p → p < top → m' p = m p) : Framed m' top low frames := by
  induction frames generalizing low with
  | nil => exact framed
  | cons frame frames ih =>
    obtain ⟨above, saved, argument, rest⟩ := framed
    have room := rest.le
    refine ⟨above, saved.same fun a l h => same a (by omega) (by omega), ?_,
      ih rest fun p l h => same p (by omega) h⟩
    rw [load_congr fun a l h => same a (by omega) (by omega)]
    exact argument

private theorem Framed.move (framed : Framed m v.top low v.frames)
    (same : ∀ p, v.floor ≤ p → p < v.top → m' p = m p) (below : low' ≤ v.floor) :
    Framed m' v.top low' v.frames := by
  unfold Virtual.floor at same below
  cases frames : v.frames with
  | nil =>
    rw [frames] at below
    exact below
  | cons frame rest =>
    rw [frames] at framed same below
    obtain ⟨above, saved, argument, outer⟩ := framed
    have room := outer.le
    simp only at same below
    refine ⟨by omega, saved.same fun a l h => same a (by omega) (by omega), ?_,
      outer.same fun p l h => same p (by omega) h⟩
    rw [load_congr fun a l h => same a (by omega) (by omega)]
    exact argument

private theorem Framed.le_floor (framed : Framed m v.top low v.frames) :
    low ≤ v.floor ∧ v.floor ≤ v.top := by
  unfold Virtual.floor
  cases frames : v.frames with
  | nil =>
    rw [frames] at framed
    exact ⟨framed, Nat.le_refl _⟩
  | cons frame rest =>
    rw [frames] at framed
    obtain ⟨above, -, -, outer⟩ := framed
    have room := outer.le
    simp only
    omega

end Framed

/-! ### The machine follows -/

structure Layout (a : Threads) : Prop where
  fits : ∀ t v, a.threads t = some v → Fits t v.kstack
  strangers : ∀ t u v w, t ≠ u → a.threads t = some v → a.threads u = some w →
    Strangers t v.kstack u w.kstack

/-- The registers of the current thread are in the CPU, those of the others in their contexts, and
those that were interrupted in trap frames. -/
structure Sim (s : Machine) (a : Threads) : Prop where
  layout : Layout a
  current : s.current = a.current
  runs : ∃ v, a.threads a.current = some v ∧ v.regs = s.regs
  room : ∀ t v, a.threads t = some v → v.kstack + 4 ≤ v.regs.esp
  framed : ∀ t v, a.threads t = some v → Framed s.mem v.top v.regs.esp v.frames
  parked : ∀ t v, a.threads t = some v → t ≠ a.current → Parked s.mem (contextOf t) v.regs

section Sim
variable {s : Machine} {a a' : Threads} {v v' w : Virtual} {t u : Nat} {m' : Memory} {r : Regs}

private theorem Strangers.symm {kstack kstack' : Nat} (strangers : Strangers t kstack u kstack') :
    Strangers u kstack' t kstack :=
  ⟨strangers.threads.symm, strangers.right, strangers.left, strangers.both.symm⟩

private theorem Layout.mono (layout : Layout a)
    (sub : ∀ t v', a'.threads t = some v' → ∃ v, a.threads t = some v ∧ v'.kstack = v.kstack) :
    Layout a' := by
  refine ⟨fun t v' is => ?_, fun t u v' w' differ is is' => ?_⟩
  · obtain ⟨v, was, same⟩ := sub t v' is
    exact same ▸ layout.fits t v was
  · obtain ⟨v, was, same⟩ := sub t v' is
    obtain ⟨w, was', same'⟩ := sub u w' is'
    rw [same, same']
    exact layout.strangers t u v w differ was was'

private theorem Sim.floor (sim : Sim s a) (is : a.threads t = some v) :
    v.kstack + 4 ≤ v.regs.esp ∧ v.regs.esp ≤ v.floor ∧ v.floor ≤ v.top ∧
      v.top = v.kstack + 8192 ∧ v.top < 2 ^ 32 := by
  obtain ⟨below, inside⟩ := (sim.framed t v is).le_floor
  exact ⟨sim.room t v is, below, inside, rfl, (sim.layout.fits t v is).stack⟩

/-- Memory that may be overwritten: stacks below the innermost frame, and the context of the
current thread. -/
def Loose (a : Threads) (p : Nat) : Prop :=
  ∃ t v, a.threads t = some v ∧
    (v.kstack ≤ p ∧ p < v.floor ∨ t = a.current ∧ contextOf t ≤ p ∧ p < contextOf t + 32)

private theorem Sim.keeps (sim : Sim s a) (same : ∀ p, ¬Loose a p → m' p = s.mem p) :
    Keeps a s.mem m' := by
  have sizes : kernelStackSize = 8192 ∧ threadSize = 84 := ⟨rfl, rfl⟩
  intro u w is
  obtain ⟨room, below, inside, top, -⟩ := sim.floor is
  have own := (sim.layout.fits u w is).apart
  refine ⟨fun p low high => same p ?_, fun waits p low high => same p ?_⟩
  · rintro ⟨t, v, there, stack | context⟩
    · by_cases mine : t = u
      · subst mine
        obtain rfl := Option.some.inj (there.symm.trans is)
        omega
      · obtain ⟨-, -, inside', top', -⟩ := sim.floor there
        have apart := (sim.layout.strangers t u v w mine there is).both
        simp only [Apart] at apart
        omega
    · obtain ⟨-, first, last⟩ := context
      by_cases mine : t = u
      · subst mine
        simp only [Apart, contextOf] at own first last
        omega
      · have apart := (sim.layout.strangers t u v w mine there is).left
        simp only [Apart, contextOf] at apart first last
        omega
  · simp only [contextOf] at low high
    rintro ⟨t, v, there, stack | ⟨rfl, first, last⟩⟩
    · obtain ⟨-, -, inside', top', -⟩ := sim.floor there
      by_cases mine : t = u
      · subst mine
        obtain rfl := Option.some.inj (there.symm.trans is)
        simp only [Apart] at own
        omega
      · have apart := (sim.layout.strangers t u v w mine there is).right
        simp only [Apart] at apart
        omega
    · have apart := (sim.layout.strangers _ u v w (Ne.symm waits) there is).threads
      simp only [Apart, contextOf] at apart first last
      omega

private theorem Sim.of_threads {s' : Machine} (layout : Layout a')
    (current : s'.current = a'.current)
    (runs : ∃ v, a'.threads a'.current = some v ∧ v.regs = s'.regs)
    (each : ∀ t v, a'.threads t = some v → v.kstack + 4 ≤ v.regs.esp ∧
      Framed s'.mem v.top v.regs.esp v.frames ∧
      (t ≠ a'.current → Parked s'.mem (contextOf t) v.regs)) : Sim s' a' :=
  ⟨layout, current, runs, fun t v is => (each t v is).1, fun t v is => (each t v is).2.1,
    fun t v is => (each t v is).2.2⟩

private theorem Sim.kept (sim : Sim s a) (kept : Keeps a s.mem m') (is : a.threads t = some w) :
    w.kstack + 4 ≤ w.regs.esp ∧ Framed m' w.top w.regs.esp w.frames ∧
      (t ≠ a.current → Parked m' (contextOf t) w.regs) :=
  ⟨sim.room t w is, (sim.framed t w is).move (kept t w is).1 (sim.floor is).2.1,
    fun waits => (sim.parked t w is waits).same ((kept t w is).2 waits)⟩

private theorem Sim.regs_eq (sim : Sim s a) (here : a.threads a.current = some v) :
    v.regs = s.regs := by
  obtain ⟨_, same, regs⟩ := sim.runs
  obtain rfl := Option.some.inj (here.symm.trans same)
  exact regs

private theorem Sim.goOn (sim : Sim s a) (here : a.threads a.current = some v)
    (kept : Keeps a s.mem m') (v' : Virtual) (kstack : v'.kstack = v.kstack)
    (room : v.kstack + 4 ≤ v'.regs.esp) (framed : Framed m' v'.top v'.regs.esp v'.frames) :
    Sim { s with mem := m', regs := v'.regs } (a.set a.current (some v')) := by
  have split : ∀ {t w}, (a.set a.current (some v')).threads t = some w →
      t = a.current ∧ w = v' ∨ t ≠ a.current ∧ a.threads t = some w := by
    intro t w is
    by_cases mine : t = a.current
    · subst mine
      simp only [Threads.set, Function.update_self] at is
      exact .inl ⟨rfl, (Option.some.inj is).symm⟩
    · simp only [Threads.set, Function.update_of_ne mine] at is
      exact .inr ⟨mine, is⟩
  refine .of_threads (sim.layout.mono fun t w is => ?_) sim.current ⟨v', ?_, rfl⟩ fun t w is => ?_
  · rcases split is with ⟨rfl, rfl⟩ | ⟨-, is⟩
    · exact ⟨v, here, kstack⟩
    · exact ⟨w, is, rfl⟩
  · simp only [Threads.set, Function.update_self]
  · rcases split is with ⟨rfl, rfl⟩ | ⟨-, is⟩
    · exact ⟨kstack ▸ room, framed, fun waits => absurd rfl waits⟩
    · exact sim.kept kept is

private theorem Sim.code (sim : Sim s a) (here : a.threads a.current = some v)
    (kept : Keeps a s.mem m') (room : v.kstack + 4 ≤ r.esp) (below : r.esp ≤ v.floor) :
    Sim { s with mem := m', regs := r } (a.set a.current (some { v with regs := r })) :=
  sim.goOn here kept { v with regs := r } rfl room
    ((sim.framed a.current v here).move (kept a.current v here).1 below)

private theorem Sim.interrupt {n : Nat} {err back irqHandler : BitVec 32} (sim : Sim s a)
    (here : a.threads a.current = some v) (aligned : Aligned n)
    (room : v.kstack + 72 ≤ v.regs.esp) :
    Sim (machineStep s (.interrupt n err back irqHandler))
      (virtualStep a v (.interrupt n err back irqHandler)) := by
  obtain ⟨low, below, inside, top, space⟩ := sim.floor here
  have regs := sim.regs_eq here
  obtain ⟨p, esp⟩ := Nat.exists_eq_add_of_le' (show 68 ≤ v.regs.esp by omega)
  obtain ⟨m', eq, entered⟩ := interrupt_entered s.mem err back irqHandler aligned esp (by omega)
  have kept : Keeps a s.mem m' := by
    refine sim.keeps fun q tight => entered.frame q ?_
    by_contra inside
    exact tight ⟨a.current, v, here, .inl ⟨by omega, by omega⟩⟩
  have frame : v.regs.esp - 60 = p + 8 := by omega
  have start : (handlerRegs v.regs irqHandler).esp = p := by
    simp only [handlerRegs, esp, Nat.add_sub_cancel]
  simp only [machineStep, virtualStep, ← regs, eq, frame]
  refine sim.goOn here kept
    ⟨v.kstack, handlerRegs v.regs irqHandler, (p + 8, v.regs) :: v.frames⟩ rfl
    (by simp only [start]; omega) ?_
  refine ⟨by simp only [start, Nat.le_refl], entered.saved, entered.argument, ?_⟩
  exact (sim.framed a.current v here).move (kept a.current v here).1 (by omega)

private theorem Sim.interruptReturn (sim : Sim s a) (here : a.threads a.current = some v)
    (inside : v.frames ≠ []) (esp : v.regs.esp = v.floor) :
    Sim (machineStep s .interruptReturn) (virtualStep a v .interruptReturn) := by
  obtain ⟨low, below, bound, top, space⟩ := sim.floor here
  have regs := sim.regs_eq here
  have framed := sim.framed a.current v here
  obtain ⟨⟨tf, saved⟩, frames, is⟩ := List.exists_cons_of_ne_nil inside
  rw [is] at framed
  obtain ⟨above, words, argument, outer⟩ := framed
  have most := outer.le
  have start : v.regs.esp = tf - 8 := by
    rw [esp, Virtual.floor, is]
  have back : Kernel.TrapFrames.interruptReturn s.mem s.regs = saved :=
    words.interruptReturn (by omega) (by omega) argument (regs ▸ start)
  simp only [machineStep, virtualStep, is, back]
  refine sim.goOn here (fun _ _ _ => ⟨fun _ _ _ => rfl, fun _ _ _ _ => rfl⟩)
    ⟨v.kstack, saved, frames⟩ rfl ?_ ?_
  · have := words.esp
    simp only
    omega
  · rw [words.esp]
    exact outer

/-! ### Switches -/

private theorem Sim.callable {context : Nat} (sim : Sim s a) (here : a.threads a.current = some v)
    (there : a.threads t = some w) (differ : t ≠ a.current) (room : v.kstack + 12 ≤ v.regs.esp)
    (saves : contextOf a.current = context ∨ v.regs.esp ≤ context ∧ context + 32 ≤ v.floor) :
    Callable v.regs (v.regs.esp - 12) context (contextOf t) := by
  have sizes : kernelStackSize = 8192 ∧ threadSize = 84 := ⟨rfl, rfl⟩
  obtain ⟨low, below, bound, top, space⟩ := sim.floor here
  have fits := sim.layout.fits a.current v here
  have fits' := sim.layout.fits t w there
  have strangers := sim.layout.strangers t a.current w v differ there here
  have own := fits.apart
  have left := strangers.left
  have threads := strangers.threads
  have block := fits.thread
  have block' := fits'.thread
  simp only [Apart, contextOf] at *
  refine ⟨by omega, by omega, by omega, by omega, by omega, by omega, by omega⟩

private theorem Sim.callSwitch {context : Nat} (sim : Sim s a) (here : a.threads a.current = some v)
    (there : a.threads t = some w) (differ : t ≠ a.current) (room : v.kstack + 12 ≤ v.regs.esp)
    (saves : contextOf a.current = context ∨ v.regs.esp ≤ context ∧ context + 32 ≤ v.floor)
    (back : BitVec 32) :
    ∃ m', callSwitch s.mem v.regs context (contextOf t) back =
        (m', resume w.regs v.regs (contextOf t)) ∧ Keeps a s.mem m' ∧
      (contextOf a.current = context → Parked m' context (park v.regs back)) := by
  have sizes : kernelStackSize = 8192 ∧ threadSize = 84 := ⟨rfl, rfl⟩
  obtain ⟨low, below, bound, top, space⟩ := sim.floor here
  obtain ⟨low', below', bound', top', space'⟩ := sim.floor there
  obtain ⟨p, esp⟩ := Nat.exists_eq_add_of_le' (show 4 ≤ w.regs.esp by omega)
  obtain ⟨m', eq, switched⟩ := callSwitch_switched s.mem back
    (sim.callable here there differ room saves) (sim.parked t w there differ) esp (by omega)
  refine ⟨m', eq, sim.keeps fun q tight => ?_, fun own => switched.parked ?_⟩
  · refine switched.frame q ?_ ?_ ?_
    · by_contra inside
      exact tight ⟨a.current, v, here, .inl ⟨by omega, by omega⟩⟩
    · by_contra inside
      refine tight ⟨a.current, v, here, ?_⟩
      rcases saves with same | between
      · exact .inr ⟨rfl, by omega, by omega⟩
      · exact .inl ⟨by omega, by omega⟩
    · by_contra inside
      exact tight ⟨t, w, there, .inl ⟨by omega, by omega⟩⟩
  · have right := (sim.layout.strangers t a.current w v differ there here).right
    simp only [Apart, contextOf] at right own
    omega

private theorem Sim.resumes (sim : Sim s a) (there : a.threads t = some w) (kept : Keeps a s.mem m')
    (differ : t ≠ a.current) (last : Option Virtual)
    (left : ∀ v', last = some v' → ∃ v, a.threads a.current = some v ∧ v'.kstack = v.kstack ∧
      v.kstack + 4 ≤ v'.regs.esp ∧ Framed m' v'.top v'.regs.esp v'.frames ∧
      Parked m' (contextOf a.current) v'.regs) (cpu : Regs) :
    Sim ⟨m', resume w.regs cpu (contextOf t), t⟩ ((a.set a.current last).goOn t cpu) := by
  have split : ∀ {u x}, ((a.set a.current last).goOn t cpu).threads u = some x →
      u = t ∧ x = { w with regs := resume w.regs cpu (contextOf t) } ∨
        u ≠ t ∧ (u = a.current ∧ last = some x ∨ u ≠ a.current ∧ a.threads u = some x) := by
    intro u x is
    by_cases mine : u = t
    · subst mine
      simp only [Threads.goOn, Threads.set, Function.update_self, Function.update_of_ne differ,
        there, Option.map_some, Option.some.injEq] at is
      exact .inl ⟨rfl, is.symm⟩
    · simp only [Threads.goOn, Threads.set, Function.update_of_ne mine] at is
      by_cases old : u = a.current
      · rw [old, Function.update_self] at is
        exact .inr ⟨mine, .inl ⟨old, is⟩⟩
      · rw [Function.update_of_ne old] at is
        exact .inr ⟨mine, .inr ⟨old, is⟩⟩
  refine .of_threads (sim.layout.mono fun u x is => ?_) rfl ⟨{ w with regs := _ }, ?_, rfl⟩
    fun u x is => ?_
  · rcases split is with ⟨rfl, rfl⟩ | ⟨-, ⟨rfl, was⟩ | ⟨-, was⟩⟩
    · exact ⟨w, there, rfl⟩
    · obtain ⟨v, here, kstack, -⟩ := left x was
      exact ⟨v, here, kstack⟩
    · exact ⟨x, was, rfl⟩
  · simp only [Threads.goOn, Threads.set, Function.update_self, Function.update_of_ne differ, there,
      Option.map_some]
  · rcases split is with ⟨rfl, rfl⟩ | ⟨-, ⟨rfl, was⟩ | ⟨old, was⟩⟩
    · obtain ⟨room, framed, -⟩ := sim.kept kept there
      exact ⟨room, framed, fun waits => absurd rfl waits⟩
    · obtain ⟨v, here, kstack, room, framed, parked⟩ := left x was
      exact ⟨kstack ▸ room, framed, fun _ => parked⟩
    · obtain ⟨room, framed, parked⟩ := sim.kept kept was
      exact ⟨room, framed, fun _ => parked old⟩

private theorem Sim.switchTo {back : BitVec 32} (sim : Sim s a)
    (here : a.threads a.current = some v)
    (differ : t ≠ a.current) (live : a.threads t ≠ none) (room : v.kstack + 12 ≤ v.regs.esp) :
    Sim (machineStep s (.switchTo t back)) (virtualStep a v (.switchTo t back)) := by
  obtain ⟨w, there⟩ := Option.ne_none_iff_exists'.mp live
  have regs := sim.regs_eq here
  obtain ⟨m', eq, kept, parked⟩ := sim.callSwitch here there differ room (.inl rfl) back
  obtain ⟨-, below, -⟩ := sim.floor here
  simp only [machineStep, virtualStep, ← regs, sim.current, eq]
  refine sim.resumes there kept differ _ ?_ v.regs
  rintro v' ⟨⟩
  refine ⟨v, here, rfl, ?_, ?_, parked rfl⟩
  · simp only [park]
    omega
  · refine (sim.framed a.current v here).move (kept a.current v here).1 ?_
    simp only [park]
    omega

private theorem Sim.exitTo {context : Nat} {back : BitVec 32} (sim : Sim s a)
    (here : a.threads a.current = some v) (differ : t ≠ a.current) (live : a.threads t ≠ none)
    (room : v.kstack + 12 ≤ v.regs.esp) (low : v.regs.esp ≤ context)
    (high : context + 32 ≤ v.floor) :
    Sim (machineStep s (.exitTo context t back)) (virtualStep a v (.exitTo context t back)) := by
  obtain ⟨w, there⟩ := Option.ne_none_iff_exists'.mp live
  have regs := sim.regs_eq here
  obtain ⟨m', eq, kept, -⟩ := sim.callSwitch here there differ room (.inr ⟨low, high⟩) back
  simp only [machineStep, virtualStep, ← regs, eq]
  exact sim.resumes there kept differ none (fun v' none => by cases none) v.regs

/-! ### New threads -/

private theorem restore_parked (m : Memory) (r : Regs) (ctx : Nat) :
    Parked m ctx { restore m r ctx with eip := load 4 m ctx } := by
  refine ⟨rfl, ?_, rfl, rfl, rfl, rfl, rfl, rfl⟩
  simp only [restore, BitVec.ofNat_toNat, BitVec.setWidth_eq]

private theorem Sim.spawn {kstack : Nat} (sim : Sim s a) (here : a.threads a.current = some v)
    (kept : Keeps a s.mem m') (new : a.threads t = none) (fits : Fits t kstack)
    (apart : ∀ u w, a.threads u = some w → Strangers t kstack u w.kstack)
    (low : kstack + 4 ≤ (load 4 m' (contextOf t + 4)).toNat)
    (high : (load 4 m' (contextOf t + 4)).toNat ≤ kstack + kernelStackSize) :
    Sim (machineStep s (.spawn t kstack m')) (virtualStep a v (.spawn t kstack m')) := by
  have other : a.current ≠ t := by
    rintro rfl
    rw [here] at new
    cases new
  have split : ∀ {u x}, (virtualStep a v (.spawn t kstack m')).threads u = some x →
      u = t ∧ x = ⟨kstack, { restore m' v.regs (contextOf t) with
        eip := load 4 m' (contextOf t) }, []⟩ ∨ u ≠ t ∧ a.threads u = some x := by
    intro u x is
    by_cases mine : u = t
    · subst mine
      simp only [virtualStep, Threads.set, Function.update_self, Option.some.injEq] at is
      exact .inl ⟨rfl, is.symm⟩
    · simp only [virtualStep, Threads.set, Function.update_of_ne mine] at is
      exact .inr ⟨mine, is⟩
  refine .of_threads ⟨fun u x is => ?_, fun u u' x x' differ is is' => ?_⟩ sim.current ?_
    fun u x is => ?_
  · rcases split is with ⟨rfl, rfl⟩ | ⟨-, is⟩
    · exact fits
    · exact sim.layout.fits u x is
  · rcases split is with ⟨rfl, rfl⟩ | ⟨-, was⟩
    · rcases split is' with ⟨rfl, rfl⟩ | ⟨-, is'⟩
      · exact absurd rfl differ
      · exact apart u' x' is'
    · rcases split is' with ⟨rfl, rfl⟩ | ⟨-, was'⟩
      · exact (apart u x was).symm
      · exact sim.layout.strangers u u' x x' differ was was'
  · obtain ⟨x, is, regs⟩ := sim.runs
    refine ⟨x, ?_, regs⟩
    simp only [virtualStep, Threads.set, Function.update_of_ne other]
    exact is
  · rcases split is with ⟨rfl, rfl⟩ | ⟨-, is⟩
    · exact ⟨low, high, fun _ => restore_parked m' v.regs (contextOf u)⟩
    · exact sim.kept kept is

/-! ### Whole runs -/

def InStep (both : Machine × Threads) : Prop := Sim both.1 both.2

private theorem bothStep_inStep {both both' : Machine × Threads} {op : CpuOp} (sim : InStep both)
    (behaved : Behaved both op) (stepped : bothStep both op = some both') : InStep both' := by
  obtain ⟨v, here, behaved⟩ := behaved
  simp only [bothStep, here, Option.map_some, Option.some.injEq] at stepped
  subst stepped
  cases op with
  | code mem regs => exact sim.code here behaved.1 behaved.2.1 behaved.2.2
  | interrupt n err back irqHandler => exact sim.interrupt here behaved.1 behaved.2
  | interruptReturn => exact sim.interruptReturn here behaved.1 behaved.2
  | switchTo t back => exact sim.switchTo here behaved.1 behaved.2.1 behaved.2.2
  | spawn t kstack mem =>
    obtain ⟨kept, new, fits, apart, low, high⟩ := behaved
    exact sim.spawn here kept new fits apart low high
  | exitTo context t back =>
    obtain ⟨differ, live, room, low, high⟩ := behaved
    exact sim.exitTo here differ live room low high

end Sim

def alone (s : Machine) (kstack : Nat) : Threads :=
  ⟨Function.update (fun _ => none) s.current (some ⟨kstack, s.regs, []⟩), s.current⟩

private theorem alone_sim (s : Machine) (kstack : Nat) (fits : Fits s.current kstack)
    (low : kstack + 4 ≤ s.regs.esp) (high : s.regs.esp ≤ kstack + kernelStackSize) :
    Sim s (alone s kstack) := by
  have only : ∀ {t v}, (alone s kstack).threads t = some v →
      t = s.current ∧ v = ⟨kstack, s.regs, []⟩ := by
    intro t v is
    by_cases mine : t = s.current
    · subst mine
      simp only [alone, Function.update_self, Option.some.injEq] at is
      exact ⟨rfl, is.symm⟩
    · simp only [alone, Function.update_of_ne mine] at is
      cases is
  refine .of_threads ⟨fun t v is => ?_, fun t u v w differ is is' => ?_⟩ rfl
    ⟨⟨kstack, s.regs, []⟩, ?_, rfl⟩ fun t v is => ?_
  · obtain ⟨rfl, rfl⟩ := only is
    exact fits
  · obtain ⟨rfl, -⟩ := only is
    obtain ⟨rfl, -⟩ := only is'
    exact absurd rfl differ
  · simp only [alone, Function.update_self]
  · obtain ⟨rfl, rfl⟩ := only is
    exact ⟨low, high, fun waits => absurd rfl waits⟩

/-- In every run the CPU has the registers of the current thread as they would be if each thread
had a CPU and lost eax, the flags and the segments at each switch: interrupts, however nested, and
switches to other threads, also inside handlers, leave no trace in the others. -/
theorem virtual_cpus_run (s t : Machine) (a : Threads) (kstack : Nat) (fits : Fits s.current kstack)
    (low : kstack + 4 ≤ s.regs.esp) (high : s.regs.esp ≤ kstack + kernelStackSize)
    (run : Run bothStep Behaved (s, alone s kstack) (t, a)) :
    t.current = a.current ∧ (∃ v, a.threads a.current = some v ∧ v.regs = t.regs) ∧
      (∀ u v, a.threads u = some v → Framed t.mem v.top v.regs.esp v.frames) ∧
      ∀ u v, a.threads u = some v → u ≠ a.current → Parked t.mem (contextOf u) v.regs := by
  have sim : InStep (t, a) := run.invariant (alone_sim s kstack fits low high)
    fun _ _ _ sim behaved stepped => bothStep_inStep sim behaved stepped
  exact ⟨sim.current, sim.runs, sim.framed, sim.parked⟩

def sampleMachine : Machine :=
  ⟨fun _ => 0, ⟨1, 2, 3, 4, 5, 6, 7, 16000, 8, 0x202, kernelCs, kernelDs, kernelDs⟩, 1000⟩

def sampleMemory : Memory :=
  store 4 sampleMachine.mem (contextOf 300000 + 4) (BitVec.ofNat 32 408000)

private theorem sampleMemory_esp : (load 4 sampleMemory (contextOf 300000 + 4)).toNat = 408000 := by
  rw [sampleMemory, load_store]
  rfl

private theorem sampleMemory_behaved : Behaved (sampleMachine, alone sampleMachine 8192)
    (.spawn 300000 400000 sampleMemory) := by
  have only : ∀ {t v}, (alone sampleMachine 8192).threads t = some v → t = 1000 ∧ v.kstack = 8192 ∧
      v.floor = v.top := by
    intro t v is
    by_cases mine : t = 1000
    · subst mine
      obtain rfl := Option.some.inj is
      exact ⟨rfl, rfl, rfl⟩
    · simp only [alone, sampleMachine, Function.update_of_ne mine] at is
      cases is
  refine ⟨⟨8192, sampleMachine.regs, []⟩, rfl, ?_, rfl, ⟨by decide, by decide, by decide⟩, ?_, ?_,
    ?_⟩
  · intro t v is
    obtain ⟨rfl, -, floor⟩ := only is
    refine ⟨fun p low high => ?_, fun waits => absurd rfl waits⟩
    omega
  · intro u w is
    obtain ⟨rfl, kstack, -⟩ := only is
    rw [kstack]
    exact ⟨by decide, by decide, by decide, by decide⟩
  · rw [sampleMemory_esp]
    decide
  · rw [sampleMemory_esp]
    decide

private theorem behaved_extends {start : Machine × Threads} {s : Machine} {a : Threads}
    {v : Virtual}
    (run : Run bothStep Behaved start (s, a)) (op : CpuOp) (here : a.threads a.current = some v)
    (behaved : Behaved (s, a) op) :
    Run bothStep Behaved start (machineStep s op, virtualStep a v op) := by
  refine run.tail ⟨op, behaved, ?_⟩
  simp only [bothStep, here, Option.map_some]

/-- The timer interrupts the thread, its handler switches to a new thread, which switches back,
and returns: the thread has its registers again. -/
theorem virtual_cpus_run_timer :
    ∃ t a, Run bothStep Behaved (sampleMachine, alone sampleMachine 8192) (t, a) ∧
      t.current = 1000 ∧ t.regs = sampleMachine.regs := by
  have spawned := behaved_extends .refl _ rfl sampleMemory_behaved
  have interrupted := behaved_extends spawned (.interrupt 32 0 0x1000 0x2000) rfl
    ⟨_, rfl, by decide, by decide⟩
  have away := behaved_extends interrupted (.switchTo 300000 0x3000) rfl
    ⟨_, rfl, by decide, Option.ne_none_iff_exists'.mpr ⟨_, rfl⟩, by decide⟩
  have esp : 400000 + 12 ≤ (load 4 sampleMemory (contextOf 300000 + 4)).toNat := by
    rw [sampleMemory_esp]
    decide
  have back := behaved_extends away (.switchTo 1000 0x4000) rfl
    ⟨_, rfl, by decide, Option.ne_none_iff_exists'.mpr ⟨_, rfl⟩, esp⟩
  have popped := behaved_extends back (.code _ { sampleMachine.regs with esp := 15932 }) rfl
    ⟨_, rfl, fun _ _ _ => ⟨fun _ _ _ => rfl, fun _ _ _ _ => rfl⟩, by decide, by decide⟩
  have returned := behaved_extends popped .interruptReturn rfl ⟨_, rfl, List.cons_ne_nil _ _, rfl⟩
  obtain ⟨current, ⟨v, is, regs⟩, -⟩ := virtual_cpus_run sampleMachine _ _ 8192
    ⟨by decide, by decide, by decide⟩ (by decide) (by decide) returned
  obtain rfl := Option.some.inj is
  exact ⟨_, _, returned, current, regs.symm⟩

end OhMyOs.Schedule.VirtualCpus
