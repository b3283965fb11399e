/- GID: OhMyOs/Schedule/ThreadCreation
   generality: I
   digest: thread_run of schedule/schedule.c with every allocation that can fail: which failures
   leave the lists and the heap as they were. -/

import OhMyOs.Fs.CurrentDirectory
import OhMyOs.Include.Constants
import OhMyOs.Libs.GrowableStringFrees
import OhMyOs.Schedule.Scheduler

set_option autoImplicit false
set_option relaxedAutoImplicit false

namespace OhMyOs.Schedule.ThreadCreation

open OhMyOs.Include.Constants
open OhMyOs.Lib.Ring OhMyOs.Lib.Outcome OhMyOs.Include.IntrusiveList
open OhMyOs.Libs.GrowableString OhMyOs.Fs.Directories OhMyOs.Schedule.Scheduler

/-! ### The code -/

def trapframeSize : Nat := 68

def kernelCs : BitVec 16 := 1 <<< 3
def kernelDs : BitVec 16 := 2 <<< 3
def flIf : BitVec 32 := 0x200

structure TrapFrame where
  regEbp : BitVec 32
  regEsp : BitVec 32
  regEbx : BitVec 32
  regEdx : BitVec 32
  regEax : BitVec 32
  es : BitVec 16
  ds : BitVec 16
  eip : BitVec 32
  cs : BitVec 16
  eflags : BitVec 32
  ss : BitVec 16

/-- The fields of `struct thread` that are not in `Scheduler.Thread` and that `thread_run` sets;
`dir` is the `threadDir` of the file system. -/
structure Fields where
  kstack : Nat
  tf : Nat
  contextEip : BitVec 32
  contextEsp : BitVec 32
  contextEbp : BitVec 32
  fState : Option Nat

/-- The scheduler, the directories, the heap with the strings in it, the other fields of threads,
and the trap frames in memory. -/
structure Kernel where
  sched : SchedState
  fs : FsState
  mem : Mem
  fields : Nat → Fields
  frames : Nat → TrapFrame

structure Entries where
  threadEntry : BitVec 32
  runEntry : BitVec 32

/-- What kmalloc returns for the thread, its stack, the string with its buffer, a larger buffer,
the directory and the file. -/
structure Answers where
  thread : Option Nat
  kstack : Option Nat
  string : Option Nat
  buffer : Option Nat
  larger : Option Nat
  dir : Option Nat
  file : Option Nat

namespace Kernel

def kmalloc (k : Kernel) (ptr : Nat) : Kernel :=
  { k with mem := Libs.GrowableString.kmalloc k.mem ptr }

def kfree (k : Kernel) (ptr : Nat) : Kernel := { k with mem := Libs.GrowableString.kfree k.mem ptr }

/-- The pointer of a CPU to its thread, which is followed. -/
def current (k : Kernel) (cpu : Nat) : Except Fault Nat :=
  match k.sched.currentThreads cpu with
  | none => .error .nullPointer
  | some t => .ok t

end Kernel

/-- A `u32` passed as an `int`. -/
def toInt (n : Nat) : Int := (n : Int).bmod (2 ^ 32)

def ksfree (m : Mem) (s : Option (Nat × KString)) : Mem :=
  match s with
  | none => m
  | some (ptr, s) => Libs.GrowableString.kfree (s.str.elim m (Libs.GrowableString.kfree m)) ptr

def nameOf (m : Mem) (s : KString) : Name :=
  s.str.elim [] fun p =>
    (((List.range s.length).map fun i => m.bytes (p + i)).takeWhile (· ≠ 0)).map fun c =>
      Char.ofNat c.toNat

/-- `create_file("state", &thread_state_fops, t->dir, t, &t->f_state);` -/
def createStateFile (k : Kernel) (t dir : Nat) (file : Option Nat) : Kernel :=
  match file with
  | none => k
  | some f =>
    { k.kmalloc f with
      fs := createFile k.fs dir f
      fields := Function.update k.fields t { k.fields t with fState := some f } }

/-- `rest` is what the stack holds behind the number that `ksappend_int` formats. The result of
`create_file` is not looked at. -/
def createThreadProcfs (k : Kernel) (t : Nat) (rest : List Byte) (a : Answers) :
    Except Fault (Kernel × Int) := do
  let (mem, s) ← ksalloc k.mem a.string a.buffer
  match s with
  | none => return ({ k with mem := mem }, -enomem)
  | some s =>
    let (mem, s, _) ← ksappendInt mem s (toInt (k.sched.threads t).tid) rest a.larger
    match a.dir with
    | none => return ({ k with mem := ksfree mem (a.string.map (·, s)) }, -enomem)
    | some d =>
      let fs := createDirectory k.fs (nameOf mem s) (some k.fs.proc) d
      let k := { k with
        mem := Libs.GrowableString.kmalloc mem d
        fs := { fs with threadDir := Function.update fs.threadDir t (some d) } }
      return (createStateFile k t d a.file, 0)

/-- `t->kstack`, the trap frame on top of it, and `t->context`. The flags keep the bits that were in
memory. -/
def setFrames (k : Kernel) (e : Entries) (t kstack : Nat) (fn arg : BitVec 32) : Kernel :=
  let tf := kstack + kernelStackSize - trapframeSize
  { k with
    fields := Function.update k.fields t
      { k.fields t with
        kstack := kstack
        tf := tf
        contextEsp := BitVec.ofNat 32 tf
        contextEip := e.runEntry
        contextEbp := BitVec.ofNat 32 kstack }
    frames := Function.update k.frames tf
      { cs := kernelCs
        ds := kernelDs
        es := kernelDs
        ss := kernelDs
        regEbp := BitVec.ofNat 32 kstack
        regEbx := fn
        regEdx := arg
        regEsp := 0
        regEax := 0
        eip := e.threadEntry
        eflags := (k.frames tf).eflags ||| flIf } }

/-- `thread_run` from `t->proc = current->proc` on, which follows `current`;
`current_threads[cpu]->proc` is followed in the locked section, which is `Scheduler.threadRun`. -/
def startThread (k : Kernel) (self : Nat) (cpu : Int) (t : Nat) (rest : List Byte) (a : Answers) :
    Except Fault (Kernel × Option Nat) := do
  let _ ← k.current self
  let _ ← k.current (targetCpu self cpu)
  let k := { k with sched := Scheduler.threadRun k.sched self cpu t }
  let (k, ret) ← createThreadProcfs k t rest a
  if ret ≠ 0 then
    let k := (k.kfree (k.fields t).kstack).kfree t
    return ({ k with sched.home := Function.update k.sched.home t none }, none)
  return (k, some t)

/-- `thread_run` called on CPU `self`, with what fills in the frame and the context. -/
def threadRunWith (frames : Kernel → Nat → Nat → Kernel) (k : Kernel) (self : Nat) (cpu : Int)
    (rest : List Byte) (a : Answers) : Except Fault (Kernel × Option Nat) :=
  match a.thread with
  | none => .ok (k, none)
  | some t =>
    let k := k.kmalloc t
    match a.kstack with
    | none => .ok (k.kfree t, none)
    | some kstack => startThread (frames (k.kmalloc kstack) t kstack) self cpu t rest a

def threadRun (k : Kernel) (e : Entries) (self : Nat) (fn arg : BitVec 32) (cpu : Int)
    (rest : List Byte) (a : Answers) : Except Fault (Kernel × Option Nat) :=
  threadRunWith (fun k t kstack => setFrames k e t kstack fn arg) k self cpu rest a

/-! ### What the calls leave behind -/

section
variable {k : Kernel} {t : Nat} {rest : List Byte} {a : Answers}

inductive Procfs (k : Kernel) (t : Nat) (a : Answers) : Kernel × Int → Prop
  | failed {k' : Kernel} (cause : a.string = none ∨ a.buffer = none ∨ a.dir = none)
      (sched : k'.sched = k.sched) (fields : k'.fields = k.fields) (fs : k'.fs = k.fs)
      (heap : k'.mem.heap = k.mem.heap) : Procfs k t a (k', -enomem)
  | done {k' : Kernel} (string : a.string ≠ none) (buffer : a.buffer ≠ none) (dir : a.dir ≠ none)
      (sched : k'.sched = k.sched)
      (fs : ∃ name, k'.fs =
        Fs.CurrentDirectory.createThreadProcfs k.fs t name true a.dir a.file) :
      Procfs k t a (k', 0)

private theorem createStateFile_sched (d : Nat) (file : Option Nat) :
    (createStateFile k t d file).sched = k.sched := by
  cases file with
  | none => rfl
  | some f => rfl

theorem toInt_le (n : Nat) : toInt n ≤ 0x7fffffff := by
  have bound := Int.bmod_lt (x := n) (m := 2 ^ 32) (by decide)
  unfold toInt
  omega

private theorem ksappendInt_ksalloc (m : Mem) (str : Nat) (val : Int) (int : val ≤ 0x7fffffff)
    (rest : List Byte) (larger : Option Nat) :
    Ensures (ksappendInt m ⟨some str, 0, stringMinSize⟩ val rest larger) fun (m', s, _) =>
      SameHeap m m' ∧ s.str = some str := by
  have short := toStr_length val int
  exact ksappendStrn_fits rfl _ _ (by simp only [stringMinSize]; omega)
    (by simp [stringMinSize]) larger

private theorem ksfree_heap {m : Mem} {s : KString} {ptr str : Nat} {heap : List Nat}
    (buffer : s.str = some str) (live : m.heap = str :: ptr :: heap) :
    (ksfree m (some (ptr, s))).heap = heap := by
  simp [ksfree, buffer, Libs.GrowableString.kfree, live]

/-- What `ksalloc` returns: NULL, or an empty string in two new blocks. -/
inductive Ksalloc (m : Mem) (string buffer : Option Nat) : Mem × Option KString → Prop
  | failed {m' : Mem} (cause : string = none ∨ buffer = none) (heap : m'.heap = m.heap) :
      Ksalloc m string buffer (m', none)
  | done {m' : Mem} {ptr str : Nat} (struct : string = some ptr) (bytes : buffer = some str)
      (heap : m'.heap = str :: ptr :: m.heap) :
      Ksalloc m string buffer (m', some ⟨some str, 0, stringMinSize⟩)

private theorem ksalloc_returns (m : Mem) (string buffer : Option Nat) :
    Ensures (ksalloc m string buffer) (Ksalloc m string buffer) := by
  match string, buffer with
  | none, _ => exact .ok (.failed (.inl rfl) rfl)
  | some ptr, none => exact .ok (.failed (.inr rfl) (List.erase_cons_head ptr m.heap))
  | some ptr, some str => exact .ok (.done rfl rfl rfl)

theorem createThreadProcfs_returns (k : Kernel) (t : Nat) (rest : List Byte) (a : Answers) :
    Ensures (createThreadProcfs k t rest a) (Procfs k t a) := by
  refine (ksalloc_returns k.mem a.string a.buffer).bind fun result alloc => ?_
  cases alloc with
  | failed cause heap => exact .ok (.failed (cause.imp_right .inl) rfl rfl rfl heap)
  | @done m ptr str string buffer heap =>
    refine (ksappendInt_ksalloc m str _ (toInt_le (k.sched.threads t).tid) rest a.larger).bind ?_
    rintro ⟨m', s, ret⟩ ⟨same, kept⟩
    cases dir : a.dir with
    | none =>
      refine .ok (.failed (.inr (.inr dir)) rfl rfl rfl ?_)
      rw [string]
      exact ksfree_heap kept (same.heap.trans heap)
    | some d =>
      refine .ok (.done (by simp [string]) (by simp [buffer]) (by simp [dir]) ?_ ?_)
      · rw [createStateFile_sched]
      · refine ⟨nameOf m' s, ?_⟩
        rw [dir]
        cases a.file with
        | none => rfl
        | some f => rfl

end

section
variable {k : Kernel} {self : Nat} {cpu : Int}

private theorem current_ok {cpu : Nat} (init : k.sched.currentThreads cpu ≠ none) :
    ∃ t, k.current cpu = .ok t := by
  obtain ⟨t, is⟩ := Option.ne_none_iff_exists'.mp init
  exact ⟨t, by rw [Kernel.current, is]⟩

theorem startThread_returns {t : Nat} (rest : List Byte) (a : Answers)
    (here : k.sched.currentThreads self ≠ none)
    (there : k.sched.currentThreads (targetCpu self cpu) ≠ none) :
    Ensures (startThread k self cpu t rest a) fun result =>
      ∃ k' ret, Procfs { k with sched := Scheduler.threadRun k.sched self cpu t } t a (k', ret) ∧
        result = if ret ≠ 0 then
          ({ (k'.kfree (k'.fields t).kstack).kfree t with
            sched.home := Function.update k'.sched.home t none }, none)
        else (k', some t) := by
  obtain ⟨_, currentHere⟩ := current_ok here
  obtain ⟨_, currentThere⟩ := current_ok there
  simp only [startThread, currentHere, currentThere, ok_bind]
  refine (createThreadProcfs_returns _ t rest a).bind ?_
  rintro ⟨k', ret⟩ procfs
  refine ⟨_, ?_, k', ret, procfs, rfl⟩
  split_ifs with failed
  · rfl
  · rfl

/-- The run queues, the thread group, the directories and the live heap blocks are the same. -/
structure AsBefore (k k' : Kernel) : Prop where
  rqs : k'.sched.rqs = k.sched.rqs
  threadGroup : k'.sched.threadGroup = k.sched.threadGroup
  fs : k'.fs = k.fs
  heap : ∀ ptr, ptr ∈ k'.mem.heap ↔ ptr ∈ k.mem.heap

end

def booted : Kernel where
  sched := scheduleInit
    { threads := fun _ => ⟨0, .inactive⟩
      rqs := ⟨id, id⟩
      threadGroup := ⟨id, id⟩
      currentThreads := fun _ => none
      gThreadId := 0
      pc := fun _ => .outside
      home := fun _ => none
      idle := fun _ => none } 0 (some 1)
  fs := fsInit Fs.CurrentDirectory.blank 11 12 13 14
  mem := ⟨fun _ => 0, [1, 11, 12, 13, 14], [], []⟩
  fields := fun _ => ⟨0, 0, 0, 0, 0, none⟩
  frames := fun _ => ⟨0, 0, 0, 0, 0, 0, 0, 0, 0, 0, 0⟩

end OhMyOs.Schedule.ThreadCreation
