/- GID: OhMyOs/Schedule/ThreadStart
   generality: I
   digest: What a new thread starts with when its stack and its struct are recycled memory: the
   stores of thread_run, and the loads of context_switch, __trapret and iret. -/

import OhMyOs.Lib.Blocks
import OhMyOs.Lib.Words
import OhMyOs.Libs.GrowableStringContents
import OhMyOs.Schedule.ThreadCreation

set_option autoImplicit false
set_option relaxedAutoImplicit false

namespace OhMyOs.Schedule.ThreadStart

open OhMyOs.Include.Constants
open OhMyOs.Lib.Blocks OhMyOs.Lib.Outcome OhMyOs.Lib.Stores OhMyOs.Lib.Words
open OhMyOs.Libs.GrowableString OhMyOs.Schedule.Scheduler
open OhMyOs.Schedule.ThreadCreation hiding threadRun

/-! ### The stores of thread_run -/

def threadSize : Nat := 84

/-- `(struct trapframe *)(t->kstack + KERNEL_STACK_SIZE) - 1` -/
def frameOf (kstack : Nat) : Nat := kstack + kernelStackSize - trapframeSize

/-- What `thread_run` stores in `*t` and in `*t->tf` before `t->proc` is set. The block that
kmalloc returned is not cleared, and the flags are read from it. -/
def writeFrames (m : Memory) (e : Entries) (t kstack : Nat) (fn arg : BitVec 32) : Memory :=
  let tf := frameOf kstack
  let m := store 4 m (t + 16) (BitVec.ofNat 32 kstack)  -- t->kstack
  let m := store 4 m (t + 20) (BitVec.ofNat 32 tf)      -- t->tf
  let m := store 2 m (tf + 52) kernelCs                 -- t->tf->cs
  let m := store 2 m (tf + 36) kernelDs                 -- t->tf->ds
  let m := store 2 m (tf + 32) kernelDs                 -- t->tf->es
  let m := store 2 m (tf + 64) kernelDs                 -- t->tf->ss
  let m := store 4 m (tf + 8) (BitVec.ofNat 32 kstack)  -- t->tf->reg.ebp
  let m := store 4 m (tf + 16) fn                       -- t->tf->reg.ebx
  let m := store 4 m (tf + 20) arg                      -- t->tf->reg.edx
  let m := store 4 m (tf + 12) (0 : BitVec 32)          -- t->tf->reg.esp
  let m := store 4 m (tf + 28) (0 : BitVec 32)          -- t->tf->reg.eax
  let m := store 4 m (tf + 48) e.threadEntry            -- t->tf->eip
  let m := store 4 m (tf + 56) (load 4 m (tf + 56) ||| flIf)  -- t->tf->eflags
  let m := store 4 m (t + 28) (BitVec.ofNat 32 tf)      -- t->context.esp
  let m := store 4 m (t + 24) e.runEntry                -- t->context.eip
  store 4 m (t + 52) (BitVec.ofNat 32 kstack)           -- t->context.ebp

/-- `thread_run` with the frame and the context in the bytes of memory. -/
def threadRun (k : Kernel) (e : Entries) (self : Nat) (fn arg : BitVec 32) (cpu : Int)
    (rest : List Byte) (a : Answers) : Except Fault (Kernel × Option Nat) :=
  threadRunWith (fun k t kstack =>
    let k := setFrames k e t kstack fn arg
    { k with mem.bytes := writeFrames k.mem.bytes e t kstack fn arg }) k self cpu rest a

/-! ### The way to thread_entry -/

/-- The registers; `esp` is an address. -/
structure Regs where
  eax : BitVec 32
  ebx : BitVec 32
  ecx : BitVec 32
  edx : BitVec 32
  esi : BitVec 32
  edi : BitVec 32
  ebp : BitVec 32
  esp : Nat
  eip : BitVec 32
  eflags : BitVec 32
  cs : BitVec 16
  ds : BitVec 16
  es : BitVec 16

def pushl (m : Memory) (r : Regs) (w : BitVec 32) : Memory × Regs :=
  let esp := (r.esp + 2 ^ 32 - 4) % 2 ^ 32
  (store 4 m esp w, { r with esp := esp })

def addEsp (r : Regs) (n : Nat) : Regs := { r with esp := (r.esp + n) % 2 ^ 32 }

/-- The loads of `context_switch` from the struct that `eax` points to. -/
def restore (m : Memory) (r : Regs) (eax : Nat) : Regs :=
  { r with
    eax := BitVec.ofNat 32 eax
    ebp := load 4 m (eax + 28)
    edi := load 4 m (eax + 24)
    esi := load 4 m (eax + 20)
    edx := load 4 m (eax + 16)
    ecx := load 4 m (eax + 12)
    ebx := load 4 m (eax + 8)
    esp := (load 4 m (eax + 4)).toNat }

/-- `context_switch` from where `eax` points to its second argument. -/
def contextSwitch (m : Memory) (r : Regs) (eax : Nat) : Memory × Regs :=
  let (m, r) := pushl m (restore m r eax) (load 4 m eax)
  -- ret
  (m, addEsp { r with eip := load 4 m r.esp } 4)

/-- The call of `run_entrys` in `run_entry`, which returns to `back`, and the load of `esp` in
`run_entrys`. -/
def runEntry (m : Memory) (r : Regs) (current : Nat) (back : BitVec 32) : Memory × Regs :=
  let (m, r) := pushl m r (load 4 m (current + 20))
  let (m, r) := pushl m r back
  (m, { r with esp := (load 4 m ((r.esp + 4) % 2 ^ 32)).toNat })

def popal (m : Memory) (r : Regs) : Regs :=
  addEsp { r with
    edi := load 4 m r.esp
    esi := load 4 m (r.esp + 4)
    ebp := load 4 m (r.esp + 8)
    ebx := load 4 m (r.esp + 16)
    edx := load 4 m (r.esp + 20)
    ecx := load 4 m (r.esp + 24)
    eax := load 4 m (r.esp + 28) } 32

def iret (m : Memory) (r : Regs) : Regs :=
  addEsp { r with
    eip := load 4 m r.esp
    cs := load 2 m (r.esp + 4)
    eflags := load 4 m (r.esp + 8) } 12

def trapret (m : Memory) (r : Regs) : Regs :=
  let r := popal m r
  let r := addEsp { r with es := load 2 m r.esp } 4
  let r := addEsp { r with ds := load 2 m r.esp } 4
  -- the trap number and the error code
  let r := addEsp r 8
  iret m r

/-- What `context_switch` gives the thread, and what `thread_entry` then starts with: it pushes
`edx` and calls `ebx`. -/
structure Start where
  contextEip : BitVec 32
  contextEsp : Nat
  contextEbp : BitVec 32
  ebx : BitVec 32
  edx : BitVec 32
  es : BitVec 16
  ds : BitVec 16
  eip : BitVec 32
  cs : BitVec 16
  eflags : BitVec 32
  deriving DecidableEq

def firstSwitch (m : Memory) (r : Regs) (t : Nat) (back : BitVec 32) : Start :=
  let (m, r) := contextSwitch m r (t + 24)
  let (contextEip, contextEsp, contextEbp) := (r.eip, r.esp, r.ebp)
  let (m, r) := runEntry m r t back
  let r := trapret m r
  { contextEip, contextEsp, contextEbp
    ebx := r.ebx
    edx := r.edx
    es := r.es
    ds := r.ds
    eip := r.eip
    cs := r.cs
    eflags := r.eflags }

/-! ### Stores and loads -/

structure Placed (t kstack : Nat) : Prop where
  thread : t + threadSize ≤ 2 ^ 32
  stack : kstack + kernelStackSize ≤ 2 ^ 32
  apart : Apart (t, threadSize) (kstack, kernelStackSize)

structure Built (m : Memory) (e : Entries) (t kstack : Nat) (fn arg flags : BitVec 32) : Prop where
  tf : load 4 m (t + 20) = BitVec.ofNat 32 (frameOf kstack)
  contextEip : load 4 m (t + 24) = e.runEntry
  contextEsp : load 4 m (t + 28) = BitVec.ofNat 32 (frameOf kstack)
  contextEbp : load 4 m (t + 52) = BitVec.ofNat 32 kstack
  ebx : load 4 m (frameOf kstack + 16) = fn
  edx : load 4 m (frameOf kstack + 20) = arg
  es : load 2 m (frameOf kstack + 32) = kernelDs
  ds : load 2 m (frameOf kstack + 36) = kernelDs
  eip : load 4 m (frameOf kstack + 48) = e.threadEntry
  cs : load 2 m (frameOf kstack + 52) = kernelCs
  eflags : load 4 m (frameOf kstack + 56) = flags

variable {m m' : Memory} {e : Entries} {t kstack : Nat} {fn arg flags back : BitVec 32} {r : Regs}

private theorem frameOf_eq (kstack : Nat) : frameOf kstack = kstack + 8124 := by
  simp [frameOf, kernelStackSize, trapframeSize]

private theorem Placed.bounds (placed : Placed t kstack) :
    kstack + 8192 ≤ 2 ^ 32 ∧ (t + 84 ≤ kstack ∨ kstack + 8192 ≤ t) :=
  ⟨placed.stack, placed.apart⟩

private theorem writeFrames_built (placed : Placed t kstack) :
    Built (writeFrames m e t kstack fn arg) e t kstack fn arg
      (load 4 m (frameOf kstack + 56) ||| flIf) := by
  obtain ⟨-, apart⟩ := placed.bounds
  have frame := frameOf_eq kstack
  constructor
  all_goals
    simp only [writeFrames]
    generalize frameOf kstack = tf at frame ⊢
    simp (disch := omega) only [load_store, load_store_apart]

private theorem Built.same (built : Built m e t kstack fn arg flags)
    (same : Same m m' [(t, threadSize), (frameOf kstack, trapframeSize)]) :
    Built m' e t kstack fn arg flags := by
  have inThread : ∀ {n i : Nat}, i + n ≤ threadSize → load n m' (t + i) = load n m (t + i) :=
    fun inside => load_congr fun a low high =>
      same _ List.mem_cons_self a ⟨by simp only; omega, by simp only; omega⟩
  have inFrame : ∀ {n i : Nat}, i + n ≤ trapframeSize →
      load n m' (frameOf kstack + i) = load n m (frameOf kstack + i) :=
    fun inside => load_congr fun a low high =>
      same _ (List.mem_cons_of_mem _ List.mem_cons_self) a
        ⟨by simp only; omega, by simp only; omega⟩
  exact
    { tf := (inThread (by decide)).trans built.tf
      contextEip := (inThread (by decide)).trans built.contextEip
      contextEsp := (inThread (by decide)).trans built.contextEsp
      contextEbp := (inThread (by decide)).trans built.contextEbp
      ebx := (inFrame (by decide)).trans built.ebx
      edx := (inFrame (by decide)).trans built.edx
      es := (inFrame (by decide)).trans built.es
      ds := (inFrame (by decide)).trans built.ds
      eip := (inFrame (by decide)).trans built.eip
      cs := (inFrame (by decide)).trans built.cs
      eflags := (inFrame (by decide)).trans built.eflags }

private theorem Built.pushl {w : BitVec 32} (built : Built m e t kstack fn arg flags)
    (placed : Placed t kstack) (low : kstack + 4 ≤ r.esp) (high : r.esp ≤ frameOf kstack) :
    pushl m r w = (store 4 m (r.esp - 4) w, { r with esp := r.esp - 4 }) ∧
      Built (store 4 m (r.esp - 4) w) e t kstack fn arg flags := by
  obtain ⟨stack, apart⟩ := placed.bounds
  rw [frameOf_eq] at high
  have down : (r.esp + 2 ^ 32 - 4) % 2 ^ 32 = r.esp - 4 := by omega
  refine ⟨by rw [ThreadStart.pushl, down], built.same (Same.write ?_)⟩
  simp only [List.mem_cons, List.not_mem_nil, or_false, forall_eq_or_imp, forall_eq,
    length_wordBytes, Apart, threadSize, frameOf_eq]
  omega

private theorem toNat_frameOf (placed : Placed t kstack) :
    (BitVec.ofNat 32 (frameOf kstack)).toNat = frameOf kstack := by
  obtain ⟨stack, -⟩ := placed.bounds
  rw [BitVec.toNat_ofNat, Nat.mod_eq_of_lt]
  rw [frameOf_eq]
  omega

private theorem Built.contextSwitch (built : Built m e t kstack fn arg flags)
    (placed : Placed t kstack) :
    ∃ m' r', contextSwitch m r (t + 24) = (m', r') ∧ Built m' e t kstack fn arg flags ∧
      r'.eip = e.runEntry ∧ r'.esp = frameOf kstack ∧ r'.ebp = BitVec.ofNat 32 kstack := by
  obtain ⟨stack, -⟩ := placed.bounds
  have esp : (restore m r (t + 24)).esp = frameOf kstack :=
    (congrArg BitVec.toNat built.contextEsp).trans (toNat_frameOf placed)
  have frame := frameOf_eq kstack
  obtain ⟨push, kept⟩ := built.pushl (w := load 4 m (t + 24)) (r := restore m r (t + 24)) placed
    (by omega) esp.le
  simp only [ThreadStart.contextSwitch, push]
  refine ⟨_, _, rfl, kept, ?_, ?_, built.contextEbp⟩
  · exact (load_store _).trans built.contextEip
  · simp only [addEsp]
    omega

private theorem Built.runEntry (built : Built m e t kstack fn arg flags) (placed : Placed t kstack)
    (back : BitVec 32) (esp : r.esp = frameOf kstack) :
    ∃ m' r', runEntry m r t back = (m', r') ∧ Built m' e t kstack fn arg flags ∧
      r'.esp = frameOf kstack := by
  obtain ⟨stack, -⟩ := placed.bounds
  rw [frameOf_eq] at esp
  obtain ⟨first, kept⟩ := built.pushl (w := load 4 m (t + 20)) (r := r) placed (by omega)
    (by rw [frameOf_eq]; omega)
  obtain ⟨second, still⟩ := kept.pushl (w := back) (r := { r with esp := r.esp - 4 }) placed
    (by simp only; omega) (by simp only [frameOf_eq]; omega)
  simp only [ThreadStart.runEntry, first, second]
  refine ⟨_, _, rfl, still, ?_⟩
  have up : (r.esp - 4 - 4 + 4) % 2 ^ 32 = r.esp - 4 := by omega
  simp only [up]
  rw [load_store_apart (by omega), load_store]
  exact (congrArg BitVec.toNat built.tf).trans (toNat_frameOf placed)

private theorem Built.firstSwitch (built : Built m e t kstack fn arg flags)
    (placed : Placed t kstack) :
    firstSwitch m r t back =
      { contextEip := e.runEntry
        contextEsp := frameOf kstack
        contextEbp := BitVec.ofNat 32 kstack
        ebx := fn
        edx := arg
        es := kernelDs
        ds := kernelDs
        eip := e.threadEntry
        cs := kernelCs
        eflags := flags } := by
  obtain ⟨stack, -⟩ := placed.bounds
  obtain ⟨m1, r1, switch, built1, eip, esp, ebp⟩ := built.contextSwitch (r := r) placed
  obtain ⟨m2, r2, entry, built2, esp2⟩ := built1.runEntry placed back esp
  have up : ∀ i, i ≤ 60 → (frameOf kstack + i) % 2 ^ 32 = frameOf kstack + i := by
    intro i small
    rw [frameOf_eq]
    omega
  simp only [ThreadStart.firstSwitch, switch, entry, trapret, popal, iret, addEsp, eip, esp, ebp,
    esp2]
  simp (disch := omega) only [up, Nat.add_assoc, Nat.reduceAdd, built2.ebx, built2.edx, built2.es,
    built2.ds, built2.eip, built2.cs, built2.eflags]

/-! ### What the rest of thread_run writes -/

variable {k k' : Kernel} {self : Nat} {cpu : Int} {rest : List Byte} {a : Answers}

def OnlyBuffer (a : Answers) (m m' : Mem) : Prop :=
  ∀ p, (∀ str, a.buffer = some str → ¬ Inside p (str, stringMinSize)) → m'.bytes p = m.bytes p

private theorem ksalloc_onlyBuffer (m : Mem) (a : Answers) :
    Ensures (ksalloc m a.string a.buffer) fun (m', s) => OnlyBuffer a m m' ∧
      ∀ s', s = some s' → ∃ str, a.buffer = some str ∧ s' = ⟨some str, 0, stringMinSize⟩ := by
  match string : a.string, buffer : a.buffer with
  | none, _ => exact .ok ⟨fun _ _ => rfl, nofun⟩
  | some ptr, none => exact .ok ⟨fun _ _ => rfl, nofun⟩
  | some ptr, some str =>
    refine .ok ⟨fun p outside => Function.update_of_ne ?_ _ _, ?_⟩
    · have away := outside str buffer
      simp only [Inside, stringMinSize] at away
      omega
    · rintro s' is
      exact ⟨str, rfl, (Option.some.inj is).symm⟩

private theorem ksappendInt_onlyBuffer {str : Nat} (m : Mem) (val : Int) (int : val ≤ 0x7fffffff)
    (rest : List Byte) (buffer : a.buffer = some str) :
    Ensures (ksappendInt m ⟨some str, 0, stringMinSize⟩ val rest a.larger) fun (m', _, _) =>
      OnlyBuffer a m m' := by
  have digits := toStr_length val int
  have short : appended (toStr val ++ rest) (toStr val).length ≤ (toStr val).length := by
    unfold appended
    split_ifs with less
    · omega
    · exact Nat.le_refl _
  have stored : Stored m ⟨some str, 0, stringMinSize⟩ str [] :=
    ⟨rfl, rfl, Nat.zero_le _, by simp [stringMinSize], by simp [stringMinSize], nofun, Holds.nil⟩
  have fits : 0 + appended (toStr val ++ rest) (toStr val).length ≤ stringMinSize := by
    simp only [stringMinSize]
    omega
  refine (ksappendStrn_after stored (by simp only; omega)
    (fun grows => absurd grows (Nat.not_lt.mpr fits))).mono ?_
  rintro ⟨m', s', ret⟩ ⟨-, after⟩ p outside
  have away := outside str buffer
  simp only [Inside, stringMinSize] at away
  refine after.frame p ⟨?_, fun grows => absurd grows (Nat.not_lt.mpr fits)⟩ ?_
  · intro q here
    rw [bufferFor, if_pos fits] at here
    rw [capacityFor, if_pos fits, ← Option.some.inj here]
    simp only [stringMinSize]
    omega
  · intro q here
    rw [bufferFor, if_pos fits] at here
    rw [← Option.some.inj here, List.nil_append, List.length_take]
    omega

private theorem ksfree_bytes (m : Mem) (s : Option (Nat × KString)) :
    (ksfree m s).bytes = m.bytes := by
  rcases s with - | ⟨ptr, str, length, capacity⟩
  · rfl
  · cases str with
    | none => rfl
    | some str => rfl

private theorem createStateFile_bytes (d : Nat) (file : Option Nat) :
    (createStateFile k t d file).mem.bytes = k.mem.bytes := by
  cases file with
  | none => rfl
  | some f => rfl

private theorem createThreadProcfs_onlyBuffer (k : Kernel) (t : Nat) (rest : List Byte)
    (a : Answers) :
    Ensures (createThreadProcfs k t rest a) fun (k', _) => OnlyBuffer a k.mem k'.mem := by
  refine (ksalloc_onlyBuffer k.mem a).bind fun ⟨m, s⟩ ⟨only, string⟩ => ?_
  cases s with
  | none => exact .ok only
  | some s =>
    obtain ⟨str, buffer, rfl⟩ := string s rfl
    refine (ksappendInt_onlyBuffer m _ (toInt_le (k.sched.threads t).tid) rest buffer).bind ?_
    rintro ⟨m', s', ret⟩ then_
    have both : OnlyBuffer a k.mem m' := fun p outside =>
      (then_ p outside).trans (only p outside)
    cases a.dir with
    | none =>
      refine .ok fun p outside => ?_
      exact (congrFun (ksfree_bytes m' _) p).trans (both p outside)
    | some d =>
      refine .ok fun p outside => ?_
      exact (congrFun (createStateFile_bytes d a.file) p).trans (both p outside)

def Fails (a : Answers) : Prop := a.string = none ∨ a.buffer = none ∨ a.dir = none

instance (a : Answers) : Decidable (Fails a) := inferInstanceAs (Decidable (_ ∨ _))

private theorem Procfs.ret_eq {ret : Int} (procfs : Procfs k t a (k', ret)) :
    ret ≠ 0 ↔ Fails a := by
  cases procfs with
  | failed cause => exact iff_of_true (by decide) cause
  | done string buffer dir => exact iff_of_false (fun failed => failed rfl) (by simp [Fails, *])

private theorem current_ne_none {cpu u : Nat} (is : k.current cpu = .ok u) :
    k.sched.currentThreads cpu ≠ none := by
  intro null
  rw [Kernel.current, null] at is
  cases is

structure Returned (k k' : Kernel) (caller : Nat) (cpu : Int) (t : Nat) (a : Answers)
    (result : Option Nat) : Prop where
  here : k.sched.currentThreads caller ≠ none
  there : k.sched.currentThreads (targetCpu caller cpu) ≠ none
  result : result = if Fails a then none else some t
  bytes : OnlyBuffer a k.mem k'.mem

private theorem startThread_returned {result : Option Nat}
    (call : startThread k self cpu t rest a = .ok (k', result)) :
    Returned k k' self cpu t a result := by
  obtain ⟨u, here, call⟩ := bind_eq_ok call
  obtain ⟨v, there, call⟩ := bind_eq_ok call
  obtain ⟨⟨k1, ret⟩, procfs, call⟩ := bind_eq_ok call
  obtain ⟨_, same, only⟩ := createThreadProcfs_onlyBuffer
    { k with sched := Scheduler.threadRun k.sched self cpu t } t rest a
  obtain rfl := Except.ok.inj (same.symm.trans procfs)
  obtain ⟨_, same, made⟩ := createThreadProcfs_returns
    { k with sched := Scheduler.threadRun k.sched self cpu t } t rest a
  obtain rfl := Except.ok.inj (same.symm.trans procfs)
  by_cases failed : ret ≠ 0
  · simp only [if_pos failed] at call
    obtain ⟨rfl, rfl⟩ := Prod.mk.inj (Except.ok.inj call)
    exact ⟨current_ne_none here, current_ne_none there,
      (if_pos ((Procfs.ret_eq made).mp failed)).symm, only⟩
  · simp only [if_neg failed] at call
    obtain ⟨rfl, rfl⟩ := Prod.mk.inj (Except.ok.inj call)
    exact ⟨current_ne_none here, current_ne_none there,
      (if_neg (failed ∘ (Procfs.ret_eq made).mpr)).symm, only⟩

/-! ### Two runs -/

def withFrames (k : Kernel) (e : Entries) (t kstack : Nat) (fn arg : BitVec 32) : Kernel :=
  let k := setFrames ((k.kmalloc t).kmalloc kstack) e t kstack fn arg
  { k with mem.bytes := writeFrames k.mem.bytes e t kstack fn arg }

private theorem threadRun_eq (thread : a.thread = some t) (stack : a.kstack = some kstack) :
    threadRun k e self fn arg cpu rest a =
      startThread (withFrames k e t kstack fn arg) self cpu t rest a := by
  simp only [threadRun, threadRunWith, thread, stack, withFrames]

/-- kmalloc returns the thread, the stack and the buffer of the string in blocks that are apart. -/
structure Given (a : Answers) (t kstack : Nat) : Prop where
  thread : a.thread = some t
  stack : a.kstack = some kstack
  placed : Placed t kstack
  buffer : ∀ str, a.buffer = some str → Apart (str, stringMinSize) (t, threadSize) ∧
    Apart (str, stringMinSize) (kstack, kernelStackSize)

private theorem threadRun_built {result : Option Nat} (given : Given a t kstack)
    (call : threadRun k e self fn arg cpu rest a = .ok (k', result)) :
    Built k'.mem.bytes e t kstack fn arg
      (load 4 k.mem.bytes (frameOf kstack + 56) ||| flIf) := by
  obtain ⟨thread, stack, placed, buffer⟩ := given
  rw [threadRun_eq thread stack] at call
  have only := (startThread_returned call).bytes
  refine (writeFrames_built placed).same fun b member a' inside => only a' fun str is => ?_
  obtain ⟨fromThread, fromStack⟩ := buffer str is
  rcases List.mem_cons.mp member with rfl | member
  · exact fromThread.symm.not_inside inside
  · obtain rfl := List.mem_singleton.mp member
    refine fromStack.symm.not_inside ?_
    simp only [Inside, frameOf_eq, trapframeSize, kernelStackSize] at inside ⊢
    omega

/-- The blocks that kmalloc returns to `thread_run`; the string does not outgrow its buffer. -/
def blocks (a : Answers) : List Block :=
  [a.thread.map (·, threadSize), a.kstack.map (·, kernelStackSize), a.string.map (·, structSize),
    a.buffer.map (·, stringMinSize), a.dir.map (·, 32), a.file.map (·, 24)].reduceOption

/-- The states differ in the bytes of blocks that kmalloc will return. What the records of threads,
directories and list nodes hold may differ too, as far as no CPU runs another thread. -/
structure Recycled (a : Answers) (k k' : Kernel) : Prop where
  bytes : ∀ p, (∀ b ∈ blocks a, ¬ Inside p b) → k'.mem.bytes p = k.mem.bytes p
  current : k'.sched.currentThreads = k.sched.currentThreads

/-- In two states that differ in recycled memory `thread_run` returns the same, and its thread
starts with the same context, the same registers, the same segments and the same `eip`. It starts
with the same flags exactly if the words in memory where the flags are agree on all bits but
`FL_IF`. -/
theorem thread_start_same_iff (k k' k₁ : Kernel) (e : Entries) (self : Nat) (fn arg : BitVec 32)
    (cpu : Int) (rest : List Byte) (a : Answers) (t kstack : Nat) (result : Option Nat)
    (given : Given a t kstack) (recycled : Recycled a k k')
    (call : threadRun k e self fn arg cpu rest a = .ok (k₁, result)) :
    ∃ k₂, threadRun k' e self fn arg cpu rest a = .ok (k₂, result) ∧
      ∀ (r r' : Regs) (back : BitVec 32),
        { firstSwitch k₁.mem.bytes r t back with eflags := 0 } =
          { firstSwitch k₂.mem.bytes r' t back with eflags := 0 } ∧
        (firstSwitch k₁.mem.bytes r t back = firstSwitch k₂.mem.bytes r' t back ↔
          load 4 k.mem.bytes (frameOf kstack + 56) &&& ~~~flIf =
            load 4 k'.mem.bytes (frameOf kstack + 56) &&& ~~~flIf) := by
  have built := threadRun_built given call
  rw [threadRun_eq given.thread given.stack] at call
  have first := startThread_returned call
  obtain ⟨⟨k₂, result'⟩, call', -⟩ :=
    startThread_returns (k := withFrames k' e t kstack fn arg) (t := t) rest a
      (recycled.current ▸ first.here) (recycled.current ▸ first.there)
  obtain rfl : result' = result :=
    (startThread_returned call').result.trans first.result.symm
  rw [← threadRun_eq given.thread given.stack] at call'
  have built' := threadRun_built given call'
  refine ⟨k₂, call', fun r r' back => ?_⟩
  rw [built.firstSwitch given.placed, built'.firstSwitch given.placed]
  refine ⟨rfl, ?_⟩
  rw [← or_eq_or_iff, Start.mk.injEq]
  simp only [true_and]

def sampleAnswers : Answers :=
  ⟨some 1000, some 8192, some 1900, some 2000, none, some 3000, some 3100⟩

private theorem sampleAnswers_given : Given sampleAnswers 1000 8192 := by
  refine ⟨rfl, rfl, ⟨by decide, by decide, by decide⟩, ?_⟩
  intro str is
  obtain rfl := Option.some.inj is
  decide

def bootedWith (p : Nat) (b : Byte) : Kernel :=
  { booted with mem.bytes := Function.update booted.mem.bytes p b }

private theorem bootedWith_recycled {p : Nat} (inside : Inside p (8192, kernelStackSize))
    (b : Byte) :
    Recycled sampleAnswers booted (bootedWith p b) := by
  refine ⟨fun q outside => Function.update_of_ne ?_ _ _, rfl⟩
  rintro rfl
  exact outside _ (by decide) inside

/-- The saved `edi` is recycled memory, but `thread_entry` does not use it. -/
theorem thread_start_same_iff_edi : ∃ k₁ k₂,
    threadRun booted ⟨5, 6⟩ 0 7 8 0 [] sampleAnswers = .ok (k₁, some 1000) ∧
      threadRun (bootedWith 16316 0xFF) ⟨5, 6⟩ 0 7 8 0 [] sampleAnswers = .ok (k₂, some 1000) ∧
      ∀ r r' back,
        firstSwitch k₁.mem.bytes r 1000 back = firstSwitch k₂.mem.bytes r' 1000 back := by
  obtain ⟨k₂, call, same⟩ := thread_start_same_iff booted (bootedWith 16316 0xFF) _ ⟨5, 6⟩ 0 7 8 0
    [] sampleAnswers 1000 8192 (some 1000) sampleAnswers_given
    (bootedWith_recycled (by decide) _) rfl
  refine ⟨_, k₂, rfl, call, fun r r' back => (same r r' back).2.mpr ?_⟩
  decide +kernel

/-- A bit of the recycled memory is the `NT` flag of the new thread. -/
theorem thread_start_stale_flags : ∃ k₁ k₂,
    Recycled sampleAnswers booted (bootedWith 16373 0x40) ∧
      threadRun booted ⟨5, 6⟩ 0 7 8 0 [] sampleAnswers = .ok (k₁, some 1000) ∧
      threadRun (bootedWith 16373 0x40) ⟨5, 6⟩ 0 7 8 0 [] sampleAnswers = .ok (k₂, some 1000) ∧
      ∀ r back, (firstSwitch k₁.mem.bytes r 1000 back).eflags = 0x200 ∧
        (firstSwitch k₂.mem.bytes r 1000 back).eflags = 0x4200 := by
  obtain ⟨k₁, call⟩ : ∃ k₁,
      threadRun booted ⟨5, 6⟩ 0 7 8 0 [] sampleAnswers = .ok (k₁, some 1000) := ⟨_, rfl⟩
  obtain ⟨k₂, call'⟩ : ∃ k₂,
      threadRun (bootedWith 16373 0x40) ⟨5, 6⟩ 0 7 8 0 [] sampleAnswers = .ok (k₂, some 1000) :=
    ⟨_, rfl⟩
  have built := threadRun_built sampleAnswers_given call
  have built' := threadRun_built sampleAnswers_given call'
  refine ⟨k₁, k₂, bootedWith_recycled (by decide) _, call, call', fun r back => ⟨?_, ?_⟩⟩
  · rw [built.firstSwitch sampleAnswers_given.placed]
    decide +kernel
  · rw [built'.firstSwitch sampleAnswers_given.placed]
    decide +kernel

end OhMyOs.Schedule.ThreadStart
