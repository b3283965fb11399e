/- GID: OhMyOs/Kernel/KeyboardLocks
   generality: I
   digest: The keyboard interrupt and the locks of the code that it interrupts. -/

import OhMyOs.Include.Constants
import OhMyOs.Kernel.Locks
import OhMyOs.Lib.Runs
import OhMyOs.Libs.GrowableQueue

set_option autoImplicit false
set_option relaxedAutoImplicit false

namespace OhMyOs.Kernel.KeyboardLocks

open OhMyOs.Include.Constants
open OhMyOs.Kernel.Locks OhMyOs.Lib.LockOrder
open OhMyOs.Lib.Runs (Run Free)
open OhMyOs.Mm.Slab (kmemCacheMaxSize cacheOrder cacheOrder_le pageOrder)
open OhMyOs.Libs.GrowableQueue (Mem Queue queueFull expandSize)

/-! ### Keys -/

def shiftBit : Word := 1
def ctl : Word := 2
def alt : Word := 4
def capslock : Word := 8
def numlock : Word := 16
def scrolllock : Word := 32
def e0esc : Word := 64

def keyHome : Byte := 0xE0
def keyEnd : Byte := 0xE1
def keyUp : Byte := 0xE2
def keyDn : Byte := 0xE3
def keyLf : Byte := 0xE4
def keyRt : Byte := 0xE5
def keyPgup : Byte := 0xE6
def keyPgdn : Byte := 0xE7
def keyIns : Byte := 0xE8
def keyDel : Byte := 0xE9

def shiftcode (data : Byte) : Word :=
  if data = 0x1D ∨ data = 0x9D then ctl
  else if data = 0x2A ∨ data = 0x36 then shiftBit
  else if data = 0x38 ∨ data = 0xB8 then alt
  else 0

def togglecode (data : Byte) : Word :=
  if data = 0x3A then capslock
  else if data = 0x45 then numlock
  else if data = 0x46 then scrolllock
  else 0

def cursorKeys (data : Byte) : Byte :=
  if data = 0xC8 then keyUp
  else if data = 0xC9 then keyPgup
  else if data = 0xCB then keyLf
  else if data = 0xCD then keyRt
  else if data = 0xCF then keyEnd
  else if data = 0xD0 then keyDn
  else if data = 0xD1 then keyPgdn
  else if data = 0xD2 then keyIns
  else if data = 0xD3 then keyDel
  else 0

def escapedKeys (data : Byte) : Byte :=
  if data = 0xC7 then keyHome
  else if data = 0x9C then 10
  else if data = 0xB5 then 47
  else cursorKeys data

def normalmap (data : Byte) : Byte :=
  ([0, 0x1B, 49, 50, 51, 52, 53, 54,
    55, 56, 57, 48, 45, 61, 8, 9,
    113, 119, 101, 114, 116, 121, 117, 105,
    111, 112, 91, 93, 10, 0, 97, 115,
    100, 102, 103, 104, 106, 107, 108, 59,
    39, 96, 0, 92, 122, 120, 99, 118,
    98, 110, 109, 44, 46, 47, 0, 42,
    0, 32, 0, 0, 0, 0, 0, 0,
    0, 0, 0, 0, 0, 0, 0, 55,
    56, 57, 45, 52, 53, 54, 43, 49,
    50, 51, 48, 46, 0, 0, 0, 0] : List Byte).getD data.toNat (escapedKeys data)

def shiftmap (data : Byte) : Byte :=
  ([0, 0x1B, 33, 64, 35, 36, 37, 94,
    38, 42, 40, 41, 95, 43, 8, 9,
    81, 87, 69, 82, 84, 89, 85, 73,
    79, 80, 123, 125, 10, 0, 65, 83,
    68, 70, 71, 72, 74, 75, 76, 58,
    34, 126, 0, 124, 90, 88, 67, 86,
    66, 78, 77, 60, 62, 63, 0, 42,
    0, 32, 0, 0, 0, 0, 0, 0,
    0, 0, 0, 0, 0, 0, 0, 55,
    56, 57, 45, 52, 53, 54, 43, 49,
    50, 51, 48, 46, 0, 0, 0, 0] : List Byte).getD data.toNat (escapedKeys data)

/-- The macro `C(x)` is `x - 64`, which for the slash is negative. -/
def ctlmap (data : Byte) : Byte :=
  ([0, 0, 0, 0, 0, 0, 0, 0,
    0, 0, 0, 0, 0, 0, 0, 0,
    17, 23, 5, 18, 20, 25, 21, 9,
    15, 16, 0, 0, 13, 0, 1, 19,
    4, 6, 7, 8, 10, 11, 12, 0,
    0, 0, 0, 28, 26, 24, 3, 22,
    2, 14, 13, 0, 0, 0xEF, 0, 0] : List Byte).getD data.toNat
    (if data = 0x97 then keyHome else if data = 0xB5 then 0xEF else cursorKeys data)

def charcode (v : Word) : Byte → Byte :=
  if v = 0 then normalmap else if v = shiftBit then shiftmap else ctlmap

def swapCase (c : Byte) : Byte :=
  if 97 ≤ c.toNat ∧ c.toNat ≤ 122 then c - 32
  else if 65 ≤ c.toNat ∧ c.toNat ≤ 90 then c + 32
  else c

/-- The new `shift`, the character, and whether `reboot` is called. -/
def keyboardDeviceGetc (shift : Word) (data : Byte) : Word × Byte × Bool :=
  if data = 0xE0 then (shift ||| e0esc, 0, false)
  else if data &&& 0x80 ≠ 0 then
    let data := if shift &&& e0esc ≠ 0 then data else data &&& 0x7F
    (shift &&& ~~~(shiftcode data ||| e0esc), 0, false)
  else
    let data := if shift &&& e0esc ≠ 0 then data ||| 0x80 else data
    let shift := if shift &&& e0esc ≠ 0 then shift &&& ~~~e0esc else shift
    let shift := (shift ||| shiftcode data) ^^^ togglecode data
    let c := charcode (shift &&& (ctl ||| shiftBit)) data
    let c := if shift &&& capslock ≠ 0 then swapCase c else c
    (shift, c, ~~~shift &&& (ctl ||| alt) = 0 && c = keyDel)

/-! ### Interrupted code -/

/-- A scan code from the keyboard, with what a message needs if there is one, and with what kmalloc
finds and returns if it is called. -/
structure Key where
  data : Byte
  log : PrintEnv
  slab : SlabEnv
  pages : AllocEnv
  ptr : Nat

structure Context where
  todo : Prog
  held : List Lock

/-- The thread on the CPU and the others, `shift`, `stdio_que`, and the lock that the interrupt
handler waits for. -/
structure IrqState where
  current : Context
  others : List Context
  shift : Word
  mem : Mem
  que : Queue
  waits : Option Lock

/-- The call of kmalloc in `__queue_expand`; `kmalloc_init` runs before `irq_init`. -/
def expandEnv (s : IrqState) (key : Key) : KmallocEnv :=
  { size := expandSize s.que
    early := false
    sound := true
    block := false
    slab := key.slab
    pages := key.pages }

def expands (s : IrqState) (key : Key) : Bool :=
  (keyboardDeviceGetc s.shift key.data).2.1 ≠ 0 && queueFull s.que

/-- `Ctrl+Alt+Del` -/
def reboots (s : IrqState) (key : Key) : Bool := (keyboardDeviceGetc s.shift key.data).2.2

def keyProg (s : IrqState) (key : Key) : Prog :=
  (if reboots s key then printDebug key.log else []) ++
    if expands s key then kmalloc (expandEnv s key) else []

/-- What one turn leaves; a failed `__enqueue` drops the character. -/
def keyStore (s : IrqState) (key : Key) : Option IrqState :=
  let (shift, c, _) := keyboardDeviceGetc s.shift key.data
  if c ≠ 0 then
    let newBase := if (expandEnv s key).ok then some key.ptr else none
    (OhMyOs.Libs.GrowableQueue.enqueue s.mem s.que [c] newBase).map fun (mem, que, _) =>
      { s with shift, mem, que }
  else some { s with shift }

/-- The next lock operation of the thread. It waits for a lock of another thread. -/
def actStep (s : IrqState) : Option IrqState :=
  match s.current.todo with
  | [] => none
  | act :: rest =>
    match exec (s.others.flatMap Context.held ++ s.current.held) [act],
      exec s.current.held [act] with
    | .ok _, .ok held => some { s with current := { todo := rest, held } }
    | _, _ => none

/-- One turn of the handler. A lock of another thread is taken to become free; a fault in the
handler ends the run. -/
def keyStep (s : IrqState) (key : Key) : Option IrqState :=
  match exec s.current.held (keyProg s key) with
  | .ok _ => keyStore s key
  | .error (.waits lock) => some { s with waits := some lock }
  | .error _ => none

/-- A thread is created or switched to, calls a function or prints, or goes on; or a scan code
interrupts it. An interrupt with several scan codes is several `key`s in a row. -/
inductive IrqOp
  | create
  | switch (thread : Nat)
  | call (call : Call)
  | print (log : PrintEnv)
  | act
  | key (key : Key)

/-- Nothing happens any more on a CPU whose interrupt handler waits. -/
def irqOp (s : IrqState) (op : IrqOp) : Option IrqState :=
  if s.waits.isSome then none
  else
    match op with
    | .create => some { s with others := ⟨[], []⟩ :: s.others }
    | .switch thread =>
      s.others[thread]?.map fun next =>
        { s with current := next, others := s.others.set thread s.current }
    | .call call =>
      if s.current.todo.isEmpty then
        some { s with current := { s.current with todo := call.prog } }
      else none
    | .print log =>
      if s.current.todo.isEmpty then
        some { s with current := { s.current with todo := printDebug log } }
      else none
    | .act => actStep s
    | .key key => keyStep s key

/-- The handler waits for a lock of the thread that it interrupted. -/
def SelfDeadlock (s : IrqState) : Prop := ∃ lock ∈ s.current.held, s.waits = some lock

/-! ### The locks of the handler -/

def slabLocks (cache : Nat) : SlabEnv → List Lock
  | .slabsPartial _ => [.cache cache]
  | .grow _ _ => [.cache cache, .page]

def kmallocLocks (env : KmallocEnv) : List Lock :=
  if env.early then []
  else if env.size ≤ kmemCacheMaxSize then slabLocks (cacheOrder env.size) env.slab
  else if pageOrder env.size > OhMyOs.Mm.PageAllocator.maxOrder then [] else [.page]

def kfreeLocks : KfreeEnv → List Lock
  | .early _ | .noCache => []
  | .slab cache (.used true) => [.cache cache, .page]
  | .slab cache _ => [.cache cache]
  | .pages => [.page]

def expandLocks (env : ExpandEnv) : List Lock :=
  kmallocLocks env.str ++ if env.str.ok then env.old.toList.flatMap kfreeLocks else []

/-- A message whose strings are too small frees and allocates under `pr_lock`. -/
def printLocks (env : PrintEnv) : List Lock := .pr :: env.expands.flatMap expandLocks

def keyLocks (s : IrqState) (key : Key) : List Lock :=
  (if reboots s key then printLocks key.log else []) ++
    if expands s key then kmallocLocks (expandEnv s key) else []

def keyFine (s : IrqState) (key : Key) : Bool :=
  (if reboots s key then key.log.fine else true) &&
    if expands s key then (expandEnv s key).fine else true

/-- A key comes only while the thread holds no lock that it needs, and its handler does not
fault. -/
def harmless (s : IrqState) : IrqOp → Bool
  | .key key => keyFine s key && (keyLocks s key).all fun lock => lock ∉ s.current.held
  | _ => true

private theorem allocPages_needs (order : Nat) {env : AllocEnv}
    (fine : allocPagesFine order env = true) :
    Needs (allocPages order env)
      (if order > OhMyOs.Mm.PageAllocator.maxOrder then [] else [.page]) := by
  unfold allocPagesFine at fine
  unfold allocPages
  by_cases large : order > OhMyOs.Mm.PageAllocator.maxOrder
  · rw [if_pos large, if_pos large]
    exact Needs.nil
  · rw [decide_eq_false large, Bool.false_or] at fine
    rw [if_neg large, if_neg large, fine]
    exact Needs.leaf _

private theorem kmemCacheAlloc_needs (cache : Nat) {env : SlabEnv} (fine : env.fine = true) :
    Needs (kmemCacheAlloc cache env) (slabLocks cache env) := by
  have other : Lock.cache cache ∉ [Lock.page] := by simp
  cases env with
  | slabsPartial sound =>
    obtain rfl : sound = true := fine
    exact Needs.leaf _
  | grow page sound =>
    cases page with
    | none => cases fine
    | some page =>
      simp only [kmemCacheAlloc, slabPageInit_linear page, Bool.false_eq_true, if_false]
      exact Needs.locked (allocPages_needs 0 fine) other

private theorem kmalloc_needs {env : KmallocEnv} (fine : env.fine = true) :
    Needs (kmalloc env) (kmallocLocks env) := by
  unfold KmallocEnv.fine at fine
  unfold kmalloc kmallocLocks
  refine Needs.ite env.early (fun early => ?_) fun late => ?_
  · rw [early, if_pos rfl] at fine
    rw [fine]
    exact Needs.nil
  · rw [late, if_neg Bool.false_ne_true] at fine
    by_cases small : env.size ≤ kmemCacheMaxSize
    · rw [if_pos small] at fine
      rw [if_pos small, if_pos small, decide_eq_true (cacheOrder_le small)]
      exact kmemCacheAlloc_needs _ fine
    · rw [if_neg small] at fine
      rw [if_neg small, if_neg small]
      exact allocPages_needs _ fine

private theorem kfree_needs {env : KfreeEnv} (fine : env.fine = true) :
    Needs (kfree env) (kfreeLocks env) := by
  cases env with
  | early sound =>
    obtain rfl : sound = true := fine
    exact Needs.nil
  | noCache => cases fine
  | slab cache object =>
    cases object with
    | foreign => cases fine
    | unused => cases fine
    | used last =>
      cases last with
      | false => exact Needs.leaf _
      | true => exact (Needs.leaf Lock.page).locked (by simp)
  | pages => exact Needs.leaf _

private theorem stringTryExpand_needs {env : ExpandEnv} (fine : env.fine = true) :
    Needs (stringTryExpand env) (expandLocks env) := by
  unfold ExpandEnv.fine at fine
  obtain ⟨sound, rest⟩ := (Bool.and_eq_true_iff).mp fine
  obtain ⟨str, old⟩ := (Bool.and_eq_true_iff).mp rest
  unfold stringTryExpand expandLocks
  rw [sound]
  refine (kmalloc_needs str).seq (Needs.ite _ (fun ok => ?_) fun _ => Needs.nil)
  rw [ok, if_pos rfl] at old
  exact Needs.flatMap fun buffer mem => kfree_needs (List.all_eq_true.mp old buffer mem)

private theorem pr_kmallocLocks (env : KmallocEnv) : Lock.pr ∉ kmallocLocks env := by
  unfold kmallocLocks slabLocks
  repeat' split
  all_goals simp

private theorem pr_kfreeLocks (env : KfreeEnv) : Lock.pr ∉ kfreeLocks env := by
  unfold kfreeLocks
  split <;> simp

private theorem pr_expandLocks (env : ExpandEnv) : Lock.pr ∉ expandLocks env := by
  intro mem
  rcases List.mem_append.mp mem with mem | mem
  · exact pr_kmallocLocks _ mem
  · split at mem
    · obtain ⟨buffer, _, mem⟩ := List.mem_flatMap.mp mem
      exact pr_kfreeLocks buffer mem
    · exact absurd mem List.not_mem_nil

private theorem printDebug_needs {env : PrintEnv} (fine : env.fine = true) :
    Needs (printDebug env) (printLocks env) := by
  obtain ⟨expands, texts⟩ := (Bool.and_eq_true_iff).mp fine
  have body : Needs (env.expands.flatMap stringTryExpand) (env.expands.flatMap expandLocks) :=
    Needs.flatMap fun expand mem =>
      stringTryExpand_needs (List.all_eq_true.mp expands expand mem)
  have other : Lock.pr ∉ env.expands.flatMap expandLocks := by
    intro mem
    obtain ⟨expand, _, mem⟩ := List.mem_flatMap.mp mem
    exact pr_expandLocks expand mem
  have all : env.expands.flatMap stringTryExpand ++ follow env.texts =
      env.expands.flatMap stringTryExpand := by
    rw [texts, follow, if_pos rfl, List.append_nil]
  rw [printDebug, all]
  exact body.locked other

private theorem keyProg_needs {s : IrqState} {key : Key} (fine : keyFine s key = true) :
    Needs (keyProg s key) (keyLocks s key) := by
  obtain ⟨told, expanded⟩ := (Bool.and_eq_true_iff).mp fine
  apply Needs.seq
  · refine Needs.ite _ (fun reboot => ?_) fun _ => Needs.nil
    rw [reboot, if_pos rfl] at told
    exact printDebug_needs told
  · refine Needs.ite _ (fun expand => ?_) fun _ => Needs.nil
    rw [expand, if_pos rfl] at expanded
    exact kmalloc_needs expanded

/-! ### Runs -/

private theorem harmless_key_iff (s : IrqState) (key : Key) :
    harmless s (.key key) = true ↔
      keyFine s key = true ∧ ∀ lock ∈ keyLocks s key, lock ∉ s.current.held := by
  simp [harmless]

private theorem keyStore_frame {s t : IrqState} {key : Key} (eq : keyStore s key = some t) :
    t.current = s.current ∧ t.waits = s.waits := by
  unfold keyStore at eq
  dsimp only at eq
  split at eq
  · obtain ⟨_, _, rfl⟩ := Option.map_eq_some_iff.mp eq
    exact ⟨rfl, rfl⟩
  · obtain rfl := Option.some.inj eq
    exact ⟨rfl, rfl⟩

private theorem keyStep_live {s t : IrqState} {key : Key} (live : s.waits = none)
    (ok : harmless s (.key key) = true) (step : keyStep s key = some t) : t.waits = none := by
  obtain ⟨fine, clear⟩ := (harmless_key_iff s key).mp ok
  unfold keyStep at step
  rw [(keyProg_needs fine).free _ clear] at step
  rw [(keyStore_frame step).2]
  exact live

private theorem keyStep_deadlock {s : IrqState} {key : Key} (fine : keyFine s key = true)
    (harm : harmless s (.key key) = false) : ∃ t, keyStep s key = some t ∧ SelfDeadlock t := by
  have meets : ∃ lock ∈ keyLocks s key, lock ∈ s.current.held := by
    by_contra none
    push Not at none
    rw [(harmless_key_iff s key).mpr ⟨fine, none⟩] at harm
    cases harm
  obtain ⟨lock, _, held, eq⟩ := (keyProg_needs fine).waits _ meets
  refine ⟨{ s with waits := some lock }, ?_, lock, held, rfl⟩
  unfold keyStep
  rw [eq]

private theorem start_waits {s t : IrqState} {prog : Prog}
    (step : (if s.current.todo.isEmpty then
      some { s with current := { s.current with todo := prog } } else none) = some t) :
    t.waits = s.waits := by
  split at step
  · obtain rfl := Option.some.inj step
    rfl
  · cases step

private theorem actStep_waits {s t : IrqState} (step : actStep s = some t) :
    t.waits = s.waits := by
  unfold actStep at step
  split at step
  · cases step
  · split at step
    · obtain rfl := Option.some.inj step
      rfl
    · cases step

private theorem irqOp_live {s t : IrqState} {op : IrqOp} (live : s.waits = none)
    (ok : harmless s op = true) (step : irqOp s op = some t) : t.waits = none := by
  have running : ¬ s.waits.isSome = true := by simp [live]
  unfold irqOp at step
  rw [if_neg running] at step
  cases op with
  | create =>
    obtain rfl := Option.some.inj step
    exact live
  | switch thread =>
    obtain ⟨_, _, rfl⟩ := Option.map_eq_some_iff.mp step
    exact live
  | call call => exact (start_waits step).trans live
  | print log => exact (start_waits step).trans live
  | act => exact (actStep_waits step).trans live
  | key key => exact keyStep_live live ok step

/-- No run whose keys are harmless deadlocks, and in every state a key whose handler does not fault
deadlocks exactly if it is not. -/
theorem irq_run_harmless {s : IrqState} (start : s.waits = none) :
    (∀ t, Run irqOp (fun s op => harmless s op = true) s t → ¬ SelfDeadlock t) ∧
      ∀ t key, t.waits = none → keyFine t key = true →
        ((∃ u, irqOp t (.key key) = some u ∧ SelfDeadlock u) ↔
          harmless t (.key key) = false) := by
  constructor
  · intro t run
    have live : t.waits = none :=
      run.invariant start fun _ _ _ live ok step => irqOp_live live ok step
    rintro ⟨lock, _, waits⟩
    rw [live] at waits
    cases waits
  · intro t key live fine
    have enter : irqOp t (.key key) = keyStep t key := by
      unfold irqOp
      rw [live]
      rfl
    constructor
    · rintro ⟨u, step, lock, _, waits⟩
      by_contra ok
      have still := irqOp_live live (Bool.not_eq_false _ ▸ ok) step
      rw [still] at waits
      cases waits
    · intro harm
      rw [enter]
      exact keyStep_deadlock fine harm

def bootIrq : IrqState :=
  { current := ⟨[], []⟩
    others := []
    shift := 0
    mem := { bytes := fun _ _ => 0, size := fun ptr => if ptr = 1 then 8 else 0 }
    que := { base := 1, elementSize := 1, front := 0, rear := 0, capacity := 8 }
    waits := none }

def keyA : Key :=
  { data := 0x1E, log := ⟨[], true⟩, slab := .slabsPartial true, pages := .empty, ptr := 2 }

def fillAndLock (cache : Nat) : List IrqOp :=
  List.replicate 7 (.key keyA) ++ [.call (.kmemCacheAlloc cache (.slabsPartial true)), .act]

/-- The queue is expanded under the lock of another cache. -/
theorem irq_run_harmless_locked : ∃ t,
    Run irqOp (fun s op => harmless s op = true) bootIrq t ∧ t.current.held = [.cache 0] ∧
      t.que.capacity = 16 ∧ ¬ SelfDeadlock t := by
  have ran : (OhMyOs.Lib.Runs.exec irqOp harmless bootIrq (fillAndLock 0 ++ [.key keyA])).map
      (fun t => (t.current.held, t.que.capacity)) = some ([.cache 0], 16) := by decide +kernel
  obtain ⟨t, done, eq⟩ := Option.map_eq_some_iff.mp ran
  have run := Run.of_exec done
  exact ⟨t, run, congrArg Prod.fst eq, congrArg Prod.snd eq, (irq_run_harmless rfl).1 t run⟩

/-- The eighth key comes while the thread holds the lock of the cache for 16 bytes. -/
theorem irq_run_deadlocks : ∃ t,
    Run irqOp Free bootIrq t ∧ t.current.held = [.cache 1] ∧ t.waits = some (.cache 1) ∧
      SelfDeadlock t := by
  have ran : (OhMyOs.Lib.Runs.exec irqOp (fun _ _ => true) bootIrq
      (fillAndLock 1 ++ [.key keyA])).map (fun t => (t.current.held, t.waits)) =
        some ([.cache 1], some (.cache 1)) := by decide +kernel
  obtain ⟨t, done, eq⟩ := Option.map_eq_some_iff.mp ran
  have held : t.current.held = [.cache 1] := congrArg Prod.fst eq
  have waits : t.waits = some (.cache 1) := congrArg Prod.snd eq
  refine ⟨t, (Run.of_exec done).mono fun _ _ _ => trivial, held, waits, .cache 1, ?_, waits⟩
  rw [held]
  exact List.mem_cons_self

end OhMyOs.Kernel.KeyboardLocks
