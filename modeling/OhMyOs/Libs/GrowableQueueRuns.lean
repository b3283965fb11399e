/- GID: OhMyOs/Libs/GrowableQueueRuns
   generality: I
   digest: Runs of the growable queues of libs/queue.c answer as an unbounded queue does. -/

import OhMyOs.Lib.Runs
import OhMyOs.Libs.GrowableQueue

set_option autoImplicit false
set_option relaxedAutoImplicit false

namespace OhMyOs.Libs.GrowableQueueRuns

open OhMyOs.Include.Constants
open OhMyOs.Lib.Runs OhMyOs.Libs.GrowableQueue

/-! ### Calls -/

/-- A call; `newBase` is what kmalloc returns should `__queue_expand` call it. -/
inductive QueueOp
  | enqueue (x : List Byte) (newBase : Option Nat)
  | dequeue
  deriving DecidableEq

structure Reply where
  ret : Int
  ele : List Byte
  deriving DecidableEq

def queueCall (m : Mem) (que : Queue) : QueueOp → Option (Mem × Queue × Reply)
  | .enqueue x newBase => (enqueue m que x newBase).map fun (m, que, ret) => (m, que, ⟨ret, []⟩)
  | .dequeue => (dequeue m que).map fun (que, x, ret) => (m, que, ⟨ret, x⟩)

def refused (que : Queue) : QueueOp → Bool
  | .enqueue _ none => queueFull que
  | _ => false

/-! ### What a queue is for -/

/-- One call on an unbounded queue of elements; `refuse` says whether an element to be added is
refused for want of memory. -/
def fifoCall (fifo : List (List Byte)) (refuse : Bool) : QueueOp → List (List Byte) × Reply
  | .enqueue x _ => if refuse then (fifo, ⟨-enomem, []⟩) else (fifo ++ [x], ⟨0, []⟩)
  | .dequeue =>
    match fifo with
    | [] => ([], ⟨-enoent, []⟩)
    | x :: rest => (rest, ⟨0, x⟩)

/-! ### One call -/

/-- The element has the size of the queue's elements, and kmalloc keeps its word. -/
def callOk (que : Queue) : QueueOp → Prop
  | .enqueue x newBase => x.length = que.elementSize ∧ Granted que newBase
  | .dequeue => True

instance decidableGranted (que : Queue) (newBase : Option Nat) : Decidable (Granted que newBase) :=
  match newBase with
  | none => isTrue (by simp [Granted])
  | some ptr => decidable_of_iff (que.base ≠ ptr ∧ expandSize que ≤ 2 ^ 22) (by simp [Granted])

instance decidableCallOk (que : Queue) (op : QueueOp) : Decidable (callOk que op) :=
  match op with
  | .enqueue x newBase =>
    inferInstanceAs (Decidable (x.length = que.elementSize ∧ Granted que newBase))
  | .dequeue => isTrue trivial

section
variable {m : Mem} {que : Queue}

private theorem enqueue_refines (valid : Valid m que) {x : List Byte} {newBase : Option Nat}
    (ok : callOk que (.enqueue x newBase)) :
    ∃ m' que' reply, queueCall m que (.enqueue x newBase) = some (m', que', reply) ∧
      Valid m' que' ∧ fifoCall (contents m que) (refused que (.enqueue x newBase))
        (.enqueue x newBase) = (contents m' que', reply) := by
  obtain ⟨length, granted⟩ := ok
  obtain ⟨m', que', ret, call, way, kept, held⟩ := enqueue_spec valid length granted
  refine ⟨m', que', ⟨ret, []⟩, by rw [queueCall, call]; rfl, kept, ?_⟩
  rw [held]
  cases way with
  | failed full =>
    rw [fifoCall, refused, full]
    rfl
  | stored room copied =>
    cases newBase with
    | none =>
      rw [fifoCall, refused, room]
      rfl
    | some ptr => rfl
  | moved full others => rfl

private theorem dequeue_refines (valid : Valid m que) :
    ∃ m' que' reply, queueCall m que .dequeue = some (m', que', reply) ∧ Valid m' que' ∧
      fifoCall (contents m que) (refused que .dequeue) .dequeue = (contents m' que', reply) := by
  cases empty : queueEmpty que with
  | true =>
    refine ⟨m, que, ⟨-enoent, []⟩, by rw [queueCall, dequeue_empty empty]; rfl, valid, ?_⟩
    rw [valid.queueEmpty_iff.mp empty]
    rfl
  | false =>
    obtain ⟨x, call, held⟩ := dequeue_spec valid empty
    refine ⟨m, shortened que, ⟨0, x⟩, by rw [queueCall, call]; rfl, valid.shortened, ?_⟩
    rw [held]
    rfl

private theorem queueCall_refines (valid : Valid m que) {op : QueueOp} (ok : callOk que op) :
    ∃ m' que' reply, queueCall m que op = some (m', que', reply) ∧ Valid m' que' ∧
      fifoCall (contents m que) (refused que op) op = (contents m' que', reply) := by
  cases op with
  | enqueue x newBase => exact enqueue_refines valid ok
  | dequeue => exact dequeue_refines valid

end

/-! ### Runs -/

structure QueueRun where
  mem : Mem
  que : Queue
  replies : List Reply
  fifo : List (List Byte)
  expected : List Reply

def queueStep (r : QueueRun) (op : QueueOp) : Option QueueRun :=
  (queueCall r.mem r.que op).map fun (mem, que, reply) =>
    let (fifo, answer) := fifoCall r.fifo (refused r.que op) op
    { mem, que, replies := r.replies ++ [reply], fifo, expected := r.expected ++ [answer] }

def queueStart (mem : Mem) (que : Queue) : QueueRun := ⟨mem, que, [], [], []⟩

structure Refines (r : QueueRun) : Prop where
  valid : Valid r.mem r.que
  replies : r.replies = r.expected
  held : r.fifo = contents r.mem r.que

private theorem Refines.step {r : QueueRun} (refines : Refines r) {op : QueueOp}
    (ok : callOk r.que op) :
    ∃ r', queueStep r op = some r' ∧ Refines r' := by
  obtain ⟨valid, replies, held⟩ := refines
  obtain ⟨m', que', reply, call, kept, answer⟩ := queueCall_refines valid ok
  rw [← held] at answer
  refine ⟨⟨m', que', r.replies ++ [reply], contents m' que', r.expected ++ [reply]⟩,
    ?_, kept, ?_, rfl⟩
  · rw [queueStep, call, answer]
    rfl
  · show r.replies ++ [reply] = r.expected ++ [reply]
    rw [replies]

/-- From `queue_create` on, with elements of up to 1 MB and a kmalloc that finds no block above
4 MB, every sequence of calls returns, answers as an unbounded queue of elements, and holds as
many elements as `queue_size` says. -/
theorem queue_run_fifo (m m' : Mem) (ptr base : Option Nat) (elementSize : Nat) (que : Queue)
    (positive : 1 ≤ elementSize) (bounded : elementSize ≤ 2 ^ 20)
    (limit : base ≠ none → minCapacity * elementSize % 2 ^ 32 ≤ 2 ^ 22)
    (create : queueCreate m ptr base elementSize = (m', some que)) (t : QueueRun)
    (run : Run queueStep (fun r op => callOk r.que op) (queueStart m' que) t) :
    t.replies = t.expected ∧ t.fifo = contents t.mem t.que ∧ queueSize t.que = t.fifo.length ∧
      ∀ op, callOk t.que op → ∃ t', queueStep t op = some t' := by
  have start : Refines (queueStart m' que) := by
    cases ptr with
    | none => cases create
    | some ptr =>
      cases base with
      | none => cases create
      | some base =>
        have small : minCapacity * elementSize ≤ 2 ^ 22 := by
          have fits : minCapacity * elementSize < 2 ^ 32 := by
            unfold minCapacity
            omega
          rw [← Nat.mod_eq_of_lt fits]
          exact limit (by simp)
        obtain ⟨valid, empty⟩ := queueCreate_valid positive small create
        exact ⟨valid, rfl, empty.symm⟩
  have refines : Refines t := run.invariant start fun r op r' inv ok step => by
    obtain ⟨r1, done, kept⟩ := inv.step ok
    exact Option.some.inj (done.symm.trans step) ▸ kept
  refine ⟨refines.replies, refines.held, ?_, fun op ok => ?_⟩
  · rw [refines.held, contents_length]
  · obtain ⟨t', step, -⟩ := refines.step ok
    exact ⟨t', step⟩

/-- Eight elements of two bytes, the last of which is refused once before the queue grows, and
then the oldest is taken. -/
def sampleOps : List QueueOp :=
  .dequeue :: (List.range 7).map (fun i => .enqueue [BitVec.ofNat 8 i, 1] none) ++
    [.enqueue [7, 1] none, .enqueue [7, 1] (some 20), .dequeue]

theorem queue_run_fifo_sample :
    ∃ t, exec queueStep (fun r op => decide (callOk r.que op))
        (queueStart (kmalloc ⟨fun _ _ => 0, fun _ => 0⟩ 10 16) ⟨10, 2, 0, 0, 8⟩)
          sampleOps = some t ∧
      t.replies = ⟨-enoent, []⟩ :: List.replicate 7 ⟨0, []⟩ ++
        [⟨-enomem, []⟩, ⟨0, []⟩, ⟨0, [0, 1]⟩] ∧
      t.replies = t.expected ∧ queueSize t.que = 7 ∧ t.fifo.length = 7 := by
  have ran : (exec queueStep (fun r op => decide (callOk r.que op))
      (queueStart (kmalloc ⟨fun _ _ => 0, fun _ => 0⟩ 10 16) ⟨10, 2, 0, 0, 8⟩) sampleOps).map
        (fun t => (t.replies, queueSize t.que)) = some (⟨-enoent, []⟩ :: List.replicate 7 ⟨0, []⟩ ++
          [⟨-enomem, []⟩, ⟨0, []⟩, ⟨0, [0, 1]⟩], 7) := by decide +kernel
  obtain ⟨t, eq, facts⟩ := Option.map_eq_some_iff.mp ran
  obtain ⟨replies, size⟩ := Prod.mk.inj facts
  obtain ⟨same, -, count, -⟩ := queue_run_fifo ⟨fun _ _ => 0, fun _ => 0⟩ _ (some 5) (some 10) 2 _
    (by decide) (by decide) (fun _ => by decide) rfl t
      ((Run.of_exec eq).mono fun _ _ ok => of_decide_eq_true ok)
  exact ⟨t, eq, replies, same, size, count ▸ size⟩

end OhMyOs.Libs.GrowableQueueRuns
