/- GID: OhMyOs/Kernel/KeyboardInput
   generality: I
   digest: The shell reads stdio_que while keyboard interrupts enqueue into it. -/

import OhMyOs.Lib.Runs
import OhMyOs.Libs.GrowableQueue

set_option autoImplicit false
set_option relaxedAutoImplicit false

namespace OhMyOs.Kernel.KeyboardInput

open OhMyOs.Include.Constants
open OhMyOs.Lib.Runs OhMyOs.Lib.Circular OhMyOs.Libs.GrowableQueue

/-! ### A reader and interrupts -/

/-- How far a `readchar` has come, with what it has read; each step is one access to memory. -/
inductive Reader
  | idle
  /-- `queue_empty` of `readchar` has read `front`. -/
  | polled (front : Nat)
  | ready
  /-- `queue_empty` of `__dequeue` has read `front`. -/
  | checked (front : Nat)
  | nonempty
  /-- `__ele` is called with `front`, and reads `base` and `element_size`. -/
  | atFront (front : Nat)
  | atBase (front base : Nat)
  | atSize (front base elementSize : Nat)
  | copied (c : Byte)
  | frontRead (c : Byte) (front : Nat)
  | capacityRead (c : Byte) (front capacity : Nat)
  deriving DecidableEq

/-- The queue, the reader, every block that kmalloc returned for the queue, the characters that
`__enqueue` has stored and those that `readchar` has returned. -/
structure InputState where
  mem : Mem
  que : Queue
  reader : Reader
  blocks : List Nat
  enqueued : List Byte
  returned : List Byte

/-- The next access of `readchar`. If `__dequeue` finds the queue empty, the character returned is
a variable that was never set, `junk`. -/
def readerStep (s : InputState) (junk : Byte) : InputState :=
  match s.reader with
  | .idle => { s with reader := .polled s.que.front }
  | .polled front => { s with reader := if front = s.que.rear then .idle else .ready }
  | .ready => { s with reader := .checked s.que.front }
  | .checked front =>
    if front = s.que.rear then { s with reader := .idle, returned := s.returned ++ [junk] }
    else { s with reader := .nonempty }
  | .nonempty => { s with reader := .atFront s.que.front }
  | .atFront front => { s with reader := .atBase front s.que.base }
  | .atBase front base => { s with reader := .atSize front base s.que.elementSize }
  | .atSize front base elementSize =>
    { s with reader := .copied (s.mem.bytes base (elementSize * front % 2 ^ 32)) }
  | .copied c => { s with reader := .frontRead c s.que.front }
  | .frontRead c front => { s with reader := .capacityRead c front s.que.capacity }
  | .capacityRead c front capacity =>
    { s with
      que := { s.que with front := (front + 1) % 2 ^ 32 % capacity }
      reader := .idle
      returned := s.returned ++ [c] }

inductive InputOp
  | interrupt (c : Byte) (newBase : Option Nat)
  | step (junk : Byte)

/-- `newBase` is what kmalloc returns if the queue has to grow. -/
def inputOp (s : InputState) : InputOp → Option InputState
  | .interrupt c newBase => do
    let (mem, que, ret) ← enqueue s.mem s.que [c] newBase
    return { s with
      mem := mem
      que := que
      blocks := newBase.toList ++ s.blocks
      enqueued := if ret = 0 then s.enqueued ++ [c] else s.enqueued }
  | .step junk => some (readerStep s junk)

/-- kmalloc returns NULL or a block that is not in use, and NULL above 4 MB. -/
def allowed (s : InputState) : InputOp → Bool
  | .interrupt _ newBase =>
    newBase.all fun ptr => decide (ptr ∉ s.blocks) && decide (expandSize s.que ≤ 2 ^ 22)
  | .step _ => true

/-- The index that the reader has read and goes on to use with a field that it has not read. -/
def Reader.index : Reader → Option Nat
  | .atFront front => some front
  | .frontRead _ front => some front
  | .capacityRead _ front _ => some front
  | _ => none

/-- A full queue is not moved while the reader relies on an index other than 0. -/
def calm (s : InputState) : InputOp → Bool
  | .interrupt _ _ => !queueFull s.que || s.reader.index.all fun front => front = 0
  | .step _ => true

structure Created (s : InputState) : Prop where
  que : ∃ m ptr base, queueCreate m (some ptr) (some base) 1 = (s.mem, some s.que)
  blocks : s.blocks = [s.que.base]
  reader : s.reader = .idle
  enqueued : s.enqueued = []
  returned : s.returned = []

/-! ### The invariant -/

def InputState.next (s : InputState) : Option Byte := s.enqueued[s.returned.length]?

def Reader.Ok (s : InputState) : Reader → Prop
  | .idle => True
  | .polled front => front = s.que.front ∨ s.next ≠ none
  | .ready | .nonempty => s.next ≠ none
  | .checked front =>
    s.next ≠ none ∧ (front = s.que.front ∨ s.que.front = 0 ∧ front < s.que.rear)
  | .atFront front => s.next ≠ none ∧ front = s.que.front
  | .atBase front base =>
    base ∈ s.blocks ∧ (base = s.que.base → front = s.que.front) ∧ front < 2 ^ 32 ∧
      s.next = some (s.mem.bytes base front)
  | .atSize front base elementSize =>
    base ∈ s.blocks ∧ (base = s.que.base → front = s.que.front) ∧ front < 2 ^ 32 ∧
      s.next = some (s.mem.bytes base front) ∧ elementSize = 1
  | .copied c => s.next = some c
  | .frontRead c front => s.next = some c ∧ front = s.que.front
  | .capacityRead c front capacity =>
    s.next = some c ∧ front = s.que.front ∧ 2 ≤ capacity ∧
      (capacity = s.que.capacity ∨ front = 0)

structure Orderly (s : InputState) : Prop where
  valid : Valid s.mem s.que
  elementSize : s.que.elementSize = 1
  base : s.que.base ∈ s.blocks
  ahead : s.returned <+: s.enqueued
  rest : contents s.mem s.que = (s.enqueued.drop s.returned.length).map fun c => [c]
  reader : s.reader.Ok s

private theorem Created.orderly {s : InputState} (created : Created s) : Orderly s := by
  obtain ⟨⟨m, ptr, base, create⟩, blocks, reader, enqueued, returned⟩ := created
  obtain ⟨valid, empty⟩ := queueCreate_valid (by decide) (by decide) create
  have made := Option.some.inj (Prod.mk.inj create).2
  refine ⟨valid, by rw [← made], by rw [blocks]; exact List.mem_singleton.mpr rfl, ?_, ?_, ?_⟩
  · rw [returned]
    exact List.nil_prefix
  · rw [empty, enqueued, List.drop_nil, List.map_nil]
  · rw [reader]
    trivial

section
variable {s t : InputState}

private theorem Orderly.next_ne_none (inv : Orderly s) :
    s.next ≠ none ↔ contents s.mem s.que ≠ [] := by
  rw [inv.rest, InputState.next, ne_eq, List.getElem?_eq_none_iff, ne_eq, List.map_eq_nil_iff,
    List.drop_eq_nil_iff]

private theorem Orderly.front_byte (inv : Orderly s) (nonempty : s.next ≠ none) :
    s.next = some (s.mem.bytes s.que.base s.que.front) := by
  have head := contents_eq_cons inv.valid (inv.next_ne_none.mp nonempty)
  rw [inv.rest] at head
  cases rest : s.enqueued.drop s.returned.length with
  | nil => simp [rest] at head
  | cons c cs =>
    rw [rest, List.map_cons] at head
    have first := (List.cons.inj head).1
    have byte : cell s.mem s.que.base s.que.elementSize s.que.front =
        [s.mem.bytes s.que.base s.que.front] := by
      rw [inv.elementSize]
      simp [cell]
    rw [byte] at first
    rw [InputState.next, ← (List.cons.inj first).1]
    have getFirst := congrArg List.head? rest
    rwa [List.head?_drop] at getFirst

private theorem Orderly.front_ne_rear (inv : Orderly s) (nonempty : s.next ≠ none) :
    s.que.front ≠ s.que.rear := by
  intro eq
  exact inv.next_ne_none.mp nonempty (inv.valid.queueEmpty_iff.mp (decide_eq_true eq))

/-! ### The reader -/

private theorem Orderly.read (inv : Orderly s) {reader : Reader} (ok : reader.Ok s) :
    Orderly { s with reader := reader } :=
  { inv with reader := by cases reader <;> exact ok }

private theorem Orderly.finish (inv : Orderly s) {c : Byte} {front capacity : Nat}
    (ok : (Reader.capacityRead c front capacity).Ok s) :
    Orderly { s with
      que := { s.que with front := (front + 1) % 2 ^ 32 % capacity }
      reader := .idle
      returned := s.returned ++ [c] } := by
  obtain ⟨next, rfl, two, known⟩ := ok
  have two' := inv.valid.capacity
  have advance : (s.que.front + 1) % 2 ^ 32 % capacity = (s.que.front + 1) % s.que.capacity := by
    rcases known with rfl | zero
    · exact inv.valid.advance inv.valid.front
    · have one : (0 + 1) % 2 ^ 32 = 1 := rfl
      rw [zero, one, Nat.mod_eq_of_lt two, Nat.zero_add, Nat.mod_eq_of_lt two']
  rw [advance]
  have nonempty : s.next ≠ none := by
    rw [next]
    exact Option.some_ne_none c
  have head := contents_eq_cons inv.valid (inv.next_ne_none.mp nonempty)
  refine
    { valid := { inv.valid with front := Nat.mod_lt _ (by omega) }
      elementSize := inv.elementSize
      base := inv.base
      ahead := prefix_snoc inv.ahead next
      rest := ?_
      reader := trivial }
  rw [inv.rest] at head
  show contents s.mem { s.que with front := (s.que.front + 1) % s.que.capacity } = _
  have tail := congrArg List.tail head
  rw [List.tail_cons, ← List.map_tail, List.tail_drop] at tail
  rw [← tail, List.length_append]
  rfl

private theorem readerStep_orderly (inv : Orderly s) (junk : Byte) :
    Orderly (readerStep s junk) := by
  have ok := inv.reader
  unfold readerStep
  cases reader : s.reader with
  | idle => exact inv.read (.inl rfl)
  | polled front =>
    rw [reader] at ok
    by_cases empty : front = s.que.rear
    · simp only [empty, if_true]
      exact inv.read trivial
    · simp only [empty, if_false]
      apply inv.read
      rcases ok with rfl | nonempty
      · apply inv.next_ne_none.mpr
        intro none
        exact empty (of_decide_eq_true (inv.valid.queueEmpty_iff.mpr none))
      · exact nonempty
  | ready =>
    rw [reader] at ok
    exact inv.read ⟨ok, .inl rfl⟩
  | checked front =>
    rw [reader] at ok
    obtain ⟨nonempty, known⟩ := ok
    have differ : front ≠ s.que.rear := by
      rcases known with rfl | ⟨-, lt⟩
      · exact inv.front_ne_rear nonempty
      · exact Nat.ne_of_lt lt
    simp only [differ, if_false]
    exact inv.read nonempty
  | nonempty =>
    rw [reader] at ok
    exact inv.read ⟨ok, rfl⟩
  | atFront front =>
    rw [reader] at ok
    obtain ⟨nonempty, rfl⟩ := ok
    have small := inv.valid.capacity_le
    have lt := inv.valid.front
    exact inv.read ⟨inv.base, fun _ => rfl, by omega, inv.front_byte nonempty⟩
  | atBase front base =>
    rw [reader] at ok
    obtain ⟨known, same, lt, byte⟩ := ok
    exact inv.read ⟨known, same, lt, byte, inv.elementSize⟩
  | atSize front base elementSize =>
    rw [reader] at ok
    obtain ⟨known, same, lt, byte, rfl⟩ := ok
    apply inv.read
    rw [Nat.one_mul, Nat.mod_eq_of_lt lt]
    exact byte
  | copied c =>
    rw [reader] at ok
    exact inv.read ⟨ok, rfl⟩
  | frontRead c front =>
    rw [reader] at ok
    exact inv.read ⟨ok.1, ok.2, inv.valid.capacity, .inl rfl⟩
  | capacityRead c front capacity =>
    rw [reader] at ok
    exact inv.finish ok

/-! ### Interrupts -/

private theorem Orderly.grow (inv : Orderly s) {m : Mem} {que : Queue} {blocks : List Nat}
    {c : Byte}
    (valid : Valid m que) (elementSize : que.elementSize = 1) (base : que.base ∈ blocks)
    (more : contents m que = contents s.mem s.que ++ [[c]])
    (reader : s.reader.Ok
      { s with mem := m, que := que, blocks := blocks, enqueued := s.enqueued ++ [c] }) :
    Orderly { s with mem := m, que := que, blocks := blocks, enqueued := s.enqueued ++ [c] } := by
  refine ⟨valid, elementSize, base, inv.ahead.trans (List.prefix_append _ _), ?_, reader⟩
  rw [more, inv.rest, List.drop_append_of_le_length inv.ahead.length_le, List.map_append,
    List.map_singleton]

private theorem next_append {enqueued : List Byte} {k : Nat} {b : Byte} (more : List Byte)
    (next : enqueued[k]? = some b) : (enqueued ++ more)[k]? = some b := by
  rw [List.getElem?_append_left (List.getElem?_eq_some_iff.mp next).1, next]

private theorem next_append_ne_none {enqueued : List Byte} {k : Nat} (more : List Byte)
    (next : enqueued[k]? ≠ none) : (enqueued ++ more)[k]? ≠ none := by
  obtain ⟨b, eq⟩ := Option.ne_none_iff_exists'.mp next
  rw [next_append more eq]
  exact Option.some_ne_none b

private theorem Orderly.rear_succ_lt (inv : Orderly s) (room : queueFull s.que = false)
    (zero : s.que.front = 0) : s.que.rear + 1 < s.que.capacity := by
  have rear := inv.valid.rear
  by_contra last
  have end_eq : s.que.rear + 1 = s.que.capacity := by omega
  have full : queueFull s.que = true := by
    rw [queueFull, inv.valid.advance rear, end_eq, Nat.mod_self, zero]
    rfl
  exact Bool.false_ne_true (room.symm.trans full)

private theorem Orderly.front_kept (inv : Orderly s) {m : Mem} {new : Nat → Byte} {front base : Nat}
    (copied : Copied s.mem m s.que.base (s.que.elementSize * s.que.rear) (s.que.elementSize * 1)
      new)
    (same : base = s.que.base → front = s.que.front) (nonempty : s.next ≠ none) :
    m.bytes base front = s.mem.bytes base front := by
  by_cases here : base = s.que.base
  · rw [here, same here]
    apply copied.outside
    have := inv.front_ne_rear nonempty
    rw [inv.elementSize]
    omega
  · rw [copied.others base here]

private theorem Orderly.store (inv : Orderly s) {m : Mem} {c : Byte} {newBase : Option Nat}
    (room : queueFull s.que = false)
    (copied : Copied s.mem m s.que.base (s.que.elementSize * s.que.rear) (s.que.elementSize * 1)
      fun k => [c].getD k 0)
    (valid : Valid m (stored s.que))
    (more : contents m (stored s.que) = contents s.mem s.que ++ [[c]]) :
    Orderly { s with
      mem := m
      que := stored s.que
      blocks := newBase.toList ++ s.blocks
      enqueued := s.enqueued ++ [c] } := by
  have ok := inv.reader
  apply inv.grow valid inv.elementSize (List.mem_append_right _ inv.base) more
  cases reader : s.reader with
  | idle => trivial
  | polled front =>
    rw [reader] at ok
    exact ok.imp id (next_append_ne_none [c])
  | ready | nonempty =>
    rw [reader] at ok
    exact next_append_ne_none [c] ok
  | checked front =>
    rw [reader] at ok
    refine ⟨next_append_ne_none [c] ok.1, ok.2.imp id ?_⟩
    rintro ⟨zero, lt⟩
    refine ⟨zero, ?_⟩
    have inside := inv.rear_succ_lt room zero
    show front < (s.que.rear + 1) % s.que.capacity
    rw [Nat.mod_eq_of_lt inside]
    omega
  | atFront front =>
    rw [reader] at ok
    exact ⟨next_append_ne_none [c] ok.1, ok.2⟩
  | atBase front base =>
    rw [reader] at ok
    obtain ⟨known, same, lt, byte⟩ := ok
    refine ⟨List.mem_append_right _ known, same, lt, ?_⟩
    rw [inv.front_kept copied same (by rw [byte]; exact Option.some_ne_none _)]
    exact next_append [c] byte
  | atSize front base elementSize =>
    rw [reader] at ok
    obtain ⟨known, same, lt, byte, one⟩ := ok
    refine ⟨List.mem_append_right _ known, same, lt, ?_, one⟩
    rw [inv.front_kept copied same (by rw [byte]; exact Option.some_ne_none _)]
    exact next_append [c] byte
  | copied b =>
    rw [reader] at ok
    exact next_append [c] ok
  | frontRead b front =>
    rw [reader] at ok
    exact ⟨next_append [c] ok.1, ok.2⟩
  | capacityRead b front capacity =>
    rw [reader] at ok
    exact ⟨next_append [c] ok.1, ok.2⟩

private theorem Orderly.move (inv : Orderly s) {m : Mem} {c : Byte} {newBase : Nat}
    (full : queueFull s.que = true) (fresh : newBase ∉ s.blocks)
    (calm : ∀ front, s.reader.index = some front → front = 0)
    (others : ∀ ptr, ptr ≠ newBase → m.bytes ptr = s.mem.bytes ptr)
    (valid : Valid m (stored (expanded s.que newBase)))
    (more : contents m (stored (expanded s.que newBase)) = contents s.mem s.que ++ [[c]]) :
    Orderly { s with
      mem := m
      que := stored (expanded s.que newBase)
      blocks := newBase :: s.blocks
      enqueued := s.enqueued ++ [c] } := by
  have two := inv.valid.capacity
  have count := inv.valid.queueFull_iff.mp full
  have nonempty : s.next ≠ none := by
    apply inv.next_ne_none.mpr
    intro empty
    have length : (contents s.mem s.que).length = queueSize s.que := window_length ..
    rw [empty, List.length_nil] at length
    omega
  have rear : (stored (expanded s.que newBase)).rear = s.que.capacity := by
    show (queueSize s.que + 1) % (2 * s.que.capacity) = _
    rw [count, Nat.mod_eq_of_lt (by omega)]
  have elsewhere : ∀ {base : Nat}, base ∈ s.blocks → base ≠ newBase := by
    rintro base known rfl
    exact fresh known
  have ok := inv.reader
  apply inv.grow valid inv.elementSize List.mem_cons_self more
  cases reader : s.reader with
  | idle => trivial
  | polled front => exact .inr (next_append_ne_none [c] nonempty)
  | ready | nonempty => exact next_append_ne_none [c] nonempty
  | checked front =>
    rw [reader] at ok
    refine ⟨next_append_ne_none [c] nonempty, .inr ⟨rfl, ?_⟩⟩
    show front < (stored (expanded s.que newBase)).rear
    rw [rear]
    rcases ok.2 with rfl | ⟨-, lt⟩
    · exact inv.valid.front
    · exact lt.trans inv.valid.rear
  | atFront front =>
    exact ⟨next_append_ne_none [c] nonempty, calm front (by rw [reader]; rfl)⟩
  | atBase front base =>
    rw [reader] at ok
    obtain ⟨known, same, lt, byte⟩ := ok
    refine ⟨List.mem_cons_of_mem _ known, fun eq => absurd eq (elsewhere known), lt, ?_⟩
    rw [others base (elsewhere known)]
    exact next_append [c] byte
  | atSize front base elementSize =>
    rw [reader] at ok
    obtain ⟨known, same, lt, byte, one⟩ := ok
    refine ⟨List.mem_cons_of_mem _ known, fun eq => absurd eq (elsewhere known), lt, ?_, one⟩
    rw [others base (elsewhere known)]
    exact next_append [c] byte
  | copied b =>
    rw [reader] at ok
    exact next_append [c] ok
  | frontRead b front =>
    rw [reader] at ok
    exact ⟨next_append [c] ok.1, calm front (by rw [reader]; rfl)⟩
  | capacityRead b front capacity =>
    rw [reader] at ok
    have zero := calm front (by rw [reader]; rfl)
    exact ⟨next_append [c] ok.1, zero, ok.2.2.1, .inr zero⟩

private theorem interrupt_orderly (inv : Orderly s) {c : Byte} {newBase : Option Nat}
    (ok : allowed s (.interrupt c newBase) = true) (quiet : calm s (.interrupt c newBase) = true)
    (step : inputOp s (.interrupt c newBase) = some t) : Orderly t := by
  have granted : ∀ ptr, newBase = some ptr → ptr ∉ s.blocks ∧ expandSize s.que ≤ 2 ^ 22 := by
    rintro ptr rfl
    simpa [allowed] using ok
  have given : Granted s.que newBase := fun ptr eq =>
    ⟨fun same => (granted ptr eq).1 (same ▸ inv.base), (granted ptr eq).2⟩
  obtain ⟨m, que, ret, call, path, valid, more⟩ :=
    enqueue_spec inv.valid (x := [c]) inv.elementSize.symm given
  simp only [inputOp, call, Option.bind_eq_bind, Option.bind_some, Option.pure_def] at step
  obtain rfl := Option.some.inj step
  cases path with
  | failed full => exact inv
  | stored room copied => exact inv.store room copied valid more
  | moved full others =>
    apply inv.move full (granted _ rfl).1 _ others valid more
    intro front reader
    rw [calm, full, reader] at quiet
    simpa using quiet

private theorem inputOp_orderly {op : InputOp} (inv : Orderly s)
    (ok : (allowed s op && calm s op) = true)
    (step : inputOp s op = some t) : Orderly t := by
  obtain ⟨given, quiet⟩ := Bool.and_eq_true_iff.mp ok
  cases op with
  | interrupt c newBase => exact interrupt_orderly inv given quiet step
  | step junk =>
    obtain rfl := Option.some.inj step
    exact readerStep_orderly inv junk

end

/-- While no interrupt moves a full queue under an index that the reader relies on, the characters
returned are the first of those enqueued. -/
theorem input_run_prefix {s t : InputState} (created : Created s)
    (run : Run inputOp (fun s op => (allowed s op && calm s op) = true) s t) :
    t.returned <+: t.enqueued := by
  have inv : Orderly t :=
    run.invariant created.orderly fun _ _ _ inv ok step => inputOp_orderly inv ok step
  exact inv.ahead

def emptyInput : InputState :=
  { mem := kmalloc ⟨fun _ _ => 0, fun _ => 0⟩ 1 8
    que := ⟨1, 1, 0, 0, 8⟩
    reader := .idle
    blocks := [1]
    enqueued := []
    returned := [] }

private theorem emptyInput_created : Created emptyInput :=
  ⟨⟨⟨fun _ _ => 0, fun _ => 0⟩, 0, 1, rfl⟩, rfl, rfl, rfl, rfl⟩

/-- Interrupts during a read, one of which moves the full queue at index 0. -/
theorem input_run_prefix_moved :
    ∃ t : InputState, t.returned <+: t.enqueued ∧ t.returned = [1] ∧
      t.enqueued = [1, 2, 3, 4, 5, 6, 7, 8] ∧ t.que.base = 2 := by
  have done : (exec inputOp (fun s op => allowed s op && calm s op) emptyInput
      ([1, 2, 3, 4, 5, 6, 7].map (fun c => InputOp.interrupt c none) ++
        List.replicate 5 (.step 0) ++ [.interrupt 8 (some 2)] ++ List.replicate 6 (.step 0))).map
        (fun t => (t.returned, t.enqueued, t.que.base)) =
      some ([1], [1, 2, 3, 4, 5, 6, 7, 8], 2) := by
    decide +kernel
  obtain ⟨t, run, eq⟩ := Option.map_eq_some_iff.mp done
  exact ⟨t, input_run_prefix emptyInput_created (.of_exec run), congrArg Prod.fst eq,
    congrArg (fun r => r.2.1) eq, congrArg (fun r => r.2.2) eq⟩

/-- The queue is full and starts at index 1 when the reader has read `front` and the interrupt
moves the queue: 2 is lost and 3 is returned in its place. -/
theorem input_run_skips :
    ∃ s t : InputState, Created s ∧ Run inputOp (fun s op => allowed s op = true) s t ∧
      t.enqueued = [1, 2, 3, 4, 5, 6, 7, 8, 9] ∧ t.returned = [1, 3] ∧
      ¬ t.returned <+: t.enqueued := by
  have done : (exec inputOp allowed emptyInput
      ([1, 2, 3, 4, 5, 6, 7].map (fun c => InputOp.interrupt c none) ++
        List.replicate 11 (.step 0) ++ [.interrupt 8 none] ++ List.replicate 5 (.step 0) ++
        [.interrupt 9 (some 2)] ++ List.replicate 6 (.step 0))).map
        (fun t => (t.enqueued, t.returned)) =
      some ([1, 2, 3, 4, 5, 6, 7, 8, 9], [1, 3]) := by
    decide +kernel
  obtain ⟨t, run, eq⟩ := Option.map_eq_some_iff.mp done
  have enqueued : t.enqueued = [1, 2, 3, 4, 5, 6, 7, 8, 9] := congrArg Prod.fst eq
  have returned : t.returned = [1, 3] := congrArg Prod.snd eq
  refine ⟨emptyInput, t, emptyInput_created, .of_exec run, enqueued, returned, ?_⟩
  rw [enqueued, returned]
  decide

end OhMyOs.Kernel.KeyboardInput
