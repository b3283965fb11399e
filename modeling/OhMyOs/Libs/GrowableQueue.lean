/- GID: OhMyOs/Libs/GrowableQueue
   generality: I
   digest: The growable circular queues of libs/queue.c, and what enqueue and dequeue do to them. -/

import OhMyOs.Include.Bitops
import OhMyOs.Include.Constants
import OhMyOs.Lib.Circular

set_option autoImplicit false
set_option relaxedAutoImplicit false

namespace OhMyOs.Libs.GrowableQueue

open OhMyOs.Include.Constants
open OhMyOs.Include.Bitops OhMyOs.Lib.Circular

/-! ### The code -/

def minCapacity : Nat := 8

/-- The bytes behind every pointer from kmalloc, and how many there are. -/
structure Mem where
  bytes : Nat → Nat → Byte
  size : Nat → Nat

structure Queue where
  base : Nat
  elementSize : Nat
  front : Nat
  rear : Nat
  capacity : Nat

def kmalloc (m : Mem) (ptr size : Nat) : Mem := { m with size := Function.update m.size ptr size }

def put (m : Mem) (ptr off : Nat) (b : Byte) : Mem :=
  { m with bytes := Function.update m.bytes ptr (Function.update (m.bytes ptr) off b) }

/-- `memcpy` between two blocks; `none` if a byte lies outside its block. -/
def memcpy (m : Mem) (dst dstOff src srcOff : Nat) : Nat → Option Mem
  | 0 => some m
  | n + 1 =>
    if srcOff < m.size src ∧ dstOff < m.size dst then
      memcpy (put m dst dstOff (m.bytes src srcOff)) dst (dstOff + 1) src (srcOff + 1) n
    else none

def memcpyFrom (m : Mem) (dst off : Nat) : List Byte → Option Mem
  | [] => some m
  | b :: bs => if off < m.size dst then memcpyFrom (put m dst off b) dst (off + 1) bs else none

def memcpyTo (m : Mem) (src off : Nat) : Nat → Option (List Byte)
  | 0 => some []
  | n + 1 =>
    if off < m.size src then (memcpyTo m src (off + 1) n).map fun bs => m.bytes src off :: bs
    else none

def queueEmpty (que : Queue) : Bool := que.front = que.rear
def queueFull (que : Queue) : Bool := (que.rear + 1) % 2 ^ 32 % que.capacity = que.front
def queueSize (que : Queue) : Nat :=
  wsub ((que.rear + que.capacity) % 2 ^ 32) que.front % que.capacity

def ele (que : Queue) (index : Nat) : Nat := que.elementSize * index % 2 ^ 32

/-- The arguments are what kmalloc returns for the queue and for its block. -/
def queueCreate (m : Mem) (que base : Option Nat) (elementSize : Nat) : Mem × Option Queue :=
  match que, base with
  | some _, some base =>
    (kmalloc m base (minCapacity * elementSize % 2 ^ 32),
      some { base, elementSize, front := 0, rear := 0, capacity := minCapacity })
  | _, _ => (m, none)

/-- `element_size * capacity * 2` -/
def expandSize (que : Queue) : Nat := que.elementSize * que.capacity * 2 % 2 ^ 32

def expandCopy (m : Mem) (que : Queue) (newBase : Nat) : Option Mem :=
  if que.front < que.rear then
    memcpy m newBase 0 que.base (ele que que.front) (queueSize que * que.elementSize % 2 ^ 32)
  else do
    let first := wsub que.capacity que.front * que.elementSize % 2 ^ 32
    let m ← memcpy m newBase 0 que.base (ele que que.front) first
    memcpy m newBase first que.base 0 (que.rear * que.elementSize % 2 ^ 32)

/-- `newBase` is what kmalloc returns. -/
def queueExpand (m : Mem) (que : Queue) (newBase : Option Nat) : Option (Mem × Queue × Int) :=
  match newBase with
  | none => some (m, que, -enomem)
  | some newBase =>
    (expandCopy (kmalloc m newBase (expandSize que)) que newBase).map fun m =>
      (m, { que with
        rear := queueSize que
        front := 0
        base := newBase
        capacity := que.capacity <<< 1 % 2 ^ 32 }, 0)

/-- The part of `__enqueue` after the test. -/
def enqueueStore (m : Mem) (que : Queue) (x : List Byte) : Option (Mem × Queue) :=
  (memcpyFrom m que.base (ele que que.rear) x).map fun m =>
    (m, { que with rear := (que.rear + 1) % 2 ^ 32 % que.capacity })

def enqueue (m : Mem) (que : Queue) (x : List Byte) (newBase : Option Nat) :
    Option (Mem × Queue × Int) :=
  if queueFull que then do
    let (m, que, ret) ← queueExpand m que newBase
    if ret ≠ 0 then return (m, que, ret)
    let (m, que) ← enqueueStore m que x
    return (m, que, 0)
  else do
    let (m, que) ← enqueueStore m que x
    return (m, que, 0)

def dequeue (m : Mem) (que : Queue) : Option (Queue × List Byte × Int) :=
  if queueEmpty que then some (que, [], -enoent)
  else
    (memcpyTo m que.base (ele que que.front) que.elementSize).map fun x =>
      ({ que with front := (que.front + 1) % 2 ^ 32 % que.capacity }, x, 0)

/-! ### Cells -/

def cell (m : Mem) (ptr elementSize i : Nat) : List Byte :=
  (List.range elementSize).map fun k => m.bytes ptr (elementSize * i + k)

def contents (m : Mem) (que : Queue) : List (List Byte) :=
  window (cell m que.base que.elementSize) que.capacity que.front (queueSize que)

/-- The indices lie in the block, and the block is at most 4 MB. -/
structure Valid (m : Mem) (que : Queue) : Prop where
  elementSize : 1 ≤ que.elementSize
  capacity : 2 ≤ que.capacity
  front : que.front < que.capacity
  rear : que.rear < que.capacity
  small : que.elementSize * que.capacity ≤ 2 ^ 22
  block : m.size que.base = que.elementSize * que.capacity

private theorem cell_congr {m m' : Mem} {ptr elementSize i : Nat}
    (same : ∀ k < elementSize, m'.bytes ptr (elementSize * i + k) =
      m.bytes ptr (elementSize * i + k)) :
    cell m' ptr elementSize i = cell m ptr elementSize i := by
  apply List.map_congr_left
  intro k mem
  exact same k (List.mem_range.mp mem)

/-! ### Copies -/

structure Copied (m m' : Mem) (dst off n : Nat) (new : Nat → Byte) : Prop where
  size : m'.size = m.size
  others : ∀ ptr, ptr ≠ dst → m'.bytes ptr = m.bytes ptr
  inside : ∀ k < n, m'.bytes dst (off + k) = new k
  outside : ∀ o, o < off ∨ off + n ≤ o → m'.bytes dst o = m.bytes dst o

private theorem put_same (m : Mem) (ptr off : Nat) (b : Byte) :
    (put m ptr off b).bytes ptr off = b := by
  simp [put]

private theorem put_of_ne (m : Mem) {ptr off o : Nat} (b : Byte) (ne : o ≠ off) :
    (put m ptr off b).bytes ptr o = m.bytes ptr o := by
  simp [put, ne]

private theorem put_other (m : Mem) {ptr other off : Nat} (b : Byte) (ne : other ≠ ptr) :
    (put m ptr off b).bytes other = m.bytes other := by
  simp [put, ne]

private theorem Copied.cons {m m' : Mem} {dst off n : Nat} {new : Nat → Byte}
    (rest : Copied (put m dst off (new 0)) m' dst (off + 1) n fun k => new (k + 1)) :
    Copied m m' dst off (n + 1) new := by
  refine ⟨rest.size, ?_, ?_, ?_⟩
  · intro ptr ne
    rw [rest.others ptr ne, put_other m _ ne]
  · intro k lt
    cases k with
    | zero =>
      rw [Nat.add_zero, rest.outside off (.inl (by omega)), put_same]
    | succ k =>
      rw [show off + (k + 1) = off + 1 + k by omega]
      exact rest.inside k (by omega)
  · intro o away
    rw [rest.outside o (by omega), put_of_ne m _ (by omega)]

private theorem memcpy_copied {dst src : Nat} (ne : src ≠ dst) (n : Nat) {m : Mem}
    {dstOff srcOff : Nat}
    (fits : srcOff + n ≤ m.size src) (fits' : dstOff + n ≤ m.size dst) :
    ∃ m', memcpy m dst dstOff src srcOff n = some m' ∧
      Copied m m' dst dstOff n fun k => m.bytes src (srcOff + k) := by
  induction n generalizing m dstOff srcOff with
  | zero =>
    exact ⟨m, rfl, rfl, fun _ _ => rfl, fun _ lt => absurd lt (Nat.not_lt_zero _), fun _ _ => rfl⟩
  | succ n ih =>
    have inside : srcOff < m.size src ∧ dstOff < m.size dst := ⟨by omega, by omega⟩
    obtain ⟨m', copy, copied⟩ := @ih (put m dst dstOff (m.bytes src srcOff)) (dstOff + 1)
      (srcOff + 1) (show _ ≤ m.size src by omega) (show _ ≤ m.size dst by omega)
    refine ⟨m', by rw [memcpy, if_pos inside, copy], Copied.cons ?_⟩
    rw [put_other m _ ne] at copied
    simpa only [Nat.add_zero, Nat.add_assoc, Nat.add_comm 1] using copied

private theorem memcpyFrom_copied {dst : Nat} (x : List Byte) {m : Mem} {off : Nat}
    (fits : off + x.length ≤ m.size dst) :
    ∃ m', memcpyFrom m dst off x = some m' ∧
      Copied m m' dst off x.length fun k => x.getD k 0 := by
  induction x generalizing m off with
  | nil =>
    exact ⟨m, rfl, rfl, fun _ _ => rfl, fun _ lt => absurd lt (Nat.not_lt_zero _), fun _ _ => rfl⟩
  | cons b bs ih =>
    rw [List.length_cons] at fits
    have inside : off < m.size dst := by omega
    obtain ⟨m', copy, copied⟩ := @ih (put m dst off b) (off + 1) (show _ ≤ m.size dst by omega)
    exact ⟨m', by rw [memcpyFrom, if_pos inside, copy], Copied.cons copied⟩

private theorem memcpyTo_eq (m : Mem) (src n : Nat) {off : Nat} (fits : off + n ≤ m.size src) :
    memcpyTo m src off n = some ((List.range n).map fun k => m.bytes src (off + k)) := by
  induction n generalizing off with
  | zero => rfl
  | succ n ih =>
    have inside : off < m.size src := by omega
    rw [memcpyTo, if_pos inside, ih (by omega), List.range_succ_eq_map]
    simp [Function.comp_def, Nat.add_assoc, Nat.add_comm 1]

private theorem Copied.cell_outside {m m' : Mem} {dst elementSize d c i : Nat} {new : Nat → Byte}
    (copied : Copied m m' dst (elementSize * d) (elementSize * c) new) (away : i < d ∨ d + c ≤ i) :
    cell m' dst elementSize i = cell m dst elementSize i := by
  apply cell_congr
  intro k lt
  apply copied.outside
  rcases away with before | behind
  · left
    have := Nat.mul_le_mul_left elementSize (Nat.succ_le_of_lt before)
    rw [Nat.mul_succ] at this
    omega
  · right
    have := Nat.mul_le_mul_left elementSize behind
    rw [Nat.mul_add] at this
    omega

private theorem Copied.cell_inside {m m' : Mem} {dst elementSize d c k : Nat} {new : Nat → Byte}
    (copied : Copied m m' dst (elementSize * d) (elementSize * c) new) (lt : k < c) :
    cell m' dst elementSize (d + k) =
      (List.range elementSize).map fun j => new (elementSize * k + j) := by
  apply List.map_congr_left
  intro j mem
  have lt' := List.mem_range.mp mem
  have inside : elementSize * k + j < elementSize * c := by
    have := Nat.mul_le_mul_left elementSize (Nat.succ_le_of_lt lt)
    rw [Nat.mul_succ] at this
    omega
  rw [Nat.mul_add, Nat.add_assoc]
  exact copied.inside _ inside

/-! ### Indices -/

section
variable {m : Mem} {que : Queue}

theorem Valid.capacity_le (valid : Valid m que) : que.capacity ≤ 2 ^ 22 := by
  have := Nat.mul_le_mul_right que.capacity valid.elementSize
  have := valid.small
  omega

private theorem Valid.ele_eq (valid : Valid m que) {i : Nat} (le : i ≤ que.capacity) :
    ele que i = que.elementSize * i := by
  have := Nat.mul_le_mul_left que.elementSize le
  have := valid.small
  exact Nat.mod_eq_of_lt (by omega)

private theorem Valid.queueSize_eq (valid : Valid m que) :
    queueSize que = (que.rear + que.capacity - que.front) % que.capacity := by
  have := valid.capacity_le
  have := valid.front
  have := valid.rear
  have fits : que.rear + que.capacity < 2 ^ 32 := by omega
  rw [queueSize, Nat.mod_eq_of_lt fits, wsub_eq (by omega) fits]

private theorem Valid.queueSize_lt (valid : Valid m que) : queueSize que < que.capacity := by
  have := valid.capacity
  rw [valid.queueSize_eq]
  exact Nat.mod_lt _ (by omega)

private theorem Valid.rear_eq (valid : Valid m que) :
    (que.front + queueSize que) % que.capacity = que.rear := by
  have := valid.front
  rw [valid.queueSize_eq, Nat.add_mod_mod, show que.front + (que.rear + que.capacity - que.front) =
    que.rear + que.capacity by omega, Nat.add_mod_right, Nat.mod_eq_of_lt valid.rear]

private theorem Valid.queueSize_unique (valid : Valid m que) {size : Nat} (lt : size < que.capacity)
    (ahead : (que.front + size) % que.capacity = que.rear) : queueSize que = size :=
  add_mod_inj valid.queueSize_lt lt (valid.rear_eq.trans ahead.symm)

theorem Valid.advance (valid : Valid m que) {i : Nat} (lt : i < que.capacity) :
    (i + 1) % 2 ^ 32 % que.capacity = (i + 1) % que.capacity := by
  have := valid.capacity_le
  have fits : i + 1 < 2 ^ 32 := by omega
  rw [Nat.mod_eq_of_lt fits]

theorem Valid.queueFull_iff (valid : Valid m que) :
    queueFull que = true ↔ queueSize que + 1 = que.capacity := by
  have bound := valid.queueSize_lt
  have next : (que.front + (queueSize que + 1)) % que.capacity = (que.rear + 1) % que.capacity := by
    conv_rhs => rw [← valid.rear_eq, Nat.mod_add_mod, Nat.add_assoc]
  rw [queueFull, decide_eq_true_iff, valid.advance valid.rear, ← next]
  constructor
  · intro eq
    by_contra differ
    apply mod_ne (n := que.capacity) (a := que.front)
      (b := que.front + (queueSize que + 1)) (by omega) (by omega)
    rw [eq, Nat.mod_eq_of_lt valid.front]
  · intro eq
    rw [eq, Nat.add_mod_right, Nat.mod_eq_of_lt valid.front]

theorem Valid.queueEmpty_iff (valid : Valid m que) :
    queueEmpty que = true ↔ contents m que = [] := by
  have length : (contents m que).length = queueSize que := window_length ..
  rw [queueEmpty, decide_eq_true_iff, ← List.length_eq_zero_iff, length]
  constructor
  · intro eq
    have := valid.capacity
    apply valid.queueSize_unique (by omega)
    rw [Nat.add_zero, Nat.mod_eq_of_lt valid.front, eq]
  · intro empty
    have rear := valid.rear_eq
    rw [empty, Nat.add_zero, Nat.mod_eq_of_lt valid.front] at rear
    exact rear

theorem queueCreate_valid {m m' : Mem} {ptr base elementSize : Nat} (positive : 1 ≤ elementSize)
    (small : minCapacity * elementSize ≤ 2 ^ 22)
    (create : queueCreate m (some ptr) (some base) elementSize = (m', some que)) :
    Valid m' que ∧ contents m' que = [] := by
  obtain ⟨mem, made⟩ := Prod.mk.inj create
  obtain rfl := Option.some.inj made
  have block : m'.size base = elementSize * minCapacity := by
    rw [← mem]
    show Function.update m.size base _ base = _
    rw [Function.update_self, Nat.mod_eq_of_lt (by omega), Nat.mul_comm]
  have valid : Valid m' ⟨base, elementSize, 0, 0, minCapacity⟩ :=
    { elementSize := positive
      capacity := (by decide : 2 ≤ minCapacity)
      front := (by decide : 0 < minCapacity)
      rear := (by decide : 0 < minCapacity)
      small := by rw [Nat.mul_comm]; exact small
      block := block }
  exact ⟨valid, valid.queueEmpty_iff.mp rfl⟩

/-! ### The stores of `__enqueue` -/

def stored (que : Queue) : Queue := { que with rear := (que.rear + 1) % que.capacity }

private theorem range_map_getD (x : List Byte) :
    ((List.range x.length).map fun k => x.getD k 0) = x := by
  apply List.ext_getElem
  · simp
  · intro k lt lt'
    simp [List.getD_eq_getElem?_getD, lt']

private theorem enqueueStore_spec (valid : Valid m que) {x : List Byte}
    (length : x.length = que.elementSize)
    (room : queueFull que = false) :
    ∃ m', enqueueStore m que x = some (m', stored que) ∧
      Copied m m' que.base (que.elementSize * que.rear) (que.elementSize * 1)
        (fun k => x.getD k 0) ∧
      Valid m' (stored que) ∧ contents m' (stored que) = contents m que ++ [x] := by
  have bound := valid.queueSize_lt
  have free : queueSize que + 1 < que.capacity := by
    have notFull : ¬ queueSize que + 1 = que.capacity := by
      rw [← valid.queueFull_iff, room]
      exact Bool.false_ne_true
    omega
  have fits : que.elementSize * que.rear + x.length ≤ m.size que.base := by
    have := Nat.mul_le_mul_left que.elementSize (Nat.succ_le_of_lt valid.rear)
    rw [valid.block, length]
    rwa [Nat.mul_succ] at this
  obtain ⟨m', copy, copied⟩ := memcpyFrom_copied x fits
  rw [length, ← Nat.mul_one que.elementSize, Nat.mul_assoc, Nat.one_mul] at copied
  have kept : Valid m' (stored que) :=
    { valid with
      rear := Nat.mod_lt _ (Nat.zero_lt_of_lt valid.rear)
      block := by
        rw [copied.size]
        exact valid.block }
  refine ⟨m', ?_, copied, kept, ?_⟩
  · rw [enqueueStore, valid.ele_eq valid.rear.le, copy, valid.advance valid.rear]
    rfl
  · have cells : cell m' que.base que.elementSize =
        fill (cell m que.base que.elementSize) que.capacity (que.front + queueSize que) [x] := by
      rw [fill_singleton, valid.rear_eq]
      funext i
      by_cases same : i = que.rear
      · subst same
        have new := copied.cell_inside (Nat.zero_lt_one)
        rw [Nat.add_zero] at new
        rw [Function.update_self, new]
        simp only [Nat.mul_zero, Nat.zero_add, ← length]
        exact range_map_getD x
      · rw [Function.update_of_ne same]
        exact copied.cell_outside (by omega)
    have more : queueSize (stored que) = queueSize que + 1 := by
      apply kept.queueSize_unique free
      show (que.front + (queueSize que + 1)) % que.capacity = (que.rear + 1) % que.capacity
      rw [← valid.rear_eq, Nat.mod_add_mod, Nat.add_assoc]
    rw [contents, more]
    show window (cell m' que.base que.elementSize) que.capacity que.front (queueSize que + 1) = _
    rw [cells]
    exact window_push _ [x] free.le

/-! ### `__queue_expand` -/

def expanded (que : Queue) (newBase : Nat) : Queue :=
  { que with rear := queueSize que, front := 0, base := newBase, capacity := 2 * que.capacity }

private theorem Valid.bytes_eq (valid : Valid m que) {i : Nat} (le : i ≤ que.capacity) :
    i * que.elementSize % 2 ^ 32 = que.elementSize * i := by
  rw [Nat.mul_comm]
  exact valid.ele_eq le

private theorem memcpy_elements {newBase elementSize d s c : Nat} {base : Nat} (ne : base ≠ newBase)
    (fits : elementSize * (s + c) ≤ m.size base)
    (fits' : elementSize * (d + c) ≤ m.size newBase) :
    ∃ m', memcpy m newBase (elementSize * d) base (elementSize * s) (elementSize * c) = some m' ∧
      m'.size = m.size ∧ (∀ ptr, ptr ≠ newBase → m'.bytes ptr = m.bytes ptr) ∧
      (∀ k < c, cell m' newBase elementSize (d + k) = cell m base elementSize (s + k)) ∧
      ∀ k < d, cell m' newBase elementSize k = cell m newBase elementSize k := by
  rw [Nat.mul_add] at fits fits'
  obtain ⟨m', copy, copied⟩ := memcpy_copied ne (elementSize * c) fits fits'
  refine ⟨m', copy, copied.size, copied.others, ?_, ?_⟩
  · intro k lt
    rw [copied.cell_inside lt]
    apply List.map_congr_left
    intro j _
    rw [Nat.mul_add, Nat.add_assoc]
  · intro k lt
    exact copied.cell_outside (.inl lt)

private theorem expandCopy_spec (valid : Valid m que) {newBase : Nat} (fresh : que.base ≠ newBase)
    (size : m.size newBase = que.elementSize * que.capacity * 2) :
    ∃ m', expandCopy m que newBase = some m' ∧ m'.size = m.size ∧
      (∀ ptr, ptr ≠ newBase → m'.bytes ptr = m.bytes ptr) ∧
      ∀ k < queueSize que, cell m' newBase que.elementSize k =
        cell m que.base que.elementSize ((que.front + k) % que.capacity) := by
  have front := valid.front
  have rear := valid.rear
  have room : ∀ {i : Nat}, i ≤ 2 * que.capacity → que.elementSize * i ≤ m.size newBase := by
    intro i le
    have := Nat.mul_le_mul_left que.elementSize le
    rw [size, Nat.mul_assoc, Nat.mul_comm que.capacity]
    exact this
  have block : ∀ {i : Nat}, i ≤ que.capacity → que.elementSize * i ≤ m.size que.base := by
    intro i le
    rw [valid.block]
    exact Nat.mul_le_mul_left _ le
  unfold expandCopy
  by_cases order : que.front < que.rear
  · have count : queueSize que = que.rear - que.front := by
      apply valid.queueSize_unique (by omega)
      rw [Nat.add_sub_cancel' order.le, Nat.mod_eq_of_lt rear]
    obtain ⟨m', copy, sizes, others, cells, -⟩ := memcpy_elements (d := 0) (s := que.front)
      (c := que.rear - que.front) fresh (block (by omega)) (room (by omega))
    rw [if_pos order, valid.ele_eq front.le, count, valid.bytes_eq (by omega)]
    refine ⟨m', copy, sizes, others, ?_⟩
    intro k lt
    rw [← Nat.zero_add k, cells k lt, Nat.zero_add, Nat.mod_eq_of_lt (by omega)]
  · -- The elements up to the end of the block, then those from its start.
    have tail : wsub que.capacity que.front = que.capacity - que.front :=
      wsub_eq front.le (by have := valid.capacity_le; omega)
    obtain ⟨m₁, copy₁, sizes₁, others₁, cells₁, -⟩ := memcpy_elements (d := 0) (s := que.front)
      (c := que.capacity - que.front) fresh (block (by omega)) (room (by omega))
    obtain ⟨m₂, copy₂, sizes₂, others₂, cells₂, kept⟩ := memcpy_elements (m := m₁)
      (d := que.capacity - que.front) (s := 0) (c := que.rear) fresh
      (by rw [sizes₁]; exact block (by omega)) (by rw [sizes₁]; exact room (by omega))
    rw [if_neg order, valid.ele_eq front.le, tail, valid.bytes_eq (by omega),
      valid.bytes_eq rear.le]
    refine ⟨m₂, ?_, sizes₂.trans sizes₁, ?_, ?_⟩
    · rw [Nat.mul_zero] at copy₁ copy₂
      simp only [copy₁, copy₂, Option.bind_eq_bind, Option.bind_some]
    · intro ptr ne
      rw [others₂ ptr ne, others₁ ptr ne]
    · intro k lt
      have count : queueSize que ≤ que.capacity - que.front + que.rear := by
        rw [valid.queueSize_eq]
        exact (Nat.mod_le _ _).trans (by omega)
      rcases Nat.lt_or_ge k (que.capacity - que.front) with first | second
      · rw [kept k first, ← Nat.zero_add k, cells₁ k first, Nat.zero_add,
          Nat.mod_eq_of_lt (by omega)]
      · obtain ⟨j, rfl⟩ := Nat.exists_eq_add_of_le second
        have wrapped : (que.front + (que.capacity - que.front + j)) % que.capacity = j := by
          rw [← Nat.add_assoc, Nat.add_sub_cancel' front.le, Nat.add_mod_left,
            Nat.mod_eq_of_lt (by omega)]
        rw [cells₂ j (by omega), Nat.zero_add, wrapped]
        apply cell_congr
        intro i _
        rw [others₁ _ fresh]

private theorem Valid.expandSize_eq (valid : Valid m que) :
    expandSize que = que.elementSize * (2 * que.capacity) := by
  have small := valid.small
  rw [Nat.mul_comm 2, ← Nat.mul_assoc]
  exact Nat.mod_eq_of_lt (by omega)

private theorem Valid.expanded {m' : Mem} {newBase : Nat} (valid : Valid m que)
    (limit : expandSize que ≤ 2 ^ 22) (block : m'.size newBase = expandSize que) :
    Valid m' (expanded que newBase) := by
  have bound := valid.queueSize_lt
  rw [valid.expandSize_eq] at limit block
  exact
    { elementSize := valid.elementSize
      capacity := show 2 ≤ 2 * que.capacity by omega
      front := show 0 < 2 * que.capacity by omega
      rear := show queueSize que < 2 * que.capacity by omega
      small := limit
      block := block }

private theorem queueExpand_spec (valid : Valid m que) {newBase : Nat} (fresh : que.base ≠ newBase)
    (limit : expandSize que ≤ 2 ^ 22) :
    ∃ m', queueExpand m que (some newBase) = some (m', expanded que newBase, 0) ∧
      (∀ ptr, ptr ≠ newBase → m'.size ptr = m.size ptr ∧ m'.bytes ptr = m.bytes ptr) ∧
      Valid m' (expanded que newBase) ∧ contents m' (expanded que newBase) = contents m que ∧
      queueFull (expanded que newBase) = false := by
  have bound := valid.queueSize_lt
  have grown : Valid (kmalloc m newBase (expandSize que)) que := by
    refine { valid with block := ?_ }
    show Function.update m.size newBase _ que.base = _
    rw [Function.update_of_ne fresh, valid.block]
  have size : (kmalloc m newBase (expandSize que)).size newBase = expandSize que :=
    Function.update_self ..
  obtain ⟨m', copy, sizes, others, cells⟩ := expandCopy_spec grown fresh (by
    rw [size, valid.expandSize_eq, Nat.mul_comm 2, Nat.mul_assoc])
  have capacity : que.capacity <<< 1 % 2 ^ 32 = 2 * que.capacity := by
    have := valid.capacity_le
    rw [Nat.shiftLeft_eq, Nat.pow_one, Nat.mul_comm]
    exact Nat.mod_eq_of_lt (by omega)
  have kept : Valid m' (expanded que newBase) := valid.expanded limit (by rw [sizes, size])
  have count : queueSize (expanded que newBase) = queueSize que := by
    apply kept.queueSize_unique (show queueSize que < 2 * que.capacity by omega)
    show (0 + queueSize que) % (2 * que.capacity) = queueSize que
    rw [Nat.zero_add, Nat.mod_eq_of_lt (by omega)]
  refine ⟨m', ?_, ?_, kept, ?_, ?_⟩
  · simp only [queueExpand, copy, Option.map_some, capacity]
    rfl
  · intro ptr ne
    refine ⟨?_, others ptr ne⟩
    rw [sizes]
    exact Function.update_of_ne ne _ _
  · rw [contents, count]
    apply List.map_congr_left
    intro k mem
    have lt := List.mem_range.mp mem
    show cell m' newBase que.elementSize ((0 + k) % (2 * que.capacity)) = _
    rw [Nat.zero_add, Nat.mod_eq_of_lt (by omega), cells k lt]
    rfl
  · apply Bool.eq_false_iff.mpr
    rw [ne_eq, kept.queueFull_iff, count]
    show ¬ queueSize que + 1 = 2 * que.capacity
    omega

/-! ### Calls -/

inductive Enqueued (m : Mem) (que : Queue) (x : List Byte) : Option Nat → Mem → Queue → Int → Prop
  | failed (full : queueFull que = true) : Enqueued m que x none m que (-enomem)
  | stored {newBase : Option Nat} {m' : Mem} (room : queueFull que = false)
      (copied : Copied m m' que.base (que.elementSize * que.rear) (que.elementSize * 1)
        fun k => x.getD k 0) :
      Enqueued m que x newBase m' (stored que) 0
  | moved {newBase : Nat} {m' : Mem} (full : queueFull que = true)
      (others : ∀ ptr, ptr ≠ newBase → m'.bytes ptr = m.bytes ptr) :
      Enqueued m que x (some newBase) m' (GrowableQueue.stored (expanded que newBase)) 0

/-- kmalloc returns NULL or a block of its own, and NULL above 4 MB. -/
def Granted (que : Queue) (newBase : Option Nat) : Prop :=
  ∀ ptr, newBase = some ptr → que.base ≠ ptr ∧ expandSize que ≤ 2 ^ 22

theorem enqueue_spec (valid : Valid m que) {x : List Byte} (length : x.length = que.elementSize)
    {newBase : Option Nat} (granted : Granted que newBase) :
    ∃ m' que' ret, enqueue m que x newBase = some (m', que', ret) ∧
      Enqueued m que x newBase m' que' ret ∧ Valid m' que' ∧
      contents m' que' = if ret = 0 then contents m que ++ [x] else contents m que := by
  unfold enqueue
  cases full : queueFull que with
  | false =>
    obtain ⟨m', store, copied, kept, more⟩ := enqueueStore_spec valid length full
    refine ⟨m', stored que, 0, ?_, .stored full copied, kept, more⟩
    simp only [Bool.false_eq_true, if_false, store, Option.bind_eq_bind, Option.bind_some]
    rfl
  | true =>
    cases newBase with
    | none => exact ⟨m, que, -enomem, rfl, .failed full, valid, rfl⟩
    | some ptr =>
      obtain ⟨fresh, limit⟩ := granted ptr rfl
      obtain ⟨m₁, expand, others, kept, same, room⟩ := queueExpand_spec valid fresh limit
      obtain ⟨m₂, store, copied, kept', more⟩ := enqueueStore_spec kept length room
      refine ⟨m₂, _, 0, ?_, .moved full ?_, kept', ?_⟩
      · simp only [if_true, expand, Option.bind_eq_bind, Option.bind_some, ne_eq,
          not_true_eq_false, if_false, store]
        rfl
      · intro other ne
        rw [copied.others other ne, (others other ne).2]
      · rw [more, same]
        rfl

theorem contents_eq_cons (valid : Valid m que) (nonempty : contents m que ≠ []) :
    contents m que = cell m que.base que.elementSize que.front ::
      contents m { que with front := (que.front + 1) % que.capacity } := by
  have length : (contents m que).length = queueSize que := window_length ..
  have positive : 0 < queueSize que := by
    rw [← length]
    exact List.length_pos_iff.mpr nonempty
  have bound := valid.queueSize_lt
  have next : Valid m { que with front := (que.front + 1) % que.capacity } :=
    { valid with front := Nat.mod_lt _ (Nat.zero_lt_of_lt valid.front) }
  have less : queueSize { que with front := (que.front + 1) % que.capacity } =
      queueSize que - 1 := by
    apply next.queueSize_unique (show queueSize que - 1 < que.capacity by omega)
    show ((que.front + 1) % que.capacity + (queueSize que - 1)) % que.capacity = que.rear
    rw [Nat.mod_add_mod, show que.front + 1 + (queueSize que - 1) = que.front + queueSize que by
      omega, valid.rear_eq]
  rw [contents, contents, less, show queueSize que = 1 + (queueSize que - 1) by omega, window_add,
    window_one, Nat.mod_eq_of_lt valid.front, Nat.add_sub_cancel_left]
  show _ :: window _ _ _ _ = _ :: window _ _ _ _
  congr 1
  exact window_congr _ (Nat.mod_mod _ _).symm _

def shortened (que : Queue) : Queue := { que with front := (que.front + 1) % que.capacity }

theorem Valid.shortened (valid : Valid m que) : Valid m (shortened que) :=
  { valid with front := Nat.mod_lt _ (Nat.zero_lt_of_lt valid.front) }

theorem dequeue_empty (empty : queueEmpty que = true) :
    dequeue m que = some (que, [], -enoent) := by
  rw [dequeue, if_pos empty]

theorem dequeue_spec (valid : Valid m que) (some' : queueEmpty que = false) :
    ∃ x, dequeue m que = some (shortened que, x, 0) ∧
      contents m que = x :: contents m (shortened que) := by
  have nonempty : contents m que ≠ [] := by
    rw [ne_eq, ← valid.queueEmpty_iff, some']
    exact Bool.false_ne_true
  have fits : que.elementSize * que.front + que.elementSize ≤ m.size que.base := by
    have := Nat.mul_le_mul_left que.elementSize (Nat.succ_le_of_lt valid.front)
    rwa [valid.block, ← Nat.mul_succ]
  refine ⟨cell m que.base que.elementSize que.front, ?_, contents_eq_cons valid nonempty⟩
  rw [dequeue, some', valid.ele_eq valid.front.le, memcpyTo_eq m _ _ fits,
    valid.advance valid.front]
  rfl

theorem contents_length : (contents m que).length = queueSize que := window_length ..

end

end OhMyOs.Libs.GrowableQueue
