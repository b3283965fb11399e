/- GID: OhMyOs/Libs/ByteFifo
   generality: I
   digest: The byte fifo of libs/fifo.c, and that it is a bounded queue. -/

import OhMyOs.Include.Bitops
import OhMyOs.Include.Constants
import OhMyOs.Lib.Circular

set_option autoImplicit false
set_option relaxedAutoImplicit false

namespace OhMyOs.Libs.ByteFifo

open OhMyOs.Include.Constants
open OhMyOs.Include.Bitops OhMyOs.Lib.Circular

/-- `struct fifo`: `inPos` and `outPos` are its fields `in` and `out`, and `room` is how many
bytes there are behind `data`. -/
structure Fifo where
  inPos : Nat
  outPos : Nat
  data : Nat → Byte
  size : Nat
  room : Nat

def fifoInit (data : Nat → Byte) (room size : Nat) : Fifo :=
  { inPos := 0, outPos := 0, data := data, size := size, room := room }

/-- The division traps for size 0, which no caller passes. -/
def fifoLen (f : Fifo) : Nat := wsub ((f.inPos + f.size) % 2 ^ 32) f.outPos % f.size

def fifoAvail (f : Fifo) : Nat := wsub (wsub f.size 1) (fifoLen f)

/-! ### Copies -/

/-- `memcpy` into the buffer; `none` if a byte lies outside it. -/
def memcpyIn (room : Nat) (data : Nat → Byte) (off : Nat) : List Byte → Option (Nat → Byte)
  | [] => some data
  | b :: bs => if off < room then memcpyIn room (Function.update data off b) (off + 1) bs else none

def memcpyOut (room : Nat) (data : Nat → Byte) (off : Nat) : Nat → Option (List Byte)
  | 0 => some []
  | n + 1 =>
    if off < room then (memcpyOut room data (off + 1) n).map fun bs => data off :: bs else none

def firstPart (f : Fifo) (len off : Nat) : Nat := min len (wsub f.size off)

def fifoCopyIn (f : Fifo) (src : List Byte) (off : Nat) : Option Fifo := do
  let l := firstPart f src.length off
  let data ← memcpyIn f.room f.data off (src.take l)
  let data ← memcpyIn f.room data 0 (src.drop l)
  return { f with data }

def fifoCopyOut (f : Fifo) (len off : Nat) : Option (List Byte) := do
  let l := firstPart f len off
  let first ← memcpyOut f.room f.data off l
  let second ← memcpyOut f.room f.data 0 (len - l)
  return first ++ second

/-! ### Calls -/

structure Reply where
  ret : Int
  bytes : List Byte
  deriving DecidableEq

def Fifo.publishIn (f : Fifo) (size : Nat) : Fifo :=
  { f with inPos := (f.inPos + size) % 2 ^ 32 % f.size }

def Fifo.publishOut (f : Fifo) (size : Nat) : Fifo :=
  { f with outPos := (f.outPos + size) % 2 ^ 32 % f.size }

def fifoIn (f : Fifo) (data : List Byte) : Option (Fifo × Reply) :=
  if fifoAvail f < data.length then some (f, ⟨-enospc, []⟩)
  else (fifoCopyIn f data f.inPos).map fun f => (f.publishIn data.length, ⟨0, []⟩)

def fifoOut (f : Fifo) (size : Nat) : Option (Fifo × Reply) :=
  if fifoLen f < size then some (f, ⟨-enoent, []⟩)
  else (fifoCopyOut f size f.outPos).map fun bytes => (f.publishOut size, ⟨0, bytes⟩)

def fifoOutPeek (f : Fifo) (size : Nat) : Option (Fifo × Reply) :=
  if fifoLen f < size then some (f, ⟨-enoent, []⟩)
  else (fifoCopyOut f size f.outPos).map fun bytes => (f, ⟨0, bytes⟩)

def fifoSkip (f : Fifo) (size : Nat) : Option (Fifo × Reply) :=
  if fifoLen f < size then some (f, ⟨-enoent, []⟩)
  else some (f.publishOut size, ⟨0, []⟩)

inductive FifoOp
  | fifoIn (data : List Byte)
  | fifoOut (size : Nat)
  | fifoOutPeek (size : Nat)
  | fifoSkip (size : Nat)

def fifoCall (f : Fifo) : FifoOp → Option (Fifo × Reply)
  | .fifoIn data => fifoIn f data
  | .fifoOut size => fifoOut f size
  | .fifoOutPeek size => fifoOutPeek f size
  | .fifoSkip size => fifoSkip f size

def runFifo (f : Fifo) : List FifoOp → Option (Fifo × List Reply)
  | [] => some (f, [])
  | op :: ops => do
    let (f, reply) ← fifoCall f op
    let (f, replies) ← runFifo f ops
    return (f, reply :: replies)

/-! ### What a fifo is for -/

def queueCall (capacity : Nat) (q : List Byte) : FifoOp → List Byte × Reply
  | .fifoIn data =>
    if data.length ≤ capacity - q.length then (q ++ data, ⟨0, []⟩) else (q, ⟨-enospc, []⟩)
  | .fifoOut size =>
    if size ≤ q.length then (q.drop size, ⟨0, q.take size⟩) else (q, ⟨-enoent, []⟩)
  | .fifoOutPeek size =>
    if size ≤ q.length then (q, ⟨0, q.take size⟩) else (q, ⟨-enoent, []⟩)
  | .fifoSkip size => if size ≤ q.length then (q.drop size, ⟨0, []⟩) else (q, ⟨-enoent, []⟩)

def runQueue (capacity : Nat) (q : List Byte) : List FifoOp → List Byte × List Reply
  | [] => (q, [])
  | op :: ops =>
    let (q, reply) := queueCall capacity q op
    let (q, replies) := runQueue capacity q ops
    (q, reply :: replies)

/-! ### Fifos in use -/

structure Valid (n : Nat) (f : Fifo) : Prop where
  size : f.size = n
  room : f.room = n
  inPos : f.inPos < n
  outPos : f.outPos < n
  pos : 0 < n
  small : n ≤ 2 ^ 31

def contents (f : Fifo) : List Byte := window f.data f.size f.outPos (fifoLen f)

theorem fifoInit_valid (data : Nat → Byte) {n : Nat} (pos : 1 ≤ n) (small : n ≤ 2 ^ 31) :
    Valid n (fifoInit data n n) :=
  ⟨rfl, rfl, pos, pos, pos, small⟩

private theorem fifoInit_contents (data : Nat → Byte) {n : Nat} (small : n ≤ 2 ^ 31) :
    contents (fifoInit data n n) = [] := by
  have len : fifoLen (fifoInit data n n) = 0 := by
    have fits : n < 2 ^ 32 := by omega
    simp only [fifoLen, fifoInit, Nat.zero_add, Nat.mod_eq_of_lt fits,
      wsub_eq (Nat.zero_le n) fits, Nat.sub_zero, Nat.mod_self]
  rw [contents, len, window_zero]

section
variable {n : Nat} {f : Fifo}

private theorem Valid.fifoLen_eq (valid : Valid n f) :
    fifoLen f = (f.inPos + n - f.outPos) % n := by
  obtain ⟨size, room, inPos, outPos, pos, small⟩ := valid
  have fits : f.inPos + n < 2 ^ 32 := by omega
  rw [fifoLen, size, Nat.mod_eq_of_lt fits, wsub_eq (by omega) fits]

private theorem Valid.fifoLen_lt (valid : Valid n f) : fifoLen f < n := by
  rw [valid.fifoLen_eq]
  exact Nat.mod_lt _ valid.pos

private theorem Valid.inPos_eq (valid : Valid n f) : (f.outPos + fifoLen f) % n = f.inPos := by
  have outPos := valid.outPos
  rw [valid.fifoLen_eq, Nat.add_mod_mod, show f.outPos + (f.inPos + n - f.outPos) = f.inPos + n by
    omega, Nat.add_mod_right, Nat.mod_eq_of_lt valid.inPos]

theorem Valid.fifoLen_unique (valid : Valid n f) {len : Nat} (lt : len < n)
    (ahead : (f.outPos + len) % n = f.inPos) : fifoLen f = len :=
  add_mod_inj valid.fifoLen_lt lt (valid.inPos_eq.trans ahead.symm)

theorem Valid.fifoAvail_eq (valid : Valid n f) : fifoAvail f = n - 1 - fifoLen f := by
  have len := valid.fifoLen_lt
  obtain ⟨size, room, inPos, outPos, pos, small⟩ := valid
  have last : wsub n 1 = n - 1 := wsub_eq pos (by omega)
  rw [fifoAvail, size, last, wsub_eq (by omega) (by omega)]

private theorem contents_length : (contents f).length = fifoLen f := window_length ..

/-! ### What the copies do -/

private theorem memcpyIn_eq (data : Nat → Byte) (off : Nat) (src : List Byte)
    (fits : off + src.length ≤ n) : memcpyIn n data off src = some (fill data n off src) := by
  induction src generalizing data off with
  | nil => rfl
  | cons b bs ih =>
    simp only [List.length_cons] at fits
    have inside : off < n := by omega
    rw [memcpyIn, if_pos inside, ih _ _ (by omega), fill, Nat.mod_eq_of_lt inside]

private theorem memcpyOut_eq (data : Nat → Byte) (off len : Nat) (fits : off + len ≤ n) :
    memcpyOut n data off len = some (window data n off len) := by
  induction len generalizing off with
  | zero => rfl
  | succ len ih =>
    have inside : off < n := by omega
    rw [memcpyOut, if_pos inside, ih _ (by omega), Option.map_some, Nat.add_comm len, window_add,
      window_one, Nat.mod_eq_of_lt inside]
    rfl

theorem Valid.firstPart_eq (valid : Valid n f) (len : Nat) {off : Nat} (inside : off < n) :
    firstPart f len off = min len (n - off) := by
  have small := valid.small
  rw [firstPart, valid.size, wsub_eq (by omega) (by omega)]

private theorem Valid.fifoCopyIn_eq (valid : Valid n f) {src : List Byte} {off : Nat}
    (inside : off < n)
    (fits : src.length ≤ n) :
    fifoCopyIn f src off = some { f with data := fill f.data n off src } := by
  have part : (src.take (firstPart f src.length off)).length = min src.length (n - off) := by
    rw [List.length_take, valid.firstPart_eq _ inside]
    omega
  have first := memcpyIn_eq (n := n) f.data off (src.take (firstPart f src.length off)) (by omega)
  have second := memcpyIn_eq (n := n) (fill f.data n off (src.take (firstPart f src.length off))) 0
    (src.drop (firstPart f src.length off))
    (by rw [List.length_drop, valid.firstPart_eq _ inside]; omega)
  have joined : fill f.data n off src = fill (fill f.data n off
      (src.take (firstPart f src.length off))) n 0 (src.drop (firstPart f src.length off)) := by
    conv_lhs => rw [← List.take_append_drop (firstPart f src.length off) src, fill_append, part]
    rcases Nat.le_total src.length (n - off) with short | long
    · rw [valid.firstPart_eq _ inside, Nat.min_eq_left short, List.drop_length]
      rfl
    · rw [Nat.min_eq_right long, Nat.add_sub_cancel' inside.le]
      exact fill_congr _ (by simp) _
  simp only [fifoCopyIn, valid.room, first, second, Option.bind_eq_bind, Option.bind_some, joined]
  rfl

private theorem Valid.fifoCopyOut_eq (valid : Valid n f) {len off : Nat} (inside : off < n)
    (fits : len ≤ n) : fifoCopyOut f len off = some (window f.data n off len) := by
  have part := valid.firstPart_eq len inside
  have first := memcpyOut_eq (n := n) f.data off (firstPart f len off) (by omega)
  have second := memcpyOut_eq (n := n) f.data 0 (len - firstPart f len off) (by omega)
  have joined : window f.data n off len = window f.data n off (firstPart f len off) ++
      window f.data n 0 (len - firstPart f len off) := by
    conv_lhs => rw [← Nat.add_sub_cancel' (show firstPart f len off ≤ len by omega), window_add]
    rcases Nat.le_total len (n - off) with short | long
    · rw [part, Nat.min_eq_left short, Nat.sub_self, window_zero, window_zero]
    · rw [part, Nat.min_eq_right long, Nat.add_sub_cancel' inside.le]
      congr 1
      exact window_congr _ (by simp) _
  simp only [fifoCopyOut, valid.room, first, second, Option.bind_eq_bind, Option.bind_some, joined]
  rfl

/-! ### What publishing does -/

theorem Valid.publishIn_inPos (valid : Valid n f) {len : Nat} (le : len ≤ n) :
    (f.publishIn len).inPos = (f.inPos + len) % n := by
  obtain ⟨size, room, inPos, outPos, pos, small⟩ := valid
  have small' : f.inPos + len < 2 ^ 32 := by omega
  show (f.inPos + len) % 2 ^ 32 % f.size = _
  rw [size, Nat.mod_eq_of_lt small']

theorem Valid.publishOut_outPos (valid : Valid n f) {len : Nat} (le : len ≤ n) :
    (f.publishOut len).outPos = (f.outPos + len) % n := by
  obtain ⟨size, room, inPos, outPos, pos, small⟩ := valid
  have small' : f.outPos + len < 2 ^ 32 := by omega
  show (f.outPos + len) % 2 ^ 32 % f.size = _
  rw [size, Nat.mod_eq_of_lt small']

theorem Valid.publishIn (valid : Valid n f) {len : Nat} (le : len ≤ n) :
    Valid n (f.publishIn len) := by
  refine ⟨valid.size, valid.room, ?_, valid.outPos, valid.pos, valid.small⟩
  rw [valid.publishIn_inPos le]
  exact Nat.mod_lt _ valid.pos

theorem Valid.publishOut (valid : Valid n f) {len : Nat} (le : len ≤ n) :
    Valid n (f.publishOut len) := by
  refine ⟨valid.size, valid.room, valid.inPos, ?_, valid.pos, valid.small⟩
  rw [valid.publishOut_outPos le]
  exact Nat.mod_lt _ valid.pos

private theorem Valid.publishIn_fifoLen (valid : Valid n f) {len : Nat}
    (fits : fifoLen f + len < n) :
    fifoLen (f.publishIn len) = fifoLen f + len := by
  have le : len ≤ n := by omega
  apply (valid.publishIn le).fifoLen_unique fits
  show (f.outPos + (fifoLen f + len)) % n = (f.publishIn len).inPos
  rw [valid.publishIn_inPos le, ← valid.inPos_eq, Nat.mod_add_mod, Nat.add_assoc]

private theorem Valid.publishOut_fifoLen (valid : Valid n f) {len : Nat} (fits : len ≤ fifoLen f) :
    fifoLen (f.publishOut len) = fifoLen f - len := by
  have bound := valid.fifoLen_lt
  have le : len ≤ n := by omega
  apply (valid.publishOut le).fifoLen_unique (by omega)
  show ((f.publishOut len).outPos + (fifoLen f - len)) % n = f.inPos
  rw [valid.publishOut_outPos le, Nat.mod_add_mod, Nat.add_assoc, Nat.add_sub_cancel' fits,
    valid.inPos_eq]

private theorem Valid.publishOut_contents (valid : Valid n f) {len : Nat} (fits : len ≤ fifoLen f) :
    contents (f.publishOut len) = (contents f).drop len := by
  have bound := valid.fifoLen_lt
  rw [contents, valid.publishOut_fifoLen fits, valid.publishOut_outPos (by omega), contents,
    window_drop _ fits]
  show window f.data f.size _ _ = _
  rw [valid.size]
  exact window_congr _ (Nat.mod_mod ..) _

/-! ### The refinement -/

private theorem fifoIn_refines (valid : Valid n f) (data : List Byte) :
    ∃ g reply, fifoIn f data = some (g, reply) ∧ Valid n g ∧
      queueCall (n - 1) (contents f) (.fifoIn data) = (contents g, reply) := by
  have len := valid.fifoLen_lt
  simp only [fifoIn, queueCall, valid.fifoAvail_eq, contents_length]
  by_cases full : n - 1 - fifoLen f < data.length
  · rw [if_pos full, if_neg (by omega)]
    exact ⟨f, _, rfl, valid, rfl⟩
  · rw [if_neg full, if_pos (by omega), valid.fifoCopyIn_eq valid.inPos (by omega)]
    have copied : Valid n { f with data := fill f.data n f.inPos data } :=
      ⟨valid.size, valid.room, valid.inPos, valid.outPos, valid.pos, valid.small⟩
    have same : fifoLen { f with data := fill f.data n f.inPos data } = fifoLen f := rfl
    have more := copied.publishIn_fifoLen (show fifoLen f + data.length < n by omega)
    refine ⟨_, _, rfl, copied.publishIn (by omega), Prod.ext ?_ rfl⟩
    have start : f.inPos % n = (f.outPos + fifoLen f) % n := by
      rw [valid.inPos_eq, Nat.mod_eq_of_lt valid.inPos]
    rw [contents, contents, more, same]
    show window f.data f.size f.outPos (fifoLen f) ++ data =
      window (fill f.data n f.inPos data) f.size f.outPos (fifoLen f + data.length)
    rw [valid.size, fill_congr _ start, window_push f.data data (by omega)]

private theorem fifoOut_refines (valid : Valid n f) (size : Nat) :
    ∃ g reply, fifoOut f size = some (g, reply) ∧ Valid n g ∧
      queueCall (n - 1) (contents f) (.fifoOut size) = (contents g, reply) := by
  have len := valid.fifoLen_lt
  simp only [fifoOut, queueCall, contents_length]
  by_cases short : fifoLen f < size
  · rw [if_pos short, if_neg (by omega)]
    exact ⟨f, _, rfl, valid, rfl⟩
  · rw [if_neg short, if_pos (by omega), valid.fifoCopyOut_eq valid.outPos (by omega)]
    refine ⟨_, _, rfl, valid.publishOut (by omega), ?_⟩
    rw [valid.publishOut_contents (by omega), contents, window_take _ (by omega), valid.size]

private theorem fifoOutPeek_refines (valid : Valid n f) (size : Nat) :
    ∃ g reply, fifoOutPeek f size = some (g, reply) ∧ Valid n g ∧
      queueCall (n - 1) (contents f) (.fifoOutPeek size) = (contents g, reply) := by
  have len := valid.fifoLen_lt
  simp only [fifoOutPeek, queueCall, contents_length]
  by_cases short : fifoLen f < size
  · rw [if_pos short, if_neg (by omega)]
    exact ⟨f, _, rfl, valid, rfl⟩
  · rw [if_neg short, if_pos (by omega), valid.fifoCopyOut_eq valid.outPos (by omega)]
    refine ⟨f, _, rfl, valid, ?_⟩
    rw [contents, window_take _ (by omega), valid.size]

private theorem fifoSkip_refines (valid : Valid n f) (size : Nat) :
    ∃ g reply, fifoSkip f size = some (g, reply) ∧ Valid n g ∧
      queueCall (n - 1) (contents f) (.fifoSkip size) = (contents g, reply) := by
  have len := valid.fifoLen_lt
  simp only [fifoSkip, queueCall, contents_length]
  by_cases short : fifoLen f < size
  · rw [if_pos short, if_neg (by omega)]
    exact ⟨f, _, rfl, valid, rfl⟩
  · rw [if_neg short, if_pos (by omega)]
    refine ⟨_, _, rfl, valid.publishOut (by omega), ?_⟩
    rw [valid.publishOut_contents (by omega)]

private theorem fifoCall_refines (valid : Valid n f) (op : FifoOp) :
    ∃ g reply, fifoCall f op = some (g, reply) ∧ Valid n g ∧
      queueCall (n - 1) (contents f) op = (contents g, reply) := by
  cases op with
  | fifoIn data => exact fifoIn_refines valid data
  | fifoOut size => exact fifoOut_refines valid size
  | fifoOutPeek size => exact fifoOutPeek_refines valid size
  | fifoSkip size => exact fifoSkip_refines valid size

private theorem runFifo_refines (valid : Valid n f) (ops : List FifoOp) :
    ∃ g replies, runFifo f ops = some (g, replies) ∧ Valid n g ∧
      runQueue (n - 1) (contents f) ops = (contents g, replies) := by
  induction ops generalizing f with
  | nil => exact ⟨f, [], rfl, valid, rfl⟩
  | cons op ops ih =>
    obtain ⟨g, reply, call, kept, spec⟩ := fifoCall_refines valid op
    obtain ⟨last, replies, rest, kept', spec'⟩ := ih kept
    refine ⟨last, reply :: replies, ?_, kept', ?_⟩
    · simp only [runFifo, call, rest, Option.bind_eq_bind, Option.bind_some]
      rfl
    · simp only [runQueue, spec, spec']

private theorem fifoCall_failed {g : Fifo} {op : FifoOp} {reply : Reply}
    (call : fifoCall f op = some (g, reply)) (failed : reply.ret ≠ 0) : g = f := by
  have unless_failed : ∀ {c : Prop} [Decidable c] {ret : Int} {next : Option (Fifo × Reply)},
      (if c then some (f, ⟨ret, []⟩) else next) = some (g, reply) →
      (∀ r, next = some r → r.2.ret = 0) → g = f := by
    intro c _ ret next eq done
    split_ifs at eq with h
    · exact (congrArg Prod.fst (Option.some.inj eq)).symm
    · exact absurd (done _ eq) failed
  cases op with
  | fifoIn data =>
    apply unless_failed call
    intro r eq
    obtain ⟨_, _, rfl⟩ := Option.map_eq_some_iff.mp eq
    rfl
  | fifoOut size =>
    apply unless_failed call
    intro r eq
    obtain ⟨_, _, rfl⟩ := Option.map_eq_some_iff.mp eq
    rfl
  | fifoOutPeek size =>
    apply unless_failed call
    intro r eq
    obtain ⟨_, _, rfl⟩ := Option.map_eq_some_iff.mp eq
    rfl
  | fifoSkip size =>
    apply unless_failed call
    intro r eq
    obtain rfl := Option.some.inj eq
    rfl

end

/-- From `fifo_init` on, every sequence of calls stays inside the buffer, returns what a bounded
queue of one byte less than the buffer returns, holds what that queue holds, and a call that fails
changes nothing. -/
theorem fifo_refines_queue (data : Nat → Byte) (n : Nat) (pos : 1 ≤ n) (small : n ≤ 2 ^ 31)
    (ops : List FifoOp) :
    ∃ f replies, runFifo (fifoInit data n n) ops = some (f, replies) ∧
      runQueue (n - 1) [] ops = (contents f, replies) ∧
      ∀ op g reply, fifoCall f op = some (g, reply) → reply.ret ≠ 0 → g = f := by
  obtain ⟨f, replies, run, -, spec⟩ := runFifo_refines (fifoInit_valid data pos small) ops
  rw [fifoInit_contents data small] at spec
  exact ⟨f, replies, run, spec, fun _ _ _ call failed => fifoCall_failed call failed⟩

theorem fifo_refines_queue_three :
    ∃ f replies, runFifo (fifoInit (fun _ => 0) 3 3)
        [.fifoIn [1, 2], .fifoOut 1, .fifoIn [3], .fifoIn [4], .fifoOut 2] = some (f, replies) ∧
      replies = [⟨0, []⟩, ⟨0, [1]⟩, ⟨0, []⟩, ⟨-enospc, []⟩, ⟨0, [2, 3]⟩] := by
  obtain ⟨f, replies, run, spec, -⟩ := fifo_refines_queue (fun _ => 0) 3 (by decide) (by decide)
    [.fifoIn [1, 2], .fifoOut 1, .fifoIn [3], .fifoIn [4], .fifoOut 2]
  refine ⟨f, replies, run, ?_⟩
  have outputs : _ = replies := congrArg Prod.snd spec
  rw [← outputs]
  decide

end OhMyOs.Libs.ByteFifo
