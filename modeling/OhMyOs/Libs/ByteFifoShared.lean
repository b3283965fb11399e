/- GID: OhMyOs/Libs/ByteFifoShared
   generality: I
   digest: One producer and one consumer on a fifo without a lock. -/

import OhMyOs.Lib.Runs
import OhMyOs.Libs.ByteFifo

set_option autoImplicit false
set_option relaxedAutoImplicit false

namespace OhMyOs.Libs.ByteFifo

open OhMyOs.Include.Constants
open OhMyOs.Lib.Circular OhMyOs.Lib.Runs

/-! ### Two threads -/

/-- The producer is outside `fifo_in`, or has passed the space test and copied some bytes. -/
inductive Producer
  | idle
  | copying (data : List Byte) (done : Nat)

/-- The consumer is outside `fifo_out`, or has passed the length test and copied some bytes. -/
inductive Consumer
  | idle
  | copying (size : Nat) (bytes : List Byte)

/-- The fifo, both threads, and the bytes of the `fifo_in` and `fifo_out` calls that succeeded. -/
structure SharedFifo where
  fifo : Fifo
  producer : Producer
  consumer : Consumer
  accepted : List Byte
  returned : List Byte

/-- The place of byte `i` in the two copies of `fifo_copy_in` and `fifo_copy_out`. -/
def copyPlace (f : Fifo) (len off i : Nat) : Nat :=
  if i < firstPart f len off then off + i else i - firstPart f len off

/-- A thread makes its call and reads the other side's index for the test, or goes on in the call
by copying one byte or, once all are copied, by publishing its index. -/
inductive SharedOp
  | fifoIn (data : List Byte)
  | produce
  | fifoOut (size : Nat)
  | consume

def sharedOp (s : SharedFifo) : SharedOp → Option SharedFifo
  | .fifoIn data =>
    match s.producer with
    | .idle =>
      if fifoAvail s.fifo < data.length then some s
      else some { s with producer := .copying data 0 }
    | .copying _ _ => none
  | .produce =>
    match s.producer with
    | .idle => none
    | .copying data done =>
      match data[done]? with
      | some b =>
        let place := copyPlace s.fifo data.length s.fifo.inPos done
        some { s with
          fifo := { s.fifo with data := Function.update s.fifo.data place b }
          producer := .copying data (done + 1) }
      | none =>
        some { s with
          fifo := s.fifo.publishIn data.length
          producer := .idle
          accepted := s.accepted ++ data }
  | .fifoOut size =>
    match s.consumer with
    | .idle =>
      if fifoLen s.fifo < size then some s else some { s with consumer := .copying size [] }
    | .copying _ _ => none
  | .consume =>
    match s.consumer with
    | .idle => none
    | .copying size bytes =>
      if bytes.length < size then
        let place := copyPlace s.fifo size s.fifo.outPos bytes.length
        some { s with consumer := .copying size (bytes ++ [s.fifo.data place]) }
      else
        some { s with
          fifo := s.fifo.publishOut size
          consumer := .idle
          returned := s.returned ++ bytes }

def sharedInit (data : Nat → Byte) (n : Nat) : SharedFifo :=
  { fifo := fifoInit data n n
    producer := .idle
    consumer := .idle
    accepted := []
    returned := [] }

/-! ### The invariant -/

/-- What a producer inside its call knows: its bytes fit behind the accepted ones, and those it
has copied are in place. The test may have read an old `out`, which only made it stricter. -/
def Producer.Ok (n : Nat) (data : Nat → Byte) (accepted returned : Nat) : Producer → Prop
  | .idle => True
  | .copying src done =>
    accepted + src.length < returned + n ∧ done ≤ src.length ∧
      window data n accepted done = src.take done

/-- What a consumer inside its call knows: its bytes have been accepted, and those it has copied
come next. -/
def Consumer.Ok (accepted returned : List Byte) : Consumer → Prop
  | .idle => True
  | .copying size bytes =>
    returned.length + size ≤ accepted.length ∧ bytes.length ≤ size ∧ returned ++ bytes <+: accepted

/-- The indices count the bytes of the calls that succeeded, and the buffer holds the bytes that
were accepted and not returned. -/
structure InStep (n : Nat) (s : SharedFifo) : Prop where
  valid : Valid n s.fifo
  inPos : s.fifo.inPos = s.accepted.length % n
  outPos : s.fifo.outPos = s.returned.length % n
  near : s.accepted.length < s.returned.length + n
  ahead : s.returned <+: s.accepted
  pending : window s.fifo.data n s.returned.length (s.accepted.length - s.returned.length) =
    s.accepted.drop s.returned.length
  producer : s.producer.Ok n s.fifo.data s.accepted.length s.returned.length
  consumer : s.consumer.Ok s.accepted s.returned

private theorem sharedInit_inStep (data : Nat → Byte) {n : Nat} (pos : 1 ≤ n) (small : n ≤ 2 ^ 31) :
    InStep n (sharedInit data n) where
  valid := fifoInit_valid data pos small
  inPos := (Nat.zero_mod n).symm
  outPos := (Nat.zero_mod n).symm
  near := by
    show 0 < 0 + n
    omega
  ahead := List.prefix_refl _
  pending := rfl
  producer := trivial
  consumer := trivial

private theorem Valid.copyPlace_eq {n : Nat} {f : Fifo} (valid : Valid n f) {len off i : Nat}
    (inside : off < n) (lt : i < len) (fits : len ≤ n) : copyPlace f len off i = (off + i) % n := by
  rw [copyPlace, valid.firstPart_eq len inside]
  split_ifs with first
  · rw [Nat.mod_eq_of_lt (by omega)]
  · have turn : off + i = i - min len (n - off) + n := by omega
    rw [turn, Nat.add_mod_right, Nat.mod_eq_of_lt (by omega)]

section
variable {n : Nat} {s t : SharedFifo}

private theorem InStep.fifoLen_eq (inv : InStep n s) :
    fifoLen s.fifo = s.accepted.length - s.returned.length := by
  have le := inv.ahead.length_le
  have near := inv.near
  apply inv.valid.fifoLen_unique (by omega)
  rw [inv.outPos, inv.inPos, Nat.mod_add_mod, Nat.add_sub_cancel' le]

private theorem InStep.pending_byte (inv : InStep n s) {k : Nat}
    (lt : s.returned.length + k < s.accepted.length) :
    s.accepted[s.returned.length + k]? = some (s.fifo.data ((s.returned.length + k) % n)) := by
  rw [← List.getElem?_drop, ← inv.pending, window_getElem? _ (by omega)]

/-! ### The producer's steps -/

private theorem InStep.fifoIn (inv : InStep n s) {data : List Byte}
    (step : sharedOp s (.fifoIn data) = some t) : InStep n t := by
  simp only [sharedOp] at step
  cases prod : s.producer with
  | copying src done => simp [prod] at step
  | idle =>
    simp only [prod] at step
    split_ifs at step with full
    · obtain rfl := Option.some.inj step
      exact inv
    · obtain rfl := Option.some.inj step
      have le := inv.ahead.length_le
      have near := inv.near
      rw [inv.valid.fifoAvail_eq, inv.fifoLen_eq] at full
      have fits : s.accepted.length + data.length < s.returned.length + n := by omega
      exact { inv with producer := ⟨fits, Nat.zero_le _, rfl⟩ }

private theorem InStep.copyByte (inv : InStep n s) {src : List Byte} {done : Nat} {b : Byte}
    (prod : s.producer = .copying src done) (byte : src[done]? = some b) :
    InStep n { s with
      fifo := { s.fifo with
        data := Function.update s.fifo.data (copyPlace s.fifo src.length s.fifo.inPos done) b }
      producer := .copying src (done + 1) } := by
  have known := inv.producer
  rw [prod] at known
  obtain ⟨fits, copied, inPlace⟩ := known
  obtain ⟨lt, rfl⟩ := List.getElem?_eq_some_iff.mp byte
  have le := inv.ahead.length_le
  have place : copyPlace s.fifo src.length s.fifo.inPos done =
      (s.accepted.length + done) % n := by
    rw [inv.valid.copyPlace_eq inv.valid.inPos lt (by omega), inv.inPos, Nat.mod_add_mod]
  have stored : Function.update s.fifo.data (copyPlace s.fifo src.length s.fifo.inPos done)
      src[done] = fill s.fifo.data n (s.accepted.length + done) [src[done]] := by
    rw [place, fill_singleton]
  rw [stored]
  refine { inv with
    valid := ⟨inv.valid.size, inv.valid.room, inv.valid.inPos, inv.valid.outPos, inv.valid.pos,
      inv.valid.small⟩
    pending := ?_
    producer := ⟨fits, lt, ?_⟩ }
  · have behind : s.returned.length + (s.accepted.length - s.returned.length) ≤
        s.accepted.length + done := by omega
    rw [← inv.pending]
    exact window_fill_behind _ _ behind
      (show s.accepted.length + done + 1 ≤ s.returned.length + n by omega)
  · have pushed : window (fill s.fifo.data n (s.accepted.length + done) [src[done]]) n
        s.accepted.length (done + 1) = _ := window_push s.fifo.data [src[done]] (by simp; omega)
    rw [inPlace] at pushed
    rw [List.take_add_one, byte]
    exact pushed

private theorem InStep.acceptAll (inv : InStep n s) {src : List Byte} {done : Nat}
    (prod : s.producer = .copying src done) (last : src[done]? = none) :
    InStep n { s with
      fifo := s.fifo.publishIn src.length
      producer := .idle
      accepted := s.accepted ++ src } := by
  have known := inv.producer
  rw [prod] at known
  obtain ⟨fits, copied, inPlace⟩ := known
  have all : done = src.length := by
    have := List.getElem?_eq_none_iff.mp last
    omega
  subst all
  rw [List.take_length] at inPlace
  have le := inv.ahead.length_le
  have len : src.length ≤ n := by omega
  refine
    { valid := inv.valid.publishIn len
      inPos := ?_
      outPos := inv.outPos
      near := ?_
      ahead := inv.ahead.trans (List.prefix_append _ _)
      pending := ?_
      producer := trivial
      consumer := ?_ }
  · rw [inv.valid.publishIn_inPos len, inv.inPos, Nat.mod_add_mod, List.length_append]
  · rw [List.length_append]
    exact fits
  · show window s.fifo.data n _ _ = _
    have split : (s.accepted ++ src).length - s.returned.length =
        s.accepted.length - s.returned.length + src.length := by
      rw [List.length_append]
      omega
    rw [split, window_add, inv.pending, Nat.add_sub_cancel' le, inPlace,
      List.drop_append_of_le_length le]
  · have other := inv.consumer
    cases cons : s.consumer with
    | idle => trivial
    | copying size bytes =>
      rw [cons] at other
      obtain ⟨enough, short, next⟩ := other
      refine ⟨?_, short, next.trans (List.prefix_append _ _)⟩
      show s.returned.length + size ≤ (s.accepted ++ src).length
      rw [List.length_append]
      omega

private theorem InStep.produce (inv : InStep n s) (step : sharedOp s .produce = some t) :
    InStep n t := by
  simp only [sharedOp] at step
  cases prod : s.producer with
  | idle => simp [prod] at step
  | copying src done =>
    cases byte : src[done]? with
    | some b =>
      simp only [prod, byte] at step
      obtain rfl := Option.some.inj step
      exact inv.copyByte prod byte
    | none =>
      simp only [prod, byte] at step
      obtain rfl := Option.some.inj step
      exact inv.acceptAll prod byte

/-! ### The consumer's steps -/

private theorem InStep.fifoOut (inv : InStep n s) {size : Nat}
    (step : sharedOp s (.fifoOut size) = some t) : InStep n t := by
  simp only [sharedOp] at step
  cases cons : s.consumer with
  | copying other bytes => simp [cons] at step
  | idle =>
    simp only [cons] at step
    split_ifs at step with short
    · obtain rfl := Option.some.inj step
      exact inv
    · obtain rfl := Option.some.inj step
      have le := inv.ahead.length_le
      rw [inv.fifoLen_eq] at short
      have enough : s.returned.length + size ≤ s.accepted.length := by omega
      refine { inv with consumer := ⟨enough, Nat.zero_le _, ?_⟩ }
      rw [List.append_nil]
      exact inv.ahead

private theorem InStep.copyOutByte (inv : InStep n s) {size : Nat} {bytes : List Byte}
    (cons : s.consumer = .copying size bytes) (more : bytes.length < size) :
    InStep n { s with
      consumer := .copying size
        (bytes ++ [s.fifo.data (copyPlace s.fifo size s.fifo.outPos bytes.length)]) } := by
  have known := inv.consumer
  rw [cons] at known
  obtain ⟨enough, short, next⟩ := known
  have near := inv.near
  refine { inv with consumer := ⟨enough, by rw [List.length_append]; exact more, ?_⟩ }
  rw [inv.valid.copyPlace_eq inv.valid.outPos more (by omega), inv.outPos, Nat.mod_add_mod,
    ← List.append_assoc]
  apply prefix_snoc next
  rw [List.length_append]
  exact inv.pending_byte (by omega)

private theorem InStep.returnAll (inv : InStep n s) {size : Nat} {bytes : List Byte}
    (cons : s.consumer = .copying size bytes) (last : ¬ bytes.length < size) :
    InStep n { s with
      fifo := s.fifo.publishOut size
      consumer := .idle
      returned := s.returned ++ bytes } := by
  have known := inv.consumer
  rw [cons] at known
  obtain ⟨enough, short, next⟩ := known
  have near := inv.near
  have len : size ≤ n := by omega
  have total : (s.returned ++ bytes).length = s.returned.length + size := by
    rw [List.length_append]
    omega
  refine
    { valid := inv.valid.publishOut len
      inPos := inv.inPos
      outPos := ?_
      near := ?_
      ahead := next
      pending := ?_
      producer := ?_
      consumer := trivial }
  · rw [inv.valid.publishOut_outPos len, inv.outPos, Nat.mod_add_mod, total]
  · show s.accepted.length < (s.returned ++ bytes).length + n
    omega
  · show window s.fifo.data n (s.returned ++ bytes).length
      (s.accepted.length - (s.returned ++ bytes).length) = _
    rw [total, ← Nat.sub_sub, ← window_drop _ (by omega), inv.pending, List.drop_drop]
  · have other := inv.producer
    cases prod : s.producer with
    | idle => trivial
    | copying src done =>
      rw [prod] at other
      obtain ⟨fits, copied, inPlace⟩ := other
      refine ⟨?_, copied, inPlace⟩
      show s.accepted.length + src.length < (s.returned ++ bytes).length + n
      omega

private theorem InStep.consume (inv : InStep n s) (step : sharedOp s .consume = some t) :
    InStep n t := by
  simp only [sharedOp] at step
  cases cons : s.consumer with
  | idle => simp [cons] at step
  | copying size bytes =>
    simp only [cons] at step
    split_ifs at step with more
    · obtain rfl := Option.some.inj step
      exact inv.copyOutByte cons more
    · obtain rfl := Option.some.inj step
      exact inv.returnAll cons more

private theorem sharedOp_inStep {op : SharedOp} (inv : InStep n s) (step : sharedOp s op = some t) :
    InStep n t := by
  cases op with
  | fifoIn data => exact inv.fifoIn step
  | produce => exact inv.produce step
  | fifoOut size => exact inv.fifoOut step
  | consume => exact inv.consume step

end

/-- In every interleaving the bytes returned are the first of the bytes accepted. -/
theorem shared_run_prefix {data : Nat → Byte} {n : Nat} {t : SharedFifo} (pos : 1 ≤ n)
    (small : n ≤ 2 ^ 31) (run : Run sharedOp Free (sharedInit data n) t) :
    t.returned <+: t.accepted := by
  have inv : InStep n t :=
    run.invariant (sharedInit_inStep data pos small)
      fun _ _ _ inv _ step => sharedOp_inStep inv step
  exact inv.ahead

/-- The consumer returns the third byte while the producer copies the next three to the places 3, 4
and 0. -/
theorem shared_run_prefix_wrapping :
    ∃ t : SharedFifo, t.returned <+: t.accepted ∧ t.returned = [1, 2, 3] ∧
      t.accepted = [1, 2, 3, 4, 5, 6] ∧ t.fifo.data 0 = 6 := by
  have done : (exec sharedOp (fun _ _ => true) (sharedInit (fun _ => 0) 5)
      [.fifoIn [1, 2, 3], .produce, .produce, .produce, .produce, .fifoOut 2, .consume, .consume,
        .consume, .fifoIn [4, 5, 6], .fifoOut 1, .produce, .consume, .produce, .consume, .produce,
        .produce]).map (fun t => (t.returned, t.accepted, t.fifo.data 0)) =
      some ([1, 2, 3], [1, 2, 3, 4, 5, 6], 6) := by
    decide +kernel
  obtain ⟨t, run, eq⟩ := Option.map_eq_some_iff.mp done
  exact ⟨t, shared_run_prefix (by decide) (by decide) ((Run.of_exec run).mono fun _ _ _ => trivial),
    congrArg Prod.fst eq, congrArg (·.2.1) eq, congrArg (·.2.2) eq⟩

end OhMyOs.Libs.ByteFifo
