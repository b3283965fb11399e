/- GID: OhMyOs/Libs/VectorRuns
   generality: I
   digest: Runs of the growable vectors of libs/vector.c answer as a list does. -/

import OhMyOs.Include.Constants
import OhMyOs.Lib.Outcome
import OhMyOs.Lib.Runs
import OhMyOs.Libs.Vector

set_option autoImplicit false
set_option relaxedAutoImplicit false

namespace OhMyOs.Libs.VectorRuns

open OhMyOs.Include.Constants
open OhMyOs.Lib.Blocks OhMyOs.Lib.Outcome OhMyOs.Lib.Runs OhMyOs.Lib.Stores
open OhMyOs.Libs.GrowableString (Mem kmalloc kfree)
open OhMyOs.Libs.Vector

/-! ### The code -/

def minCapacity : Nat := 8

/-- What stops a call: an assertion, or an element that is not in the array's block. -/
inductive Fault
  | assertion | outside
  deriving DecidableEq

/-- A vector, and the block that kmalloc gave for its array: where it is, and how many bytes
were asked for. -/
structure State where
  mem : Mem
  vec : Vec
  buffer : Block

def assert (expr : Bool) : Except Fault Unit :=
  if expr then .ok () else .error .assertion

def access (buffer : Block) (ptr bytes : Nat) : Except Fault Unit :=
  if Within (ptr, bytes) buffer then .ok () else .error .outside

def copyElement (s : State) (dst src : Nat) : Mem :=
  memcpy s.mem dst (read s.mem.bytes src s.vec.elementSize)

/-- `__vector_create`; `vec` and `base` are what kmalloc returns for the struct and the array. -/
def vectorCreate (m : Mem) (elementSize : Nat) (vec base : Option Nat) : Mem × Option State :=
  match vec, base with
  | none, _ => (m, none)
  | some vec, none => (kfree (kmalloc m vec) vec, none)
  | some vec, some base =>
    let m := kmalloc (kmalloc m vec) base
    (m, some
      { mem := m
        vec := { base, elementSize, size := 0, capacity := minCapacity }
        buffer := (base, minCapacity * elementSize % 2 ^ 32) })

/-- `__vector_at`; `ptr` is where the caller wants the element. -/
def vectorAt (s : State) (index ptr : Nat) : Except Fault State := do
  assert (index < s.vec.size)
  access s.buffer (ele s.vec index) s.vec.elementSize
  return { s with mem := copyElement s ptr (ele s.vec index) }

/-- `vec->element_size * vec->capacity * 2` -/
def expandSize (v : Vec) : Nat := v.elementSize * v.capacity * 2 % 2 ^ 32

def expandBuffer (s : State) : Option Nat → Except Fault (State × Int)
  | none => .ok (s, -enomem)
  | some new => do
    let buffer := (new, expandSize s.vec)
    access s.buffer s.vec.base (s.vec.elementSize * s.vec.size % 2 ^ 32)
    access buffer new (s.vec.elementSize * s.vec.size % 2 ^ 32)
    let (mem, vec, ret) := vectorExpand s.mem s.vec (some new)
    return ({ mem, vec, buffer }, ret)

/-- The test of `__vector_push`. -/
def makeRoom (s : State) (new : Option Nat) : Except Fault (State × Int) :=
  if s.vec.size = s.vec.capacity then expandBuffer s new else .ok (s, 0)

/-- `__vector_push` of the caller's element at `ptr`, which is read when the array has grown; `new`
is what kmalloc returns if it has to. -/
def vectorPushFrom (s : State) (ptr : Nat) (new : Option Nat) : Except Fault (State × Int) := do
  let (s, ret) ← makeRoom s new
  if ret ≠ 0 then return (s, -enomem)
  access s.buffer (ele s.vec s.vec.size) s.vec.elementSize
  return ({ s with
    mem := copyElement s (ele s.vec s.vec.size) ptr
    vec := { s.vec with size := (s.vec.size + 1) % 2 ^ 32 } }, 0)

def vectorPop (s : State) (ptr : Nat) : Except Fault (State × Int) :=
  if s.vec.size = 0 then .ok (s, -enoent)
  else do
    access s.buffer (ele s.vec (s.vec.size - 1)) s.vec.elementSize
    return ({ s with
      mem := copyElement s ptr (ele s.vec (s.vec.size - 1))
      vec := { s.vec with size := s.vec.size - 1 } }, 0)

/-! ### Calls -/

/-- A call with the caller's variable at `ptr`, or bytes that the rest of the kernel stores between
two calls. -/
inductive VectorOp
  | push (ptr : Nat) (new : Option Nat)
  | pop (ptr : Nat)
  | element (index ptr : Nat)
  | store (ptr : Nat) (bytes : List Byte)
  deriving DecidableEq

structure Reply where
  ret : Int
  ele : Option (List Byte)
  deriving DecidableEq

def vectorCall (s : State) : VectorOp → Except Fault (State × Reply)
  | .push ptr new => (vectorPushFrom s ptr new).map fun (s, ret) => (s, ⟨ret, none⟩)
  | .pop ptr => (vectorPop s ptr).map fun (s, ret) =>
    (s, ⟨ret, if ret = 0 then some (read s.mem.bytes ptr s.vec.elementSize) else none⟩)
  | .element index ptr => (vectorAt s index ptr).map fun s =>
    (s, ⟨0, some (read s.mem.bytes ptr s.vec.elementSize)⟩)
  | .store ptr bytes => .ok ({ s with mem := memcpy s.mem ptr bytes }, ⟨0, none⟩)

def refused (s : State) : VectorOp → Bool
  | .push _ none => s.vec.size = s.vec.capacity
  | _ => false

def passed (s : State) : VectorOp → List Byte
  | .push ptr _ => read s.mem.bytes ptr s.vec.elementSize
  | _ => []

/-! ### What a vector is for -/

/-- One call on a list of elements that is as long as need be; `refuse` says whether the element
`x` is refused for want of memory. -/
def listCall (xs : List (List Byte)) (x : List Byte) (refuse : Bool) :
    VectorOp → List (List Byte) × Reply
  | .push _ _ => if refuse then (xs, ⟨-enomem, none⟩) else (xs ++ [x], ⟨0, none⟩)
  | .pop _ =>
    match xs.getLast? with
    | none => (xs, ⟨-enoent, none⟩)
    | some x => (xs.dropLast, ⟨0, some x⟩)
  | .element index _ => (xs, ⟨0, xs[index]?⟩)
  | .store _ _ => (xs, ⟨0, none⟩)

/-! ### What the callers and kmalloc keep to -/

def Granted (bytes : Nat) (used : List Block) : Option Nat → Prop
  | none => True
  | some ptr => bytes ≤ 2 ^ 22 ∧ 0 < ptr ∧ ptr + bytes ≤ 2 ^ 32 ∧ ∀ b ∈ used, Apart (ptr, bytes) b

instance decidableGranted (bytes : Nat) (used : List Block) (new : Option Nat) :
    Decidable (Granted bytes used new) :=
  match new with
  | none => isTrue trivial
  | some _ => inferInstanceAs (Decidable (_ ∧ _ ∧ _ ∧ _))

def Caller (s : State) (ptr : Nat) : Prop := Apart (ptr, s.vec.elementSize) s.buffer

instance (s : State) (ptr : Nat) : Decidable (Caller s ptr) :=
  inferInstanceAs (Decidable (Apart _ _))

def callOk (s : State) : VectorOp → Prop
  | .push ptr new => Caller s ptr ∧ (s.vec.size = s.vec.capacity →
      Granted (expandSize s.vec) [s.buffer, (ptr, s.vec.elementSize)] new)
  | .pop ptr => Caller s ptr
  | .element index ptr => index < s.vec.size ∧ Caller s ptr
  | .store ptr bytes => Apart (ptr, bytes.length) s.buffer

instance decidableCallOk (s : State) (op : VectorOp) : Decidable (callOk s op) :=
  match op with
  | .push _ _ => inferInstanceAs (Decidable (_ ∧ (_ → _)))
  | .pop ptr => inferInstanceAs (Decidable (Caller s ptr))
  | .element _ _ => inferInstanceAs (Decidable (_ ∧ _))
  | .store _ _ => inferInstanceAs (Decidable (Apart _ _))

/-! ### One call -/

structure Valid (s : State) (xs : List (List Byte)) : Prop where
  elements : Elements s.mem s.vec xs
  buffer : s.buffer = array s.vec
  small : s.vec.elementSize * s.vec.capacity ≤ 2 ^ 22

variable {s t : State} {xs : List (List Byte)} {x : List Byte} {ptr index : Nat} {new : Option Nat}
  {bytes : List Byte}

private theorem access_ok {b : Block} {p n : Nat} (within : Within (p, n) b) :
    access b p n = .ok () :=
  if_pos within

private theorem Valid.store (valid : Valid s xs) (apart : Apart (ptr, bytes.length) s.buffer) :
    Valid { s with mem := memcpy s.mem ptr bytes } xs := by
  obtain ⟨elements, buffer, small⟩ := valid
  refine ⟨elements.same (Same.write ?_), buffer, small⟩
  rintro b member
  obtain rfl := List.mem_singleton.mp member
  exact buffer ▸ apart.symm

private theorem Valid.access (valid : Valid s xs) (inside : index < s.vec.capacity) :
    access s.buffer (ele s.vec index) s.vec.elementSize = .ok () :=
  access_ok (valid.buffer ▸ (valid.elements.place inside).2)

private theorem Valid.copyElement (valid : Valid s xs) (at_ : xs[index]? = some x)
    (caller : Caller s ptr) :
    Valid { s with mem := copyElement s ptr (ele s.vec index) } xs ∧
      read (copyElement s ptr (ele s.vec index)).bytes ptr s.vec.elementSize = x := by
  obtain ⟨inside, -⟩ := List.getElem?_eq_some_iff.mp at_
  have wide : x.length = s.vec.elementSize := valid.elements.width x (List.mem_of_getElem? at_)
  have here := (valid.elements.holds_at at_).read_eq
  rw [← (valid.elements.place (inside.trans_le valid.elements.fits)).1, wide] at here
  unfold VectorRuns.copyElement
  rw [here]
  exact ⟨valid.store (wide ▸ caller), wide ▸ read_write s.mem.bytes ptr x⟩

private theorem Valid.expandSize_eq (valid : Valid s xs) :
    expandSize s.vec = s.vec.elementSize * (s.vec.capacity * 2) := by
  have small := valid.small
  rw [expandSize, Nat.mod_eq_of_lt (by omega), Nat.mul_assoc]

private theorem makeRoom_refused (refuse : refused s (.push ptr new) = true) :
    makeRoom s new = .ok (s, -enomem) := by
  cases new with
  | none => exact if_pos (of_decide_eq_true refuse)
  | some p => cases refuse

structure Roomy (s t : State) (xs : List (List Byte)) (ptr : Nat) : Prop where
  valid : Valid t xs
  room : xs.length < t.vec.capacity
  width : t.vec.elementSize = s.vec.elementSize
  caller : read t.mem.bytes ptr s.vec.elementSize = read s.mem.bytes ptr s.vec.elementSize

private theorem expandBuffer_spec {p : Nat} (valid : Valid s xs)
    (full : s.vec.size = s.vec.capacity)
    (granted : Granted (expandSize s.vec) [s.buffer, (ptr, s.vec.elementSize)] (some p)) :
    ∃ t, expandBuffer s (some p) = .ok (t, 0) ∧ Roomy s t xs ptr := by
  obtain ⟨limit, nonnull, word, apart⟩ := granted
  obtain ⟨elements, buffer, small⟩ := valid
  have size : expandSize s.vec = s.vec.elementSize * (s.vec.capacity * 2) :=
    Valid.expandSize_eq ⟨elements, buffer, small⟩
  have grows : Grows s.vec (some p) := fun _ =>
    ⟨p, rfl, nonnull, size ▸ word, size ▸ buffer ▸ apart _ List.mem_cons_self⟩
  obtain ⟨zero, expanded⟩ := vectorExpand_expanded elements full grows
  have here : pushedArray s.vec (some p) = (p, expandSize s.vec) := by
    rw [pushedArray, if_pos full, size]
    rfl
  have copied : s.vec.elementSize * s.vec.size % 2 ^ 32 = s.vec.elementSize * s.vec.capacity := by
    rw [full, Nat.mod_eq_of_lt]
    omega
  have fromOld : Within (s.vec.base, s.vec.elementSize * s.vec.capacity) s.buffer := by
    rw [buffer]
    exact ⟨Nat.le_refl _, Nat.le_refl _⟩
  have toNew : Within (p, s.vec.elementSize * s.vec.capacity) (p, expandSize s.vec) := by
    rw [size]
    refine ⟨Nat.le_refl _, Nat.add_le_add_left (Nat.mul_le_mul_left _ ?_) _⟩
    omega
  have array := expanded.array.trans here
  have callers : Same s.mem.bytes (vectorExpand s.mem s.vec (some p)).1.bytes
      [(ptr, s.vec.elementSize)] := by
    intro b member a inside
    obtain rfl := List.mem_singleton.mp member
    refine expanded.frame a ?_
    rw [here]
    exact (apart _ (by simp)).symm.not_inside inside
  refine ⟨⟨(vectorExpand s.mem s.vec (some p)).1, (vectorExpand s.mem s.vec (some p)).2.1,
    (p, expandSize s.vec)⟩, ?_, ⟨expanded.elements, array.symm, ?_⟩, expanded.room,
    expanded.elementSize, ?_⟩
  · rw [expandBuffer, copied, access_ok fromOld, access_ok toNew]
    rfl
  · exact (congrArg Prod.snd array).trans_le limit
  · exact callers.read_eq List.mem_cons_self

private theorem makeRoom_spec (valid : Valid s xs) (ok : callOk s (.push ptr new))
    (given : refused s (.push ptr new) = false) :
    ∃ t, makeRoom s new = .ok (t, 0) ∧ Roomy s t xs ptr := by
  by_cases full : s.vec.size = s.vec.capacity
  · cases new with
    | none => exact absurd full (of_decide_eq_false given)
    | some p =>
      rw [makeRoom, if_pos full]
      exact expandBuffer_spec valid full (ok.2 full)
  · have fits := valid.elements.fits
    have size := valid.elements.size
    exact ⟨s, if_neg full, valid, by omega, rfl, rfl⟩

/-- What one call does: it returns, the list behind it is the one the list call leaves, the reply is
the one the list call gives, and a call that fails changes nothing. -/
def Answers (s : State) (xs : List (List Byte)) (op : VectorOp) : Prop :=
  ∃ t reply, vectorCall s op = .ok (t, reply) ∧
    Valid t (listCall xs (passed s op) (refused s op) op).1 ∧
    reply = (listCall xs (passed s op) (refused s op) op).2 ∧
    (reply.ret ≠ 0 → t = s)

private theorem push_answers (valid : Valid s xs) (ok : callOk s (.push ptr new)) :
    Answers s xs (.push ptr new) := by
  cases refuse : refused s (.push ptr new) with
  | true =>
    refine ⟨s, ⟨-enomem, none⟩, ?_, ?_, ?_, fun _ => rfl⟩
    · rw [vectorCall, vectorPushFrom, makeRoom_refused refuse]
      rfl
    · rw [refuse]
      exact valid
    · rw [refuse]
      rfl
  | false =>
    obtain ⟨t, made, ⟨elements, buffer, small⟩, room, width, bytes⟩ :=
      makeRoom_spec valid ok refuse
    have inside : t.vec.size < t.vec.capacity := elements.size ▸ room
    have appended := elements.append room (e := read s.mem.bytes ptr s.vec.elementSize)
      (by rw [length_read, width])
    refine ⟨{ t with
      mem := memcpy t.mem (ele t.vec t.vec.size) (read s.mem.bytes ptr s.vec.elementSize)
      vec := { t.vec with size := (t.vec.size + 1) % 2 ^ 32 } }, ⟨0, none⟩, ?_, ?_, ?_,
      fun failed => absurd rfl failed⟩
    · rw [vectorCall, vectorPushFrom, made, ok_bind]
      simp only [ne_eq, not_true_eq_false, if_false]
      rw [Valid.access ⟨elements, buffer, small⟩ inside, ok_bind, copyElement, width, bytes]
      rfl
    · rw [refuse]
      exact ⟨appended, buffer, small⟩
    · rw [refuse]
      rfl

private theorem pop_answers (valid : Valid s xs) (caller : Caller s ptr) :
    Answers s xs (.pop ptr) := by
  have size := valid.elements.size
  have fits := valid.elements.fits
  rcases List.eq_nil_or_concat xs with rfl | ⟨front, x, rfl⟩
  · refine ⟨s, ⟨-enoent, none⟩, ?_, valid, rfl, fun _ => rfl⟩
    rw [List.length_nil] at size
    rw [vectorCall, vectorPop, if_pos size]
    rfl
  · rw [List.concat_eq_append] at valid size fits ⊢
    rw [List.length_append, List.length_singleton] at size fits
    have last : (front ++ [x])[s.vec.size - 1]? = some x := by
      rw [size, Nat.add_sub_cancel, List.getElem?_concat_length]
    obtain ⟨kept, copied⟩ := valid.copyElement last caller
    refine ⟨{ s with
      mem := copyElement s ptr (ele s.vec (s.vec.size - 1))
      vec := { s.vec with size := s.vec.size - 1 } }, ⟨0, some x⟩, ?_, ?_, ?_,
      fun failed => absurd rfl failed⟩
    · rw [vectorCall, vectorPop, if_neg (by omega), valid.access (by omega), ok_bind]
      simp only [pure_eq_ok, Except.map, if_true, copied]
    · simp only [listCall, List.getLast?_concat, List.dropLast_concat]
      exact ⟨kept.elements.dropLast, kept.buffer, kept.small⟩
    · simp only [listCall, List.getLast?_concat]

private theorem at_answers (valid : Valid s xs) (inside : index < s.vec.size)
    (caller : Caller s ptr) :
    Answers s xs (.element index ptr) := by
  have fits := valid.elements.fits
  have size := valid.elements.size
  have at_ : xs[index]? = some xs[index] := List.getElem?_eq_getElem (size ▸ inside)
  obtain ⟨kept, copied⟩ := valid.copyElement at_ caller
  refine ⟨_, ⟨0, some xs[index]⟩, ?_, kept, ?_, fun failed => absurd rfl failed⟩
  · rw [vectorCall, vectorAt, assert, if_pos (decide_eq_true inside), ok_bind,
      valid.access (by omega), ok_bind]
    simp only [pure_eq_ok, Except.map, copied]
  · rw [listCall, at_]

private theorem vectorCall_answers {op : VectorOp} (valid : Valid s xs) (ok : callOk s op) :
    Answers s xs op := by
  cases op with
  | push ptr new => exact push_answers valid ok
  | pop ptr => exact pop_answers valid ok
  | element index ptr => exact at_answers valid ok.1 ok.2
  | store ptr bytes =>
    exact ⟨_, ⟨0, none⟩, rfl, valid.store ok, rfl, fun failed => absurd rfl failed⟩

/-! ### Runs -/

structure VectorRun where
  state : State
  replies : List Reply
  list : List (List Byte)
  expected : List Reply

def vectorStep (r : VectorRun) (op : VectorOp) : Option VectorRun :=
  (vectorCall r.state op).toOption.map fun (state, reply) =>
    let (list, answer) := listCall r.list (passed r.state op) (refused r.state op) op
    { state, replies := r.replies ++ [reply], list, expected := r.expected ++ [answer] }

def vectorStart (s : State) : VectorRun := ⟨s, [], [], []⟩

structure Refines (r : VectorRun) : Prop where
  valid : Valid r.state r.list
  replies : r.replies = r.expected

private theorem vectorCreate_valid {m m' : Mem} {elementSize : Nat} {vec base : Option Nat}
    {used : List Block} (positive : 1 ≤ elementSize) (bounded : elementSize ≤ 2 ^ 20)
    (granted : Granted (minCapacity * elementSize % 2 ^ 32) used base)
    (create : vectorCreate m elementSize vec base = (m', some s)) : Valid s [] := by
  have exact : minCapacity * elementSize % 2 ^ 32 = elementSize * minCapacity := by
    unfold minCapacity
    omega
  cases vec with
  | none => cases create
  | some vec =>
    cases base with
    | none => cases create
    | some base =>
      obtain rfl := Option.some.inj (Prod.mk.inj create).2
      obtain ⟨limit, nonnull, word, -⟩ := granted
      rw [exact] at limit word
      refine ⟨⟨rfl, ?_, Nat.zero_le _, positive, Nat.succ_pos 7, nonnull, word, Holds.nil⟩, ?_,
        limit⟩
      · intro e member
        cases member
      · exact congrArg (Prod.mk base) exact

private theorem Refines.step {r : VectorRun} {op : VectorOp} (refines : Refines r)
    (ok : callOk r.state op) : ∃ t reply r', vectorCall r.state op = .ok (t, reply) ∧
      (reply.ret ≠ 0 → t = r.state) ∧ vectorStep r op = some r' ∧ Refines r' := by
  obtain ⟨t, reply, call, kept, answer, unchanged⟩ := vectorCall_answers refines.valid ok
  refine ⟨t, reply, _, call, unchanged, by rw [vectorStep, call]; rfl, kept, ?_⟩
  change r.replies ++ [reply] = r.expected ++ [_]
  rw [refines.replies, answer]

/-- From `vector_create` on, with elements of up to 1 MB and a kmalloc that finds no block above
4 MB, every sequence of calls returns with no element read or written outside the block of the
array, answers as a list of elements, and a call that fails changes nothing. -/
theorem vector_run_list (m m' : Mem) (vec base : Option Nat) (elementSize : Nat) (s : State)
    (positive : 1 ≤ elementSize) (bounded : elementSize ≤ 2 ^ 20)
    (granted : Granted (minCapacity * elementSize % 2 ^ 32) [] base)
    (create : vectorCreate m elementSize vec base = (m', some s)) (t : VectorRun)
    (run : Run vectorStep (fun r op => callOk r.state op) (vectorStart s) t) :
    t.replies = t.expected ∧ Elements t.state.mem t.state.vec t.list ∧
      t.state.vec.size = t.list.length ∧ t.state.buffer = array t.state.vec ∧
      ∀ op, callOk t.state op → ∃ s' reply t', vectorCall t.state op = .ok (s', reply) ∧
        (reply.ret ≠ 0 → s' = t.state) ∧ vectorStep t op = some t' := by
  have start : Refines (vectorStart s) :=
    ⟨vectorCreate_valid positive bounded granted create, rfl⟩
  have refines : Refines t := run.invariant start fun r op r' inv ok step => by
    obtain ⟨-, -, r1, -, -, done, kept⟩ := inv.step ok
    exact Option.some.inj (done.symm.trans step) ▸ kept
  obtain ⟨elements, buffer, -⟩ := refines.valid
  refine ⟨refines.replies, elements, elements.size, buffer, fun op ok => ?_⟩
  obtain ⟨s', reply, t', call, unchanged, step, -⟩ := refines.step ok
  exact ⟨s', reply, t', call, unchanged, step⟩

/-- Eight elements of two bytes from a variable at 500 and a ninth that is refused once before the
array grows; then the first is read and the last is taken. -/
def sampleOps : List VectorOp :=
  .pop 500 ::
    (List.range 8).flatMap (fun i => [.store 500 [BitVec.ofNat 8 i, 1], .push 500 none]) ++
    [.push 500 none, .push 500 (some 2000), .element 0 500, .pop 500]

theorem vector_run_list_sample :
    ∃ t, exec vectorStep (fun r op => decide (callOk r.state op))
        (vectorStart ⟨⟨fun _ => 0, [1000, 400], [], []⟩, ⟨1000, 2, 0, 8⟩, (1000, 16)⟩)
          sampleOps = some t ∧
      t.replies = ⟨-enoent, none⟩ :: List.replicate 16 ⟨0, none⟩ ++
        [⟨-enomem, none⟩, ⟨0, none⟩, ⟨0, some [0, 1]⟩, ⟨0, some [7, 1]⟩] ∧
      t.replies = t.expected ∧ t.state.vec.size = 8 ∧ t.list.length = 8 := by
  have ran : (exec vectorStep (fun r op => decide (callOk r.state op))
      (vectorStart ⟨⟨fun _ => 0, [1000, 400], [], []⟩, ⟨1000, 2, 0, 8⟩, (1000, 16)⟩) sampleOps).map
        (fun t => (t.replies, t.state.vec.size)) =
      some (⟨-enoent, none⟩ :: List.replicate 16 ⟨0, none⟩ ++
        [⟨-enomem, none⟩, ⟨0, none⟩, ⟨0, some [0, 1]⟩, ⟨0, some [7, 1]⟩], 8) := by decide +kernel
  obtain ⟨t, eq, facts⟩ := Option.map_eq_some_iff.mp ran
  obtain ⟨replies, size⟩ := Prod.mk.inj facts
  obtain ⟨same, -, count, -⟩ := vector_run_list ⟨fun _ => 0, [], [], []⟩ _ (some 400) (some 1000)
    2 _ (by decide) (by decide) (by decide) rfl t
      ((Run.of_exec eq).mono fun _ _ ok => of_decide_eq_true ok)
  exact ⟨t, eq, replies, same, size, count ▸ size⟩

end OhMyOs.Libs.VectorRuns
