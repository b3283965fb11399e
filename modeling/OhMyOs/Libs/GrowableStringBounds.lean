/- GID: OhMyOs/Libs/GrowableStringBounds
   generality: I
   digest: Runs of string calls: when every store is inside the buffer, and a run where one is
   not. -/

import OhMyOs.Lib.Outcome
import OhMyOs.Lib.Runs
import OhMyOs.Libs.GrowableString

set_option autoImplicit false
set_option relaxedAutoImplicit false

namespace OhMyOs.Libs.GrowableString

open OhMyOs.Include.Constants
open OhMyOs.Lib.Outcome OhMyOs.Lib.Runs OhMyOs.Include.Log2

variable {m m' : Mem} {s s' : KString} {str dst : Option Nat} {size i len : Nat} {c : Byte}

def InBounds (m : Mem) : Prop := ∀ w ∈ m.writes, w.1 < w.2

/-- `str[length] == 0` -/
def terminated (m : Mem) (s : KString) : Bool :=
  match s.str with
  | none => false
  | some p => m.bytes (p + s.length) = 0

/-! ### Stores -/

theorem put_inBounds (bounds : InBounds m) (inside : i < size)
    (done : put m str size i c = .ok m') :
    InBounds m' := by
  cases str with
  | none => cases done
  | some p =>
    cases done
    intro w member
    rcases List.mem_cons.mp member with rfl | old
    · exact inside
    · exact bounds w old

private theorem put_terminated (done : put m s.str size s.length 0 = .ok m') :
    terminated m' s = true := by
  unfold terminated
  cases eq : s.str with
  | none =>
    rw [eq] at done
    cases done
  | some p =>
    rw [eq] at done
    cases done
    simp

private theorem strncpy_inBounds {src : Mem → Nat → Byte} {j : Nat} (bounds : InBounds m)
    (inside : i + len ≤ size) (done : strncpy dst size src len m i j = .ok m') : InBounds m' := by
  induction len generalizing m i j with
  | zero =>
    cases done
    exact bounds
  | succ len ih =>
    obtain ⟨m1, first, rest⟩ := bind_eq_ok done
    exact ih (put_inBounds bounds (by omega) first) (by omega) rest

private theorem fitLoop_inBounds (bounds : InBounds m) (inside : i + len ≤ size)
    (done : fitLoop dst size c len m i = .ok m') : InBounds m' := by
  induction len generalizing m i with
  | zero =>
    cases done
    exact bounds
  | succ len ih =>
    obtain ⟨m1, first, rest⟩ := bind_eq_ok done
    exact ih (put_inBounds bounds (by omega) first) (by omega) rest

/-! ### Growth -/

private theorem assert_ok {expr : Bool} {u : Unit} (done : assert expr = .ok u) : expr = true := by
  cases expr with
  | false => cases done
  | true => rfl

private theorem moveBuffer_inBounds {new : Nat} (bounds : InBounds m) (room : s.length < s.capacity)
    (larger : s.capacity < size) (done : moveBuffer m s new size = .ok m') : InBounds m' := by
  unfold moveBuffer at done
  split at done
  · cases done
    exact bounds
  · obtain ⟨m1, copy, done⟩ := bind_eq_ok done
    obtain ⟨m2, mark, done⟩ := bind_eq_ok done
    cases done
    have marked : InBounds m2 := put_inBounds (strncpy_inBounds bounds (by omega) copy) room mark
    exact marked

private theorem lt_roundup_of_assert {capacity : Nat} (nonempty : 0 < capacity)
    (fits : size < 2 ^ 32)
    (larger : capacity < roundupPowOfTwo ((size + 1) % 2 ^ 32)) :
    size < roundupPowOfTwo ((size + 1) % 2 ^ 32) := by
  by_cases wrap : size + 1 = 2 ^ 32
  · rw [wrap, Nat.mod_self] at larger
    have one : roundupPowOfTwo 0 = 1 := by decide
    omega
  · rw [Nat.mod_eq_of_lt (by omega)] at larger ⊢
    rcases roundupPowOfTwo_eq_one_or_le (n := size + 1) (by omega) with one | above
    · omega
    · omega

/-- What `string_try_expand` leaves behind; only a size equal to the capacity is let through
without room for the terminator. -/
structure Expanded (m' : Mem) (s s' : KString) (size : Nat) (ret : Int) : Prop where
  bounds : InBounds m'
  length : s'.length = s.length
  room : s'.length < s'.capacity
  word : s'.capacity < 2 ^ 32
  fits : ret = 0 → size < s'.capacity

private theorem stringTryExpand_expanded {ret : Int} (bounds : InBounds m)
    (room : s.length < s.capacity)
    (word : s.capacity < 2 ^ 32) (differ : size ≠ s.capacity) (fits : size < 2 ^ 32)
    (done : stringTryExpand m s size str = .ok (m', s', ret)) : Expanded m' s s' size ret := by
  unfold stringTryExpand at done
  split_ifs at done with small
  · cases done
    exact ⟨bounds, rfl, room, word, fun _ => by omega⟩
  · obtain ⟨u, passed, done⟩ := bind_eq_ok done
    have larger := of_decide_eq_true (assert_ok passed)
    cases str with
    | none =>
      cases done
      exact ⟨bounds, rfl, room, word, fun zero => by cases zero⟩
    | some new =>
      obtain ⟨m1, move, done⟩ := bind_eq_ok done
      cases done
      have allocated : InBounds (kmalloc m new) := bounds
      refine ⟨moveBuffer_inBounds allocated room larger move, rfl,
        room.trans larger, ?_, fun _ => ?_⟩
      · exact Nat.mod_lt _ (by decide)
      · exact lt_roundup_of_assert (by omega) fits larger

/-! ### The calls -/

structure Good (m : Mem) (s : KString) : Prop where
  room : s.length < s.capacity
  terminated : terminated m s = true

structure Kept (m : Mem) (s : KString) (success : Prop) : Prop where
  bounds : InBounds m
  word : s.capacity < 2 ^ 32
  good : success → Good m s

private theorem Kept.of_terminator {success : Prop} (bounds : InBounds m)
    (word : s.capacity < 2 ^ 32)
    (inside : s.length < s.capacity) (last : put m s.str s.capacity s.length 0 = .ok m') :
    Kept m' s success :=
  ⟨put_inBounds bounds inside last, word, fun _ => ⟨inside, put_terminated last⟩⟩

private theorem Expanded.kept_or_fits {s1 : KString} {ret ret1 : Int}
    {rest : Except Fault (Mem × KString × Int)} (grown : Expanded m s s1 size ret1)
    (done : (if ret1 ≠ 0 then pure (m, s1, ret1) else rest) = .ok (m', s', ret)) :
    Kept m' s' (ret = 0) ∨ size < s1.capacity ∧ rest = .ok (m', s', ret) := by
  by_cases failed : ret1 ≠ 0
  · rw [if_pos failed] at done
    cases done
    exact .inl ⟨grown.bounds, grown.word, fun zero => absurd zero failed⟩
  · rw [if_neg failed] at done
    exact .inr ⟨grown.fits (not_not.mp failed), done⟩

private theorem ksappendChar_kept {ret : Int} (bounds : InBounds m) (room : s.length < s.capacity)
    (word : s.capacity < 2 ^ 32) (differ : s.length + 1 ≠ s.capacity)
    (done : ksappendChar m s c str = .ok (m', s', ret)) : Kept m' s' (ret = 0) := by
  obtain ⟨⟨m1, s1, ret1⟩, grow, done⟩ := bind_eq_ok done
  rw [Nat.mod_eq_of_lt (by omega)] at grow
  have grown := stringTryExpand_expanded bounds room word differ (by omega) grow
  rcases grown.kept_or_fits done with kept | ⟨fits, done⟩
  · exact kept
  · have length := grown.length
    rw [Nat.mod_eq_of_lt (by omega)] at done
    obtain ⟨m2, first, done⟩ := bind_eq_ok done
    obtain ⟨m3, last, done⟩ := bind_eq_ok done
    cases done
    have inside : s1.length + 1 < s1.capacity := by omega
    exact Kept.of_terminator (s := { s1 with length := s1.length + 1 })
      (put_inBounds grown.bounds grown.room first) grown.word inside last

/-- The number of bytes that `ksappend_strn` appends. -/
def appended (text : List Byte) (length : Nat) : Nat :=
  if strlen text < length then strlen text else length

private theorem ksappendStrn_kept {text : List Byte} {ret : Int} (bounds : InBounds m)
    (room : s.length < s.capacity) (word : s.capacity < 2 ^ 32)
    (fits : s.length + appended text len < 2 ^ 32)
    (differ : s.length + appended text len ≠ s.capacity)
    (done : ksappendStrn m s (some text) len str = .ok (m', s', ret)) : Kept m' s' (ret = 0) := by
  unfold appended at fits differ
  simp only [ksappendStrn] at done
  generalize (if strlen text < len then strlen text else len) = count at fits differ done
  rw [Nat.mod_eq_of_lt fits] at done
  obtain ⟨⟨m1, s1, ret1⟩, grow, done⟩ := bind_eq_ok done
  have grown := stringTryExpand_expanded bounds room word differ fits grow
  rcases grown.kept_or_fits done with kept | ⟨inside, done⟩
  · exact kept
  · rw [grown.length, Nat.mod_eq_of_lt fits] at done
    obtain ⟨m2, copy, done⟩ := bind_eq_ok done
    obtain ⟨m3, last, done⟩ := bind_eq_ok done
    cases done
    exact Kept.of_terminator (s := { s1 with length := s.length + count })
      (strncpy_inBounds grown.bounds inside.le copy) grown.word inside last

private theorem kspopChar_kept (bounds : InBounds m) (room : s.length < s.capacity)
    (word : s.capacity < 2 ^ 32) (marked : s.length = 0 → terminated m s = true)
    (done : kspopChar m s = .ok (m', s', c)) : Kept m' s' True := by
  unfold kspopChar at done
  split_ifs at done with empty
  · cases done
    exact ⟨bounds, word, fun _ => ⟨room, marked empty⟩⟩
  · cases eq : s.str with
    | none =>
      rw [eq] at done
      cases done
    | some p =>
      rw [eq] at done
      obtain ⟨m1, last, done⟩ := bind_eq_ok done
      cases done
      have inside : s.length - 1 < s.capacity := by omega
      exact Kept.of_terminator (s := { s with str := some p, length := s.length - 1 })
        bounds word inside last

private theorem ksfit_kept {n : Nat} {ret : Int} (bounds : InBounds m)
    (room : s.length < s.capacity)
    (word : s.capacity < 2 ^ 32) (fits : n < 2 ^ 32) (differ : n ≠ s.capacity)
    (done : ksfit m s c n str = .ok (m', s', ret)) : Kept m' s' (ret = 0) := by
  obtain ⟨⟨m1, s1, ret1⟩, grow, done⟩ := bind_eq_ok done
  have grown := stringTryExpand_expanded bounds room word differ fits grow
  rcases grown.kept_or_fits done with kept | ⟨inside, done⟩
  · exact kept
  · have current := grown.room
    obtain ⟨m2, fill, done⟩ := bind_eq_ok done
    obtain ⟨m3, last, done⟩ := bind_eq_ok done
    cases done
    exact Kept.of_terminator (s := { s1 with length := n })
      (fitLoop_inBounds grown.bounds (by omega) fill) grown.word inside last

/-! ### Runs of calls on one string -/

inductive StrOp
  | appendChar (c : Byte) (str : Option Nat)
  | appendStrn (text : Option (List Byte)) (length : Nat) (str : Option Nat)
  | appendStr (text : List Byte) (str : Option Nat)
  | appendInt (val : Int) (rest : List Byte) (str : Option Nat)
  | appendHex (val : Int) (rest : List Byte) (str : Option Nat)
  | popChar
  | fit (c : Byte) (n : Nat) (str : Option Nat)

structure StrRun where
  mem : Mem
  s : KString
  succeeded : Bool

def afterCall (r : Mem × KString × Int) : StrRun := ⟨r.1, r.2.1, r.2.2 = 0⟩

def strCall (m : Mem) (s : KString) : StrOp → Except Fault StrRun
  | .appendChar c str => (ksappendChar m s c str).map afterCall
  | .appendStrn text length str => (ksappendStrn m s text length str).map afterCall
  | .appendStr text str => (ksappendStr m s text str).map afterCall
  | .appendInt val rest str => (ksappendInt m s val rest str).map afterCall
  | .appendHex val rest str => (ksappendHex m s val rest str).map afterCall
  | .popChar => (kspopChar m s).map fun r => ⟨r.1, r.2.1, true⟩
  | .fit c n str => (ksfit m s c n str).map afterCall

def appendArgs : StrOp → Option (List Byte × Nat)
  | .appendStrn (some text) length _ => some (text, length)
  | .appendStr text _ => some (text, strlen text)
  | .appendInt val rest _ => some (toStr val ++ rest, (toStr val).length)
  | .appendHex val rest _ =>
    let text := toHex (val % 2 ^ 32).toNat
    some (text ++ rest, text.length)
  | _ => none

def newBuffer : StrOp → Option Nat
  | .appendChar _ str => str
  | .appendStrn _ _ str => str
  | .appendStr _ str => str
  | .appendInt _ _ str => str
  | .appendHex _ _ str => str
  | .popChar => none
  | .fit _ _ str => str

/-- Both strings are in one address space, and `n` is an `int` that is not negative. -/
def addressable (s : KString) (op : StrOp) : Bool :=
  match appendArgs op, op with
  | some (text, _), _ => s.length + strlen text < 2 ^ 32
  | none, .fit _ n _ => n < 2 ^ 31
  | none, _ => true

def strStep (r : StrRun) (op : StrOp) : Option StrRun :=
  if addressable r.s op then (strCall r.mem r.s op).toOption else none

def target (s : KString) (op : StrOp) : Option Nat :=
  match appendArgs op, op with
  | some (text, length), _ => some (s.length + appended text length)
  | none, .appendChar _ _ => some (s.length + 1)
  | none, .popChar => if s.length = 0 then none else some (s.length - 1)
  | none, .fit _ n _ => some n
  | none, _ => none

/-- There is room before the call, the call does not ask for a length equal to the capacity, and
if it writes nothing the terminator is already there. -/
def leavesRoom (r : StrRun) (op : StrOp) : Bool :=
  r.s.length < r.s.capacity &&
    match target r.s op with
    | some n => n ≠ r.s.capacity
    | none => terminated r.mem r.s

/-- A string fresh from `ksalloc`, or from `ksinit` on any buffer. -/
inductive Started : StrRun → Prop
  | alloc {m m' : Mem} {s : KString} {a b : Nat} (clean : m.writes = [])
      (done : ksalloc m (some a) (some b) = .ok (m', some s)) : Started ⟨m', s, true⟩
  | init {m : Mem} (buf : Nat) {size : Nat} (clean : m.writes = []) (word : size < 2 ^ 32) :
      Started ⟨m, ksinit (some buf) size, false⟩

def StrSafe (r : StrRun) : Prop := InBounds r.mem ∧ (r.succeeded = true → Good r.mem r.s)

def StrInv (r : StrRun) : Prop := Kept r.mem r.s (r.succeeded = true)

private theorem Started.inv {r : StrRun} (started : Started r) : StrInv r := by
  cases started with
  | @alloc m _ _ a b clean done =>
    obtain ⟨m1, first, done⟩ := bind_eq_ok done
    cases done
    have bounds : InBounds (kmalloc (kmalloc m a) b) := fun w member => by
      simp [kmalloc, clean] at member
    refine ⟨put_inBounds bounds (by decide) first, (by decide : stringMinSize < 2 ^ 32), fun _ =>
      ⟨(by decide : 0 < stringMinSize), ?_⟩⟩
    exact put_terminated (s := ⟨some _, 0, stringMinSize⟩) first
  | init buf clean word =>
    refine ⟨fun w member => ?_, word, fun success => by cases success⟩
    rw [clean] at member
    cases member

theorem appended_le (text : List Byte) (length : Nat) : appended text length ≤ strlen text := by
  unfold appended
  split_ifs with short
  · exact le_rfl
  · omega

theorem strCall_append {op : StrOp} {text : List Byte} {length : Nat}
    (args : appendArgs op = some (text, length)) :
    strCall m s op = (ksappendStrn m s (some text) length (newBuffer op)).map afterCall := by
  cases op with
  | appendStrn other count str =>
    cases other with
    | none => cases args
    | some other =>
      cases args
      rfl
  | appendStr | appendInt | appendHex =>
    cases args
    rfl
  | appendChar | popChar | fit => cases args

private theorem Kept.afterCall {r : Mem × KString × Int} (kept : Kept r.1 r.2.1 (r.2.2 = 0)) :
    StrInv (afterCall r) :=
  ⟨kept.bounds, kept.word, fun success => kept.good (of_decide_eq_true success)⟩

theorem strCall_kept {op : StrOp} {r : StrRun} (bounds : InBounds m) (word : s.capacity < 2 ^ 32)
    (fits : addressable s op = true)
    (room : ∀ n, target s op = some n → s.length < s.capacity ∧ n ≠ s.capacity)
    (done : strCall m s op = .ok r) :
    StrInv r ∨ target s op = none ∧ r.mem = m ∧ r.s = s := by
  unfold addressable at fits
  unfold target at room ⊢
  cases args : appendArgs op with
  | some arg =>
    obtain ⟨text, length⟩ := arg
    simp only [args, decide_eq_true_eq] at fits room
    obtain ⟨less, differ⟩ := room _ rfl
    rw [strCall_append args] at done
    obtain ⟨result, ran, rfl⟩ := map_eq_ok done
    have short := appended_le text length
    exact .inl (ksappendStrn_kept bounds less word (by omega) differ ran).afterCall
  | none =>
    cases op with
    | appendChar c str =>
      simp only [args] at room
      obtain ⟨less, differ⟩ := room _ rfl
      obtain ⟨result, ran, rfl⟩ := map_eq_ok done
      exact .inl (ksappendChar_kept bounds less word differ ran).afterCall
    | appendStrn text length str =>
      cases text with
      | some text => cases args
      | none =>
        cases done
        exact .inr ⟨rfl, rfl, rfl⟩
    | popChar =>
      simp only [args] at room ⊢
      obtain ⟨⟨m1, s1, c⟩, ran, rfl⟩ := map_eq_ok done
      by_cases empty : s.length = 0
      · rw [kspopChar, if_pos empty] at ran
        cases ran
        exact .inr ⟨if_pos empty, rfl, rfl⟩
      · obtain ⟨less, -⟩ := room _ (if_neg empty)
        have kept := kspopChar_kept bounds less word (absurd · empty) ran
        exact .inl ⟨kept.bounds, kept.word, fun _ => kept.good trivial⟩
    | fit c n str =>
      simp only [args, decide_eq_true_eq] at fits room
      obtain ⟨less, differ⟩ := room _ rfl
      obtain ⟨result, ran, rfl⟩ := map_eq_ok done
      exact .inl (ksfit_kept bounds less word (by omega) differ ran).afterCall
    | appendStr | appendInt | appendHex => cases args

private theorem strStep_inv {r t : StrRun} {op : StrOp} (inv : StrInv r)
    (ok : leavesRoom r op = true)
    (step : strStep r op = some t) : StrInv t := by
  obtain ⟨bounds, word, -⟩ := inv
  unfold strStep at step
  split_ifs at step with fits
  obtain ⟨less, rest⟩ := Bool.and_eq_true_iff.mp ok
  have less := of_decide_eq_true less
  have room : ∀ n, target r.s op = some n → r.s.length < r.s.capacity ∧ n ≠ r.s.capacity := by
    intro n asked
    rw [asked] at rest
    exact ⟨less, of_decide_eq_true rest⟩
  rcases strCall_kept bounds word fits room (of_toOption step) with kept | ⟨nothing, mem, same⟩
  · exact kept
  · rw [nothing] at rest
    refine ⟨mem ▸ bounds, same ▸ word, fun _ => ?_⟩
    rw [mem, same]
    exact ⟨less, rest⟩

/-- In every run of calls that leave room for the terminator, every byte is written inside its
buffer, and after each successful call the string is shorter than its buffer and terminated. -/
theorem string_run_safe (r : StrRun) (started : Started r) (t : StrRun)
    (run : Run strStep (fun r op => leavesRoom r op = true) r t) : StrSafe t := by
  have inv : StrInv t := run.invariant started.inv fun _ _ _ inv ok step => strStep_inv inv ok step
  exact ⟨inv.bounds, inv.good⟩

def blank : Mem := ⟨fun _ => 0xFF, [], [], []⟩

def allocated : StrRun :=
  ⟨{ bytes := Function.update blank.bytes 2 0
     heap := [2, 1]
     writes := [(0, 32)]
     frees := [] }, ⟨some 2, 0, 32⟩, true⟩

private theorem allocated_started : Started allocated :=
  .alloc (m := blank) (a := 1) (b := 2) rfl rfl

def sampleOps : List StrOp :=
  [.appendStr [0x68, 0x69] none, .appendInt (-42) [0, 1] none, .popChar, .fit 0x20 40 (some 3),
    .appendHex 255 [] none, .appendStrn none 7 none]

/-- A string that is filled, outgrows its buffer and is filled again. -/
theorem string_run_safe_sample :
    ∃ t, exec strStep leavesRoom allocated sampleOps = some t ∧ t.s.length = 50 ∧
      t.s.capacity = 64 ∧ StrSafe t := by
  have result : (exec strStep leavesRoom allocated sampleOps).map
      (fun t => (t.s.length, t.s.capacity)) = some (50, 64) := by decide +kernel
  obtain ⟨t, eq, fields⟩ := Option.map_eq_some_iff.mp result
  obtain ⟨length, capacity⟩ := Prod.mk.inj fields
  exact ⟨t, eq, length, capacity, string_run_safe allocated allocated_started t (Run.of_exec eq)⟩

/-- Fitting a fresh string to 32 characters writes the terminator behind its 32 bytes. -/
theorem string_run_unsafe_fit :
    ¬ ∀ r, Started r → ∀ t, Run strStep Free r t → StrSafe t := by
  intro claim
  have result : (exec strStep (fun _ _ => true) allocated [.fit 0x20 32 none]).map
      (fun t => t.mem.writes.head?) = some (some (32, 32)) := by decide +kernel
  obtain ⟨t, eq, first⟩ := Option.map_eq_some_iff.mp result
  have safe := claim allocated allocated_started t ((Run.of_exec eq).mono fun _ _ _ => trivial)
  have inside := safe.1 (32, 32) (List.mem_of_mem_head? first)
  exact Nat.lt_irrefl 32 inside

end OhMyOs.Libs.GrowableString
