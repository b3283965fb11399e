/- GID: OhMyOs/Libs/GrowableString
   generality: I
   digest: The growable strings of libs/string.c over buffers of bytes. -/

import OhMyOs.Include.Constants
import OhMyOs.Include.Log2

set_option autoImplicit false
set_option relaxedAutoImplicit false

namespace OhMyOs.Libs.GrowableString

open OhMyOs.Include.Constants
open OhMyOs.Include.Log2

def stringMinSize : Nat := 32

inductive Fault
  | assertion | nullPointer
  deriving DecidableEq

/-- The bytes of memory by address, the pointers that kmalloc returned and that are not freed,
each byte written to a string buffer with the size of the buffer, and each pointer passed to
kfree with whether it was one of kmalloc's. -/
structure Mem where
  bytes : Nat → Byte
  heap : List Nat
  writes : List (Nat × Nat)
  frees : List (Nat × Bool)

/-- `struct string`; `none` is NULL. -/
structure KString where
  str : Option Nat
  length : Nat
  capacity : Nat

def assert (expr : Bool) : Except Fault Unit :=
  if expr then .ok () else .error .assertion

def kmalloc (m : Mem) (ptr : Nat) : Mem := { m with heap := ptr :: m.heap }

def kfree (m : Mem) (ptr : Nat) : Mem :=
  { m with heap := m.heap.erase ptr, frees := (ptr, decide (ptr ∈ m.heap)) :: m.frees }

/-- `str[i] = c`, where `str` points to `size` bytes. -/
def put (m : Mem) (str : Option Nat) (size i : Nat) (c : Byte) : Except Fault Mem :=
  match str with
  | none => .error .nullPointer
  | some p => .ok
    { m with
      bytes := Function.update m.bytes (p + i) c
      writes := (i, size) :: m.writes }

/-! ### C strings -/

/-- `strlen`; the bytes behind a `const char *` end with a NUL that is not listed. -/
def strlen (s : List Byte) : Nat := (s.takeWhile (· ≠ 0)).length

/-- `strncpy` to `dst + i` from the `j`-th byte of `src`, which is read when its turn comes: at a
NUL the source pointer stays. -/
def strncpy (dst : Option Nat) (size : Nat) (src : Mem → Nat → Byte) :
    Nat → Mem → Nat → Nat → Except Fault Mem
  | 0, m, _, _ => .ok m
  | len + 1, m, i, j => do
    let c := src m j
    let m ← put m dst size i c
    strncpy dst size src len m (i + 1) (if c ≠ 0 then j + 1 else j)

def reverseLoop : Nat → List Byte → Nat → Nat → List Byte
  | 0, buf, _, _ => buf
  | fuel + 1, buf, i, j =>
    if i < j then
      reverseLoop fuel ((buf.set i (buf.getD j 0)).set j (buf.getD i 0)) (i + 1) (j - 1)
    else buf

def reverseStr (buf : List Byte) (i j : Nat) : List Byte := reverseLoop (j + 1) buf i j

/-- `while (val > 0) { buf[i++] = digit(val % base); val /= base; }` -/
def digitLoop (base : Nat) (digit : Nat → Byte) : Nat → Nat → List Byte → List Byte
  | 0, _, buf => buf
  | fuel + 1, val, buf =>
    if 0 < val then digitLoop base digit fuel (val / base) (buf ++ [digit (val % base)]) else buf

/-- What `to_str` leaves in its buffer; `val *= -1` does not change the smallest `int`. -/
def toStr (val : Int) : List Byte :=
  if val = 0 then [48]
  else
    let buf : List Byte := if val < 0 then [45] else []
    let abs := if val < 0 then (val * -1).bmod (2 ^ 32) else val
    let buf := digitLoop 10 (fun d => BitVec.ofNat 8 (48 + d)) 32 abs.toNat buf
    reverseStr buf (if val < 0 then 1 else 0) (buf.length - 1)

def strHex (d : Nat) : Byte := if d < 10 then BitVec.ofNat 8 (48 + d) else BitVec.ofNat 8 (87 + d)

/-- What `to_hex` leaves in its buffer. -/
def toHex (val : Nat) : List Byte :=
  let buf := digitLoop 16 strHex 32 val [48, 120]
  let buf := buf ++ List.replicate (10 - buf.length) 48
  reverseStr buf 2 (buf.length - 1)

/-! ### Strings -/

def ksinit (buf : Option Nat) (size : Nat) : KString := ⟨buf, 0, size⟩

/-- `s` and `str` are what kmalloc returns for the struct and the buffer. -/
def ksalloc (m : Mem) (s str : Option Nat) : Except Fault (Mem × Option KString) :=
  match s, str with
  | none, _ => .ok (m, none)
  | some s, none => .ok (kfree (kmalloc m s) s, none)
  | some s, some str => do
    let m ← put (kmalloc (kmalloc m s) str) (some str) stringMinSize 0 0
    return (m, some ⟨some str, 0, stringMinSize⟩)

/-- The part of `string_try_expand` that moves the contents to `str`, which has `size` bytes. -/
def moveBuffer (m : Mem) (s : KString) (str size : Nat) : Except Fault Mem :=
  match s.str with
  | none => .ok m
  | some old => do
    let m ← strncpy (some str) size (fun m j => m.bytes (old + j)) s.length m 0 0
    let m ← put m (some old) s.capacity s.length 0
    return kfree m old

/-- `str` is what kmalloc returns if it is called. -/
def stringTryExpand (m : Mem) (s : KString) (size : Nat) (str : Option Nat) :
    Except Fault (Mem × KString × Int) :=
  if size ≤ s.capacity then .ok (m, s, 0)
  else do
    let size := roundupPowOfTwo ((size + 1) % 2 ^ 32)
    assert (s.capacity < size)
    match str with
    | none => return (m, s, -enomem)
    | some str =>
      let m ← moveBuffer (kmalloc m str) s str size
      return (m, { s with str := some str, capacity := size }, 0)

def ksappendChar (m : Mem) (s : KString) (c : Byte) (str : Option Nat) :
    Except Fault (Mem × KString × Int) := do
  let (m, s, ret) ← stringTryExpand m s ((s.length + 1) % 2 ^ 32) str
  if ret ≠ 0 then return (m, s, ret)
  let m ← put m s.str s.capacity s.length c
  let s := { s with length := (s.length + 1) % 2 ^ 32 }
  let m ← put m s.str s.capacity s.length 0
  return (m, s, 0)

def kspopChar (m : Mem) (s : KString) : Except Fault (Mem × KString × Byte) :=
  if s.length = 0 then .ok (m, s, 0)
  else
    match s.str with
    | none => .error .nullPointer
    | some p => do
      let c := m.bytes (p + (s.length - 1))
      let s := { s with length := s.length - 1 }
      let m ← put m s.str s.capacity s.length 0
      return (m, s, c)

/-- `text` is what is behind the pointer argument, and `str` what kmalloc returns. -/
def ksappendStrn (m : Mem) (s : KString) (text : Option (List Byte)) (length : Nat)
    (str : Option Nat) : Except Fault (Mem × KString × Int) :=
  match text with
  | none => .ok (m, s, 0)
  | some text => do
    let length := if strlen text < length then strlen text else length
    let (m, s, ret) ← stringTryExpand m s ((s.length + length) % 2 ^ 32) str
    if ret ≠ 0 then return (m, s, ret)
    let m ← strncpy s.str s.capacity (fun _ j => text.getD j 0) length m s.length 0
    let s := { s with length := (s.length + length) % 2 ^ 32 }
    let m ← put m s.str s.capacity s.length 0
    return (m, s, 0)

def ksappendStr (m : Mem) (s : KString) (text : List Byte) (str : Option Nat) :
    Except Fault (Mem × KString × Int) :=
  ksappendStrn m s (some text) (strlen text) str

/-- `rest` is what the stack holds behind the formatted number. -/
def ksappendInt (m : Mem) (s : KString) (val : Int) (rest : List Byte) (str : Option Nat) :
    Except Fault (Mem × KString × Int) :=
  ksappendStrn m s (some (toStr val ++ rest)) (toStr val).length str

def ksappendHex (m : Mem) (s : KString) (val : Int) (rest : List Byte) (str : Option Nat) :
    Except Fault (Mem × KString × Int) :=
  let text := toHex (val % 2 ^ 32).toNat
  ksappendStrn m s (some (text ++ rest)) text.length str

/-- `while (s->length < n) { s->str[s->length++] = c; }` -/
def fitLoop (str : Option Nat) (capacity : Nat) (c : Byte) : Nat → Mem → Nat → Except Fault Mem
  | 0, m, _ => .ok m
  | count + 1, m, i => do
    let m ← put m str capacity i c
    fitLoop str capacity c count m (i + 1)

/-- `n` is the argument as a `size_t`, which is what it is compared with. -/
def ksfit (m : Mem) (s : KString) (c : Byte) (n : Nat) (str : Option Nat) :
    Except Fault (Mem × KString × Int) := do
  let (m, s, ret) ← stringTryExpand m s n str
  if ret ≠ 0 then return (m, s, ret)
  let m ← fitLoop s.str s.capacity c (n - s.length) m s.length
  let m ← put m s.str s.capacity n 0
  return (m, { s with length := n }, 0)

end OhMyOs.Libs.GrowableString
