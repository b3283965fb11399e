/- GID: OhMyOs/Libs/StringSplit
   generality: I
   digest: kssplit round by round in one memory, and the pieces of a string. -/

import OhMyOs.Libs.GrowableStringContents
import OhMyOs.Libs.Vector

set_option autoImplicit false
set_option relaxedAutoImplicit false

namespace OhMyOs.Libs.StringSplit

open OhMyOs.Include.Constants
open OhMyOs.Lib.Blocks OhMyOs.Lib.Outcome OhMyOs.Lib.Runs OhMyOs.Lib.Stores
open OhMyOs.Libs.GrowableString OhMyOs.Libs.Vector

/-! ### The call -/

inductive Phase
  | start | loop | returned
  deriving DecidableEq

/-- What kmalloc returns in one round: for the array of the vector or the buffer of the piece if
it has to grow, and for the struct and the buffer of a new piece. -/
structure Answers where
  grow : Option Nat
  struct : Option Nat
  str : Option Nat

/-- The memory, the string structs by address, the vector, and the variables of `kssplit`. All
other memory in use is listed in `used`: everything but the array of the vector and the buffer of
`sub`. -/
structure SplitState where
  mem : Mem
  structs : Nat → KString
  vec : Vec
  sub : Option Nat
  i : Nat
  phase : Phase
  used : List Block

def pointerBytes (p : Nat) : List Byte :=
  [BitVec.ofNat 8 p, BitVec.ofNat 8 (p / 2 ^ 8), BitVec.ofNat 8 (p / 2 ^ 16),
    BitVec.ofNat 8 (p / 2 ^ 24)]

def vectorAt (m : Mem) (v : Vec) (index : Nat) : Nat :=
  let p := v.base + 4 * index
  (m.bytes p).toNat + 2 ^ 8 * (m.bytes (p + 1)).toNat + 2 ^ 16 * (m.bytes (p + 2)).toNat +
    2 ^ 24 * (m.bytes (p + 3)).toNat

def subBuffer (st : SplitState) : List Block :=
  match st.sub with
  | none => []
  | some addr => ((st.structs addr).str.map (·, (st.structs addr).capacity)).toList

/-- `vector_push(vec, string *, sub);` what it returns is not looked at. -/
def pushSub (st : SplitState) (new : Option Nat) : SplitState :=
  let r := vectorPush st.mem st.vec (pointerBytes (st.sub.getD 0)) new
  { st with mem := r.1, vec := r.2.1, used := subBuffer st ++ st.used }

def allocSub (st : SplitState) (a : Answers) : Except Fault SplitState := do
  let (m, s) ← ksalloc st.mem a.struct a.str
  match s, a.struct with
  | some s, some addr =>
    return { st with
      mem := m
      structs := Function.update st.structs addr s
      sub := some addr
      used := (addr, structSize) :: st.used }
  | _, _ => return { st with mem := m, sub := none }

def splitRound (source : Nat) (c : Byte) (st : SplitState) (a : Answers) :
    Except Fault SplitState :=
  match (st.structs source).str with
  | none => .error .nullPointer
  | some p =>
    if st.mem.bytes (p + st.i) = c then do
      let st ← allocSub (pushSub st a.grow) a
      return { st with i := st.i + 1 }
    else
      match st.sub with
      | none => .error .nullPointer
      | some addr => do
        let (m, sub, _) ←
          ksappendChar st.mem (st.structs addr) (st.mem.bytes (p + st.i)) a.grow
        return { st with mem := m, structs := Function.update st.structs addr sub, i := st.i + 1 }

def splitEnd (st : SplitState) (a : Answers) : Except Fault SplitState :=
  match st.sub with
  | none => .error .nullPointer
  | some addr =>
    if (st.structs addr).length = 0 then
      -- ksfree(sub)
      let m := (st.structs addr).str.elim st.mem (kfree st.mem)
      .ok { st with mem := kfree m addr, phase := .returned }
    else .ok { pushSub st a.grow with phase := .returned }

def splitStep (source : Nat) (c : Byte) (st : SplitState) (a : Answers) : Option SplitState :=
  match st.phase with
  | .start => ((allocSub st a).map fun st => { st with phase := .loop }).toOption
  | .loop =>
    if st.i < (st.structs source).length then (splitRound source c st a).toOption
    else (splitEnd st a).toOption
  | .returned => none

/-! ### What is assumed of kmalloc -/

def free (p n : Nat) (bs : List Block) : Bool :=
  0 < p && p + n ≤ 2 ^ 32 && bs.all fun b => Apart (p, n) b

def freshSub (bs : List Block) (a : Answers) : Bool :=
  match a.struct, a.str with
  | some s, some str =>
    free s structSize bs && free str stringMinSize ((s, structSize) :: bs)
  | _, _ => false

def freshArray (st : SplitState) (new : Option Nat) : Bool :=
  st.vec.size ≠ st.vec.capacity ||
    new.any fun p => free p (st.vec.elementSize * (st.vec.capacity * 2))
      (array st.vec :: (subBuffer st ++ st.used))

def freshBuffer (st : SplitState) (s : KString) (new : Option Nat) : Bool :=
  s.length + 1 ≤ s.capacity || s.length + 1 < 2 ^ 31 &&
    new.any fun p => free p (grownCapacity (s.length + 1))
      (array st.vec :: (subBuffer st ++ st.used))

def atSeparator (source : Nat) (c : Byte) (st : SplitState) : Bool :=
  (st.structs source).str.any fun p => st.mem.bytes (p + st.i) = c

def granted (source : Nat) (c : Byte) (st : SplitState) (a : Answers) : Bool :=
  match st.phase with
  | .start => freshSub (array st.vec :: st.used) a
  | .loop =>
    if st.i < (st.structs source).length then
      if atSeparator source c st then
        freshArray st a.grow &&
          freshSub (pushedArray st.vec a.grow :: (subBuffer st ++ st.used)) a
      else st.sub.all fun addr => freshBuffer st (st.structs addr) a.grow
    else st.sub.all fun addr => (st.structs addr).length = 0 || freshArray st a.grow
  | .returned => false

/-- The terminator of a piece that fills its buffer goes to no memory in use: not when the buffer
becomes full, and not when it is left for a larger one. -/
def spare (source : Nat) (c : Byte) (st : SplitState) (a : Answers) : Bool :=
  st.phase ≠ .loop || (st.structs source).length ≤ st.i || atSeparator source c st ||
    st.sub.all fun addr =>
      let s := st.structs addr
      s.str.all fun q =>
        (s.length + 1 ≠ s.capacity ||
          (array st.vec :: st.used).all fun b => ¬ Inside (q + s.capacity) b) &&
        (s.length + 1 ≤ s.capacity || a.grow ≠ some (q + s.capacity))

/-! ### What it is for -/

def pushed (start st : SplitState) : List (List Byte) :=
  (List.range (st.vec.size - start.vec.size)).map fun k =>
    contents st.mem (st.structs (vectorAt st.mem st.vec (start.vec.size + k)))

structure SplitLaw (c : Byte) (xs : List Byte) (pieces : List (List Byte)) : Prop where
  separated : ∀ ys ∈ pieces, c ∉ ys
  empty : xs = [] → pieces = []
  nonempty : xs ≠ [] → pieces ≠ []
  whole : xs ≠ [] → xs.getLast? ≠ some c → [c].intercalate pieces = xs
  final : xs.getLast? = some c → [c].intercalate pieces = xs.dropLast

def left (source : Nat) (st : SplitState) : Nat :=
  match st.phase with
  | .start => (st.structs source).length + 2
  | .loop => (st.structs source).length - st.i + 1
  | .returned => 0

/-- The call proceeds if kmalloc serves it, returns in the end, and has then pushed the pieces of
the string. No other memory in use changes. -/
structure Splits (source : Nat) (c : Byte) (xs : List Byte) (start st : SplitState) : Prop where
  progress : st.phase ≠ .returned → ∀ a, (granted source c st a && spare source c st a) = true →
    ∃ t, splitStep source c st a = some t ∧ left source t < left source st ∧
      Same st.mem.bytes t.mem.bytes st.used
  law : st.phase = .returned →
    start.vec.size ≤ st.vec.size ∧ SplitLaw c xs (pushed start st)
  kept : Same start.mem.bytes st.mem.bytes start.used

def StoredIn (st : SplitState) (addr : Nat) (xs : List Byte) : Prop :=
  (addr, structSize) ∈ st.used ∧ ∃ p, Stored st.mem (st.structs addr) p xs ∧
    (p, (st.structs addr).capacity) ∈ st.used

def vectorStructSize : Nat := 16

/-- `kssplit` is called with this string and a vector of pointers; both structs are in memory that
is in use. -/
structure Started (source : Nat) (xs : List Byte) (before : List (List Byte)) (st : SplitState) :
    Prop where
  phase : st.phase = .start
  i : st.i = 0
  source : StoredIn st source xs
  struct : ∃ addr, (addr, vectorStructSize) ∈ st.used
  elements : Elements st.mem st.vec before
  pointers : st.vec.elementSize = 4
  apart : ∀ b ∈ st.used, Apart (array st.vec) b

/-! ### Pieces of a list -/

section Lists
variable {c : Byte} {ds : List (List Byte)} {ys xs : List Byte}

private theorem intercalate_concat (c : Byte) (ds : List (List Byte)) (ys : List Byte) :
    [c].intercalate (ds ++ [ys]) = (ds.flatMap fun d => d ++ [c]) ++ ys := by
  induction ds with
  | nil => exact List.intercalate_singleton
  | cons d ds ih =>
    rw [List.cons_append, List.intercalate_cons_of_ne_nil (by simp), ih, List.flatMap_cons,
      List.append_assoc (d ++ [c])]

private theorem splitLaw_of_join (separated : ∀ d ∈ ds, c ∉ d) (last : c ∉ ys)
    (join : [c].intercalate (ds ++ [ys]) = xs) :
    SplitLaw c xs (if ys = [] then ds else ds ++ [ys]) := by
  by_cases none : ys = []
  · rw [if_pos none]
    rw [none, intercalate_concat, List.append_nil] at join
    rcases List.eq_nil_or_concat ds with rfl | ⟨es, d, rfl⟩
    · -- no separator and no character
      obtain rfl : xs = [] := join.symm
      exact ⟨nofun, fun _ => rfl, fun some => absurd rfl some, fun some => absurd rfl some, nofun⟩
    · rw [List.concat_eq_append] at separated join ⊢
      have ends : xs = (es.flatMap fun e => e ++ [c]) ++ d ++ [c] := by
        rw [← join, List.flatMap_append, List.flatMap_singleton, List.append_assoc]
      have closed : xs.getLast? = some c := by rw [ends, List.getLast?_concat]
      refine ⟨separated, ?_, fun _ => by simp, fun _ unfinished => absurd closed unfinished,
        fun _ => ?_⟩
      · rintro rfl
        cases closed
      · rw [intercalate_concat, ends, List.dropLast_concat]
  · rw [if_neg none]
    refine ⟨?_, ?_, fun _ => by simp, fun _ _ => join, ?_⟩
    · intro d member
      rcases List.mem_append.mp member with before | this
      · exact separated d before
      · obtain rfl := List.mem_singleton.mp this
        exact last
    · rintro rfl
      rw [intercalate_concat, List.append_eq_nil_iff] at join
      exact absurd join.2 none
    · intro closed
      rw [← join, intercalate_concat, List.getLast?_append_of_ne_nil _ none] at closed
      exact absurd (List.mem_of_getLast? closed) last

structure Cut (c : Byte) (xs : List Byte) (n : Nat) (ds : List (List Byte)) (ys : List Byte) :
    Prop where
  inside : n ≤ xs.length
  join : [c].intercalate (ds ++ [ys]) = xs.take n
  separated : ∀ d ∈ ds, c ∉ d
  last : c ∉ ys

theorem Cut.start (c : Byte) (xs : List Byte) : Cut c xs 0 [] [] :=
  ⟨Nat.zero_le _, rfl, nofun, nofun⟩

theorem Cut.extend {n : Nat} {x : Byte} (cut : Cut c xs n ds ys) (at_ : xs[n]? = some x)
    (other : x ≠ c) : Cut c xs (n + 1) ds (ys ++ [x]) := by
  obtain ⟨inside, -⟩ := List.getElem?_eq_some_iff.mp at_
  refine ⟨inside, ?_, cut.separated, ?_⟩
  · rw [intercalate_concat, ← List.append_assoc, ← intercalate_concat, cut.join,
      List.take_add_one, at_]
    rfl
  · rw [List.mem_append, not_or, List.mem_singleton]
    exact ⟨cut.last, other.symm⟩

theorem Cut.close {n : Nat} (cut : Cut c xs n ds ys) (at_ : xs[n]? = some c) :
    Cut c xs (n + 1) (ds ++ [ys]) [] := by
  obtain ⟨inside, -⟩ := List.getElem?_eq_some_iff.mp at_
  refine ⟨inside, ?_, ?_, nofun⟩
  · rw [intercalate_concat, List.append_nil, List.flatMap_append, List.flatMap_singleton,
      ← List.append_assoc, ← intercalate_concat, cut.join, List.take_add_one, at_]
    rfl
  · intro d member
    rcases List.mem_append.mp member with before | this
    · exact cut.separated d before
    · obtain rfl := List.mem_singleton.mp this
      exact cut.last

theorem Cut.splitLaw (cut : Cut c xs xs.length ds ys) :
    SplitLaw c xs (if ys = [] then ds else ds ++ [ys]) :=
  splitLaw_of_join cut.separated cut.last (by rw [cut.join, List.take_length])

end Lists

end OhMyOs.Libs.StringSplit
