/- GID: OhMyOs/Libs/Vector
   generality: I
   digest: The growable array of libs/vector.c, and what a push does to its elements. -/

import OhMyOs.Lib.Blocks
import OhMyOs.Libs.GrowableString

set_option autoImplicit false
set_option relaxedAutoImplicit false

namespace OhMyOs.Libs.Vector

open OhMyOs.Include.Constants
open OhMyOs.Lib.Blocks OhMyOs.Lib.Stores
open OhMyOs.Libs.GrowableString (Mem kmalloc kfree)

structure Vec where
  base : Nat
  elementSize : Nat
  size : Nat
  capacity : Nat

def memcpy (m : Mem) (dst : Nat) (bytes : List Byte) : Mem :=
  { m with bytes := write m.bytes dst bytes }

def ele (v : Vec) (index : Nat) : Nat := (v.base + v.elementSize * index) % 2 ^ 32

/-- `__vector_expand`; `new` is what kmalloc returns. -/
def vectorExpand (m : Mem) (v : Vec) (new : Option Nat) : Mem × Vec × Int :=
  match new with
  | none => (m, v, -enomem)
  | some new =>
    let m := kmalloc m new
    let m := memcpy m new (read m.bytes v.base (v.elementSize * v.size % 2 ^ 32))
    (kfree m v.base, { v with base := new, capacity := v.capacity * 2 % 2 ^ 32 }, 0)

/-- `__vector_push` of an element with these bytes; `new` is what kmalloc returns if the array has
to grow. -/
def vectorPush (m : Mem) (v : Vec) (bytes : List Byte) (new : Option Nat) : Mem × Vec × Int :=
  let (m, v, ret) := if v.size = v.capacity then vectorExpand m v new else (m, v, 0)
  if ret ≠ 0 then (m, v, -enomem)
  else (memcpy m (ele v v.size) bytes, { v with size := (v.size + 1) % 2 ^ 32 }, 0)

def array (v : Vec) : Block := (v.base, v.elementSize * v.capacity)

def pushedArray (v : Vec) (new : Option Nat) : Block :=
  if v.size = v.capacity then (new.getD 0, v.elementSize * (v.capacity * 2)) else array v

structure Elements (m : Mem) (v : Vec) (es : List (List Byte)) : Prop where
  size : v.size = es.length
  width : ∀ e ∈ es, e.length = v.elementSize
  fits : es.length ≤ v.capacity
  element : 0 < v.elementSize
  positive : 0 < v.capacity
  nonnull : 0 < v.base
  word : v.base + v.elementSize * v.capacity ≤ 2 ^ 32
  holds : Holds m.bytes v.base es.flatten

variable {m m' : Mem} {v : Vec} {e : List Byte} {es : List (List Byte)} {new : Option Nat}

private theorem flatten_length_of_width {n : Nat} (width : ∀ e ∈ es, e.length = n) :
    es.flatten.length = n * es.length := by
  rw [List.length_flatten]
  induction es with
  | nil => rfl
  | cons e es ih =>
    rw [List.map_cons, List.sum_cons, List.length_cons, Nat.mul_succ, width e List.mem_cons_self,
      ih fun d member => width d (List.mem_cons_of_mem _ member), Nat.add_comm]

private theorem Elements.flatten_length (elements : Elements m v es) :
    es.flatten.length = v.elementSize * es.length :=
  flatten_length_of_width elements.width

theorem Elements.same (elements : Elements m v es) (same : Same m.bytes m'.bytes [array v]) :
    Elements m' v es := by
  refine { elements with holds := same.holds List.mem_cons_self ?_ elements.holds }
  rw [elements.flatten_length]
  exact Nat.mul_le_mul_left _ elements.fits

theorem Elements.holds_at {k : Nat} (elements : Elements m v es) (at_ : es[k]? = some e) :
    Holds m.bytes (v.base + v.elementSize * k) e := by
  obtain ⟨inside, rfl⟩ := List.getElem?_eq_some_iff.mp at_
  have split : es.flatten = (es.take k).flatten ++ (es[k] ++ (es.drop (k + 1)).flatten) := by
    rw [← List.flatten_cons, ← List.flatten_append, ← List.drop_eq_getElem_cons inside,
      List.take_append_drop]
  have front : (es.take k).flatten.length = v.elementSize * k := by
    rw [flatten_length_of_width fun d member => elements.width d (List.mem_of_mem_take member),
      List.length_take, Nat.min_eq_left inside.le]
  have holds := elements.holds
  rw [split, Holds.append_iff, Holds.append_iff, front] at holds
  exact holds.2.1

def Grows (v : Vec) (new : Option Nat) : Prop :=
  v.size = v.capacity → ∃ p, new = some p ∧ 0 < p ∧ p + v.elementSize * (v.capacity * 2) ≤ 2 ^ 32 ∧
    Apart (p, v.elementSize * (v.capacity * 2)) (array v)

theorem Elements.place {k : Nat} (elements : Elements m v es) (inside : k < v.capacity) :
    ele v k = v.base + v.elementSize * k ∧ Within (ele v k, v.elementSize) (array v) := by
  have word := elements.word
  have element := elements.element
  have last : v.elementSize * (k + 1) ≤ v.elementSize * v.capacity :=
    Nat.mul_le_mul_left _ inside
  rw [Nat.mul_succ] at last
  have here : ele v k = v.base + v.elementSize * k := Nat.mod_eq_of_lt (by omega)
  refine ⟨here, ?_⟩
  simp only [Within, here, array]
  omega

theorem Elements.dropLast (elements : Elements m v (es ++ [e])) :
    Elements m { v with size := v.size - 1 } es := by
  have size := elements.size
  have fits := elements.fits
  have holds := elements.holds
  rw [List.length_append, List.length_singleton] at size fits
  rw [List.flatten_append, Holds.append_iff] at holds
  refine ⟨?_, fun d member => elements.width d (List.mem_append_left _ member), ?_,
    elements.element, elements.positive, elements.nonnull, elements.word, holds.1⟩
  · change v.size - 1 = es.length
    omega
  · change es.length ≤ v.capacity
    omega

private theorem Elements.ele_eq (elements : Elements m v es) (room : es.length < v.capacity) :
    ele v v.size = v.base + es.flatten.length ∧
      es.flatten.length + v.elementSize ≤ v.elementSize * v.capacity := by
  obtain ⟨here, within⟩ := elements.place room
  rw [← elements.size] at here within
  have length := elements.flatten_length
  rw [← elements.size] at length
  rw [← length] at here
  simp only [Within, here, array] at within
  exact ⟨here, by omega⟩

theorem Elements.append (elements : Elements m v es) (room : es.length < v.capacity)
    (wide : e.length = v.elementSize) :
    Elements (memcpy m (ele v v.size) e) { v with size := (v.size + 1) % 2 ^ 32 } (es ++ [e]) := by
  have word := elements.word
  have count : v.capacity ≤ v.elementSize * v.capacity :=
    Nat.le_mul_of_pos_left _ elements.element
  have base := elements.nonnull
  refine ⟨?_, ?_, ?_, elements.element, elements.positive, base, word, ?_⟩
  · rw [List.length_append, List.length_singleton, elements.size, Nat.mod_eq_of_lt (by omega)]
  · intro d member
    rcases List.mem_append.mp member with before | this
    · exact elements.width d before
    · obtain rfl := List.mem_singleton.mp this
      exact wide
  · rw [List.length_append, List.length_singleton]
    exact room
  · rw [List.flatten_append, List.flatten_singleton, Holds.append_iff, (elements.ele_eq room).1]
    refine ⟨elements.holds.congr fun a _ high => write_outside (.inl high), ?_⟩
    exact write_holds m.bytes _ e

structure Expanded (m m' : Mem) (v v' : Vec) (es : List (List Byte)) (new : Option Nat) : Prop where
  elements : Elements m' v' es
  array : array v' = pushedArray v new
  elementSize : v'.elementSize = v.elementSize
  room : es.length < v'.capacity
  frame : ∀ a, ¬ Inside a (pushedArray v new) → m'.bytes a = m.bytes a

theorem vectorExpand_expanded (elements : Elements m v es) (full : v.size = v.capacity)
    (grows : Grows v new) :
    (vectorExpand m v new).2.2 = 0 ∧
      Expanded m (vectorExpand m v new).1 v (vectorExpand m v new).2.1 es new := by
  obtain ⟨p, rfl, nonnull, word, -⟩ := grows full
  have length := elements.flatten_length
  have size := elements.size
  have positive := elements.positive
  have room : v.elementSize * v.capacity ≤ v.elementSize * (v.capacity * 2) :=
    Nat.mul_le_mul_left _ (by omega)
  have count : v.capacity * 2 ≤ v.elementSize * (v.capacity * 2) :=
    Nat.le_mul_of_pos_left _ elements.element
  have capacity : v.capacity * 2 % 2 ^ 32 = v.capacity * 2 := Nat.mod_eq_of_lt (by omega)
  have bytes : v.elementSize * v.size % 2 ^ 32 = es.flatten.length := by
    rw [length, size, Nat.mod_eq_of_lt]
    rw [← size, full]
    omega
  have copied : (vectorExpand m v (some p)).1.bytes = write m.bytes p es.flatten := by
    change write m.bytes p (read m.bytes v.base (v.elementSize * v.size % 2 ^ 32)) = _
    rw [bytes, elements.holds.read_eq]
  have here : pushedArray v (some p) = (p, v.elementSize * (v.capacity * 2)) := if_pos full
  refine ⟨rfl, ⟨size, elements.width, ?_, elements.element, ?_, nonnull, ?_, ?_⟩, ?_, rfl, ?_, ?_⟩
  · change es.length ≤ v.capacity * 2 % 2 ^ 32
    omega
  · change 0 < v.capacity * 2 % 2 ^ 32
    omega
  · change p + v.elementSize * (v.capacity * 2 % 2 ^ 32) ≤ 2 ^ 32
    rwa [capacity]
  · rw [copied]
    exact write_holds m.bytes p es.flatten
  · change (p, v.elementSize * (v.capacity * 2 % 2 ^ 32)) = _
    rw [capacity, here]
  · change es.length < v.capacity * 2 % 2 ^ 32
    omega
  · intro a outside
    rw [here] at outside
    unfold Inside at outside
    rw [copied]
    refine write_outside ?_
    rw [length, ← size, full]
    omega

private theorem Elements.grown (elements : Elements m v es) (grows : Grows v new) : ∃ m1 v1,
    (if v.size = v.capacity then vectorExpand m v new else (m, v, 0)) = (m1, v1, 0) ∧
      Expanded m m1 v v1 es new := by
  by_cases full : v.size = v.capacity
  · obtain ⟨zero, expanded⟩ := vectorExpand_expanded elements full grows
    exact ⟨_, _, by rw [if_pos full, ← zero], expanded⟩
  · have fits := elements.fits
    have size := elements.size
    exact ⟨m, v, if_neg full, elements, (if_neg full).symm, rfl, by omega, fun _ _ => rfl⟩

theorem vectorPush_elements (elements : Elements m v es) (wide : e.length = v.elementSize)
    (grows : Grows v new) :
    ∃ m' v', vectorPush m v e new = (m', v', 0) ∧ Elements m' v' (es ++ [e]) ∧
      array v' = pushedArray v new ∧ v'.elementSize = v.elementSize ∧
      ∀ a, ¬ Inside a (pushedArray v new) → m'.bytes a = m.bytes a := by
  obtain ⟨m1, v1, before, expanded⟩ := elements.grown grows
  have room := expanded.room
  have appended := expanded.elements.append room (wide.trans expanded.elementSize.symm)
  refine ⟨_, _, ?_, appended, expanded.array, expanded.elementSize, fun a outside => ?_⟩
  · unfold vectorPush
    rw [before]
    rfl
  · rw [← expanded.frame a outside]
    obtain ⟨place, inside⟩ := expanded.elements.ele_eq room
    rw [← expanded.array] at outside
    simp only [Inside, array] at outside
    refine write_outside ?_
    rw [place, wide, ← expanded.elementSize]
    omega

end OhMyOs.Libs.Vector
