/- GID: OhMyOs/Lib/Stores
   generality: G
   digest: Sequences of values in a flat memory, stored one by one, and what stores leave alone. -/

import Mathlib.Logic.Function.Basic

set_option autoImplicit false
set_option relaxedAutoImplicit false

namespace OhMyOs.Lib.Stores

variable {β : Type} {mem mem' : Nat → β} {p a n : Nat} {x : β} {xs ys : List β}

def Holds (mem : Nat → β) (p : Nat) (xs : List β) : Prop :=
  ∀ i x, xs[i]? = some x → mem (p + i) = x

def write : (Nat → β) → Nat → List β → Nat → β
  | mem, _, [] => mem
  | mem, p, x :: xs => write (Function.update mem p x) (p + 1) xs

def read (mem : Nat → β) (p n : Nat) : List β := (List.range n).map fun i => mem (p + i)

theorem Holds.nil : Holds mem p [] := nofun

theorem Holds.append_iff :
    Holds mem p (xs ++ ys) ↔ Holds mem p xs ∧ Holds mem (p + xs.length) ys := by
  constructor
  · intro holds
    constructor
    · intro i x at_
      obtain ⟨inside, -⟩ := List.getElem?_eq_some_iff.mp at_
      exact holds i x (by rw [List.getElem?_append_left inside, at_])
    · intro i x at_
      have here := holds (xs.length + i) x
        (by rw [List.getElem?_append_right (by omega), Nat.add_sub_cancel_left, at_])
      rwa [← Nat.add_assoc] at here
  · rintro ⟨first, second⟩ i x at_
    by_cases inside : i < xs.length
    · rw [List.getElem?_append_left inside] at at_
      exact first i x at_
    · rw [List.getElem?_append_right (by omega)] at at_
      have here := second (i - xs.length) x at_
      rwa [Nat.add_assoc, Nat.add_sub_cancel' (by omega)] at here

private theorem Holds.singleton (here : mem p = x) : Holds mem p [x] := by
  intro i y at_
  obtain ⟨inside, value⟩ := List.getElem?_eq_some_iff.mp at_
  obtain rfl : i = 0 := by simpa using inside
  exact here.trans value

theorem Holds.congr (holds : Holds mem p xs)
    (same : ∀ a, p ≤ a → a < p + xs.length → mem' a = mem a) : Holds mem' p xs := by
  intro i x at_
  obtain ⟨inside, -⟩ := List.getElem?_eq_some_iff.mp at_
  rw [same (p + i) (by omega) (by omega)]
  exact holds i x at_

theorem Holds.take (holds : Holds mem p xs) : Holds mem p (xs.take n) := by
  intro i x at_
  obtain ⟨inside, value⟩ := List.getElem?_eq_some_iff.mp at_
  rw [List.getElem_take] at value
  exact holds i x (List.getElem?_eq_some_iff.mpr ⟨by simp at inside; omega, value⟩)

theorem Holds.read_eq (holds : Holds mem p xs) : read mem p xs.length = xs := by
  apply List.ext_getElem?
  intro i
  by_cases inside : i < xs.length
  · have value := holds i _ (List.getElem?_eq_getElem inside)
    simp [read, inside, value]
  · simp [read, inside]

theorem write_outside (out : a < p ∨ p + xs.length ≤ a) : write mem p xs a = mem a := by
  induction xs generalizing mem p with
  | nil => rfl
  | cons x xs ih =>
    rw [List.length_cons] at out
    rw [write, ih (by omega)]
    exact Function.update_of_ne (by omega) _ _

theorem write_holds (mem : Nat → β) (p : Nat) (xs : List β) : Holds (write mem p xs) p xs := by
  induction xs generalizing mem p with
  | nil => exact Holds.nil
  | cons x xs ih =>
    intro i y at_
    cases i with
    | zero =>
      obtain rfl := Option.some.inj at_
      rw [write, write_outside (.inl (by omega))]
      exact Function.update_self ..
    | succ i =>
      have here := ih (Function.update mem p x) (p + 1) i y at_
      rwa [Nat.add_assoc, Nat.add_comm 1 i] at here

theorem read_write (mem : Nat → β) (p : Nat) (xs : List β) :
    read (write mem p xs) p xs.length = xs :=
  (write_holds mem p xs).read_eq

@[simp] theorem length_read (mem : Nat → β) (p n : Nat) : (read mem p n).length = n := by
  simp [read]

theorem write_append (mem : Nat → β) (p : Nat) (xs ys : List β) :
    write mem p (xs ++ ys) = write (write mem p xs) (p + xs.length) ys := by
  induction xs generalizing mem p with
  | nil => rfl
  | cons x xs ih =>
    rw [List.cons_append, write, ih, write, List.length_cons, Nat.add_assoc, Nat.add_comm 1]

end OhMyOs.Lib.Stores
