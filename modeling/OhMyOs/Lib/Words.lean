/- GID: OhMyOs/Lib/Words
   generality: G
   digest: Words of several bytes in a flat memory, the lowest byte first. -/

import OhMyOs.Lib.Stores

set_option autoImplicit false
set_option relaxedAutoImplicit false

namespace OhMyOs.Lib.Words

open OhMyOs.Lib.Stores

abbrev Memory := Nat → BitVec 8

def wordBytes (n : Nat) (w : BitVec (8 * n)) : List (BitVec 8) :=
  (List.range n).map fun i => w.extractLsb' (8 * i) 8

def store (n : Nat) (mem : Memory) (p : Nat) (w : BitVec (8 * n)) : Memory :=
  write mem p (wordBytes n w)

def load : (n : Nat) → Memory → Nat → BitVec (8 * n)
  | 0, _, _ => 0
  | n + 1, mem, p => (load n mem (p + 1) ++ mem p : BitVec (8 * n + 8))

variable {mem mem' : Memory} {n k p q : Nat}

theorem length_wordBytes (w : BitVec (8 * n)) : (wordBytes n w).length = n := by
  simp [wordBytes]

private theorem getLsbD_load {i : Nat} (inside : i < 8 * n) :
    (load n mem p).getLsbD i = (mem (p + i / 8)).getLsbD (i % 8) := by
  induction n generalizing i p with
  | zero => omega
  | succ n ih =>
    change (load n mem (p + 1) ++ mem p).getLsbD i = _
    rw [BitVec.getLsbD_append]
    by_cases low : i < 8
    · rw [if_pos low, Nat.div_eq_of_lt low, Nat.mod_eq_of_lt low]
      rfl
    · rw [if_neg low, ih (by omega), show p + 1 + (i - 8) / 8 = p + i / 8 by omega,
        show (i - 8) % 8 = i % 8 by omega]

theorem load_congr (same : ∀ a, p ≤ a → a < p + n → mem' a = mem a) :
    load n mem' p = load n mem p := by
  refine BitVec.eq_of_getLsbD_eq fun i inside => ?_
  rw [getLsbD_load inside, getLsbD_load inside, same _ (by omega) (by omega)]

theorem load_store (w : BitVec (8 * n)) : load n (store n mem p w) p = w := by
  refine BitVec.eq_of_getLsbD_eq fun i inside => ?_
  have byte : (wordBytes n w)[i / 8]? = some (w.extractLsb' (8 * (i / 8)) 8) := by
    simp [wordBytes, show i / 8 < n by omega]
  rw [getLsbD_load inside, store, write_holds mem p _ _ _ byte, BitVec.getLsbD_extractLsb',
    Nat.div_add_mod, decide_eq_true (Nat.mod_lt i (by decide)), Bool.true_and]

theorem load_store_apart {w : BitVec (8 * k)} (apart : p + n ≤ q ∨ q + k ≤ p) :
    load n (store k mem q w) p = load n mem p := by
  refine load_congr fun a low high => write_outside ?_
  rw [length_wordBytes]
  omega

private theorem load_store_low (w : BitVec (8 * n)) (less : k ≤ n) :
    load k (store n mem p w) p = w.setWidth (8 * k) := by
  have whole : load n (store n mem p w) p = w := load_store w
  refine BitVec.eq_of_getLsbD_eq fun i inside => ?_
  have bit : (load n (store n mem p w) p).getLsbD i = w.getLsbD i := by rw [whole]
  rw [getLsbD_load (by omega)] at bit
  rw [getLsbD_load inside, bit, BitVec.getLsbD_setWidth, decide_eq_true inside, Bool.true_and]

def storeWords (mem : Memory) (p : Nat) : List (BitVec 32) → Memory
  | [] => mem
  | w :: ws => store 4 (storeWords mem (p + 4) ws) p w

theorem storeWords_append (xs ys : List (BitVec 32)) :
    storeWords mem p (xs ++ ys) = storeWords (storeWords mem (p + 4 * xs.length) ys) p xs := by
  induction xs generalizing p with
  | nil => rfl
  | cons x xs ih =>
    rw [List.cons_append, storeWords, ih, storeWords, List.length_cons,
      show p + 4 + 4 * xs.length = p + 4 * (xs.length + 1) by omega]

theorem storeWords_outside (ws : List (BitVec 32)) {a : Nat}
    (out : a < p ∨ p + 4 * ws.length ≤ a) : storeWords mem p ws a = mem a := by
  induction ws generalizing p with
  | nil => rfl
  | cons w ws ih =>
    rw [List.length_cons] at out
    rw [storeWords, store, write_outside (by rw [length_wordBytes]; omega)]
    exact ih (by omega)

theorem load_storeWords {ws : List (BitVec 32)} {i : Nat} {w : BitVec 32} (less : k ≤ 4)
    (here : ws[i]? = some w) : load k (storeWords mem p ws) (p + 4 * i) = w.setWidth (8 * k) := by
  induction ws generalizing p i with
  | nil => simp at here
  | cons x ws ih =>
    cases i with
    | zero =>
      obtain rfl : x = w := by simpa using here
      exact load_store_low (n := 4) x less
    | succ i =>
      rw [storeWords, load_store_apart (.inr (by omega)),
        show p + 4 * (i + 1) = p + 4 + 4 * i by omega]
      exact ih (by simpa using here)

theorem load_storeWords_word {ws : List (BitVec 32)} {i : Nat} {w : BitVec 32}
    (here : ws[i]? = some w) : load 4 (storeWords mem p ws) (p + 4 * i) = w :=
  (load_storeWords (Nat.le_refl 4) here).trans (BitVec.setWidth_eq w)

theorem or_eq_or_iff (x y bits : BitVec n) :
    x ||| bits = y ||| bits ↔ x &&& ~~~bits = y &&& ~~~bits := by
  have clear : ∀ z : BitVec n, (z ||| bits) &&& ~~~bits = z &&& ~~~bits := by
    intro z
    ext i inside
    simp only [BitVec.getElem_and, BitVec.getElem_or, BitVec.getElem_not]
    cases z[i] <;> cases bits[i] <;> rfl
  have set_ : ∀ z : BitVec n, (z &&& ~~~bits) ||| bits = z ||| bits := by
    intro z
    ext i inside
    simp only [BitVec.getElem_and, BitVec.getElem_or, BitVec.getElem_not]
    cases z[i] <;> cases bits[i] <;> rfl
  constructor
  · intro same
    rw [← clear x, same, clear y]
  · intro same
    rw [← set_ x, same, set_ y]

end OhMyOs.Lib.Words
