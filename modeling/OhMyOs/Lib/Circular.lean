/- GID: OhMyOs/Lib/Circular
   generality: G
   digest: Windows of a circular buffer, and runs of stores that wrap around. -/

import Mathlib.Logic.Function.Basic

set_option autoImplicit false
set_option relaxedAutoImplicit false

namespace OhMyOs.Lib.Circular

variable {α : Type}

/-- The `len` entries from position `start` on in a circular buffer of `n` entries. -/
def window (buf : Nat → α) (n start len : Nat) : List α :=
  (List.range len).map fun k => buf ((start + k) % n)

def fill (buf : Nat → α) (n start : Nat) : List α → Nat → α
  | [] => buf
  | x :: xs => fill (Function.update buf (start % n) x) n (start + 1) xs

/-! ### Positions -/

theorem mod_ne {n a b : Nat} (lt : a < b) (near : b < a + n) : a % n ≠ b % n := by
  intro eq
  have turn : n ∣ b - a := Nat.dvd_of_mod_eq_zero (Nat.sub_mod_eq_zero_of_mod_eq eq.symm)
  have := Nat.le_of_dvd (by omega) turn
  omega

private theorem mod_add_mod {n s t : Nat} (same : s % n = t % n) (k : Nat) :
    (s + k) % n = (t + k) % n := by
  rw [Nat.add_mod, same, ← Nat.add_mod]

theorem add_mod_inj {n start a b : Nat} (lt : a < n) (lt' : b < n)
    (eq : (start + a) % n = (start + b) % n) : a = b := by
  rcases Nat.lt_trichotomy a b with less | same | more
  · exact absurd eq (mod_ne (by omega) (by omega))
  · exact same
  · exact absurd eq.symm (mod_ne (by omega) (by omega))

/-! ### Windows -/

@[simp] theorem window_length (buf : Nat → α) (n start len : Nat) :
    (window buf n start len).length = len := by
  simp [window]

@[simp] theorem window_zero (buf : Nat → α) (n start : Nat) : window buf n start 0 = [] := rfl

theorem window_add (buf : Nat → α) (n start a b : Nat) :
    window buf n start (a + b) = window buf n start a ++ window buf n (start + a) b := by
  simp only [window, List.range_add, List.map_append, List.map_map]
  congr 1
  apply List.map_congr_left
  intro k _
  simp only [Function.comp_apply, Nat.add_assoc]

theorem window_one (buf : Nat → α) (n start : Nat) : window buf n start 1 = [buf (start % n)] := rfl

theorem window_congr (buf : Nat → α) {n s t : Nat} (same : s % n = t % n) (len : Nat) :
    window buf n s len = window buf n t len := by
  apply List.map_congr_left
  intro k _
  rw [mod_add_mod same]

private theorem window_unchanged {buf new : Nat → α} {n start len : Nat}
    (same : ∀ k < len, new ((start + k) % n) = buf ((start + k) % n)) :
    window new n start len = window buf n start len := by
  apply List.map_congr_left
  intro k mem
  exact same k (List.mem_range.mp mem)

theorem window_getElem? (buf : Nat → α) {n start len k : Nat} (lt : k < len) :
    (window buf n start len)[k]? = some (buf ((start + k) % n)) := by
  simp [window, List.getElem?_range lt]

theorem window_take (buf : Nat → α) {n start len k : Nat} (le : k ≤ len) :
    (window buf n start len).take k = window buf n start k := by
  obtain ⟨rest, rfl⟩ := Nat.exists_eq_add_of_le le
  rw [window_add, List.take_left' (window_length ..)]

theorem window_drop (buf : Nat → α) {n start len k : Nat} (le : k ≤ len) :
    (window buf n start len).drop k = window buf n (start + k) (len - k) := by
  obtain ⟨rest, rfl⟩ := Nat.exists_eq_add_of_le le
  rw [window_add, List.drop_left' (window_length ..), Nat.add_sub_cancel_left]

/-! ### Stores -/

theorem fill_congr (buf : Nat → α) {n s t : Nat} (same : s % n = t % n) (xs : List α) :
    fill buf n s xs = fill buf n t xs := by
  induction xs generalizing buf s t with
  | nil => rfl
  | cons x xs ih =>
    simp only [fill, same]
    exact ih _ (mod_add_mod same 1)

theorem fill_singleton (buf : Nat → α) (n start : Nat) (x : α) :
    fill buf n start [x] = Function.update buf (start % n) x :=
  rfl

theorem fill_append (buf : Nat → α) (n start : Nat) (xs ys : List α) :
    fill buf n start (xs ++ ys) = fill (fill buf n start xs) n (start + xs.length) ys := by
  induction xs generalizing buf start with
  | nil => rfl
  | cons x xs ih =>
    simp only [List.cons_append, fill, List.length_cons, ih]
    rw [show start + 1 + xs.length = start + (xs.length + 1) by omega]

private theorem fill_apply_of_ne (buf : Nat → α) {n start i : Nat} (xs : List α)
    (away : ∀ k < xs.length, i ≠ (start + k) % n) : fill buf n start xs i = buf i := by
  induction xs generalizing buf start with
  | nil => rfl
  | cons x xs ih =>
    simp only [List.length_cons] at away
    have first : i ≠ start % n := away 0 (by omega)
    rw [fill, ih, Function.update_of_ne first]
    intro k lt
    have next := away (k + 1) (by omega)
    rwa [show start + (k + 1) = start + 1 + k by omega] at next

private theorem window_fill (buf : Nat → α) {n start : Nat} (xs : List α) (fits : xs.length ≤ n) :
    window (fill buf n start xs) n start xs.length = xs := by
  induction xs generalizing buf start with
  | nil => rfl
  | cons x xs ih =>
    simp only [List.length_cons] at fits ⊢
    rw [Nat.add_comm, window_add, window_one, fill, ih _ (by omega), fill_apply_of_ne]
    · simp
    · intro k lt
      exact mod_ne (by omega) (by omega)

theorem window_fill_behind (buf : Nat → α) {n start len pos : Nat} (xs : List α)
    (behind : start + len ≤ pos) (fits : pos + xs.length ≤ start + n) :
    window (fill buf n pos xs) n start len = window buf n start len := by
  apply window_unchanged
  intro k lt
  apply fill_apply_of_ne
  intro j lt'
  exact mod_ne (by omega) (by omega)

theorem window_push (buf : Nat → α) {n start len : Nat} (xs : List α)
    (fits : len + xs.length ≤ n) :
    window (fill buf n (start + len) xs) n start (len + xs.length) =
      window buf n start len ++ xs := by
  rw [window_add, window_fill_behind buf xs (Nat.le_refl _) (by omega), window_fill _ xs (by omega)]

/-! ### What has been read -/

theorem prefix_snoc {xs ys : List α} {y : α} (pre : xs <+: ys) (next : ys[xs.length]? = some y) :
    xs ++ [y] <+: ys := by
  obtain ⟨rest, rfl⟩ := pre
  cases rest with
  | nil => simp at next
  | cons z rest =>
    rw [List.getElem?_append_right (Nat.le_refl _), Nat.sub_self] at next
    obtain rfl := Option.some.inj next
    exact ⟨rest, by simp⟩

end OhMyOs.Lib.Circular
