/- GID: OhMyOs/Lib/Tiling
   generality: G
   digest: Lists of half-open ranges that tile an interval: cutting, joining and disjointness. -/

import Mathlib.Data.List.Pairwise
import Mathlib.Order.Nat

set_option autoImplicit false
set_option relaxedAutoImplicit false

namespace OhMyOs.Lib.Tiling

variable {α β : Type} [Preorder β] {start stop start' stop' : α → β} {lo hi : β} {xs ys : List α}

/-- The nonempty ranges of the list follow one another from `lo` to `hi`. -/
def Tiles (start stop : α → β) : β → List α → β → Prop
  | lo, [], hi => lo = hi
  | lo, x :: xs, hi => start x = lo ∧ start x < stop x ∧ Tiles start stop (stop x) xs hi

private theorem tiles_append :
    Tiles start stop lo (xs ++ ys) hi ↔
      ∃ mid, Tiles start stop lo xs mid ∧ Tiles start stop mid ys hi := by
  induction xs generalizing lo with
  | nil => simp [Tiles]
  | cons x xs ih => simp only [List.cons_append, Tiles, ih, and_assoc, exists_and_left]

private theorem Tiles.le (tiles : Tiles start stop lo xs hi) : lo ≤ hi := by
  induction xs generalizing lo with
  | nil => exact le_of_eq tiles
  | cons x xs ih =>
    obtain ⟨rfl, nonempty, rest⟩ := tiles
    exact nonempty.le.trans (ih rest)

theorem Tiles.congr (tiles : Tiles start stop lo xs hi)
    (same : ∀ x ∈ xs, start' x = start x ∧ stop' x = stop x) : Tiles start' stop' lo xs hi := by
  induction xs generalizing lo with
  | nil => exact tiles
  | cons x xs ih =>
    obtain ⟨first, nonempty, rest⟩ := tiles
    obtain ⟨sameStart, sameStop⟩ := same x List.mem_cons_self
    refine ⟨sameStart.trans first, ?_, ?_⟩
    · rwa [sameStart, sameStop]
    · rw [sameStop]
      exact ih rest fun y member => same y (List.mem_cons_of_mem x member)

theorem Tiles.bounds (tiles : Tiles start stop lo xs hi) {x : α} (member : x ∈ xs) :
    lo ≤ start x ∧ start x < stop x ∧ stop x ≤ hi := by
  obtain ⟨pre, post, rfl⟩ := List.append_of_mem member
  obtain ⟨mid, before, rfl, nonempty, after⟩ := tiles_append.mp tiles
  exact ⟨before.le, nonempty, after.le⟩

private theorem Tiles.pairwise (tiles : Tiles start stop lo xs hi) :
    xs.Pairwise fun x y => stop x ≤ start y := by
  induction xs generalizing lo with
  | nil => exact .nil
  | cons x xs ih =>
    obtain ⟨-, -, rest⟩ := tiles
    exact .cons (fun y member => (rest.bounds member).1) (ih rest)

theorem Tiles.apart (tiles : Tiles start stop lo xs hi) {x y : α} (left : x ∈ xs) (right : y ∈ xs)
    (differ : x ≠ y) : stop x ≤ start y ∨ stop y ≤ start x := by
  have either : xs.Pairwise fun x y => stop x ≤ start y ∨ stop y ≤ start x :=
    tiles.pairwise.imp fun order => .inl order
  have : Std.Symm fun x y => stop x ≤ start y ∨ stop y ≤ start x := ⟨fun _ _ => Or.symm⟩
  exact either.forall left right differ

/-! ### Ranges that may be empty -/

def Follow (start stop : α → β) : β → List α → β → Prop
  | lo, [], hi => lo = hi
  | lo, x :: xs, hi => start x = lo ∧ start x ≤ stop x ∧ Follow start stop (stop x) xs hi

theorem follow_append :
    Follow start stop lo (xs ++ ys) hi ↔
      ∃ mid, Follow start stop lo xs mid ∧ Follow start stop mid ys hi := by
  induction xs generalizing lo with
  | nil => simp [Follow]
  | cons x xs ih => simp only [List.cons_append, Follow, ih, and_assoc, exists_and_left]

theorem Tiles.follow (tiles : Tiles start stop lo xs hi) : Follow start stop lo xs hi := by
  induction xs generalizing lo with
  | nil => exact tiles
  | cons x xs ih =>
    obtain ⟨first, nonempty, rest⟩ := tiles
    exact ⟨first, nonempty.le, ih rest⟩

private theorem Follow.le (follow : Follow start stop lo xs hi) : lo ≤ hi := by
  induction xs generalizing lo with
  | nil => exact le_of_eq follow
  | cons x xs ih =>
    obtain ⟨rfl, up, rest⟩ := follow
    exact up.trans (ih rest)

theorem Follow.congr (follow : Follow start stop lo xs hi)
    (same : ∀ x ∈ xs, start' x = start x ∧ stop' x = stop x) : Follow start' stop' lo xs hi := by
  induction xs generalizing lo with
  | nil => exact follow
  | cons x xs ih =>
    obtain ⟨first, up, rest⟩ := follow
    obtain ⟨sameStart, sameStop⟩ := same x List.mem_cons_self
    refine ⟨sameStart.trans first, ?_, ?_⟩
    · rwa [sameStart, sameStop]
    · rw [sameStop]
      exact ih rest fun y member => same y (List.mem_cons_of_mem x member)

theorem Follow.bounds (follow : Follow start stop lo xs hi) {x : α} (member : x ∈ xs) :
    lo ≤ start x ∧ start x ≤ stop x ∧ stop x ≤ hi := by
  obtain ⟨pre, post, rfl⟩ := List.append_of_mem member
  obtain ⟨mid, before, rfl, up, after⟩ := follow_append.mp follow
  exact ⟨before.le, up, after.le⟩

theorem Follow.meet {a b : α} (follow : Follow start stop lo (xs ++ a :: b :: ys) hi) :
    stop a = start b := by
  obtain ⟨-, -, -, -, next, -⟩ := follow_append.mp follow
  exact next.symm

theorem Follow.cut_last {a b : α} (follow : Follow start stop lo (xs ++ [a]) hi)
    (first : start' a = start a) (left : start' a ≤ stop' a) (meet : start' b = stop' a)
    (right : start' b ≤ stop' b) (last : stop' b = stop a)
    (same : ∀ x ∈ xs, start' x = start x ∧ stop' x = stop x) :
    Follow start' stop' lo (xs ++ [a] ++ [b]) hi := by
  obtain ⟨mid, before, rfl, -, rfl⟩ := follow_append.mp follow
  rw [List.append_assoc, follow_append]
  exact ⟨_, before.congr same, first, left, meet, right, last⟩

theorem Tiles.length_le {start stop : α → Nat} {lo hi : Nat} (tiles : Tiles start stop lo xs hi) :
    lo + xs.length ≤ hi := by
  induction xs generalizing lo with
  | nil => exact le_of_eq tiles
  | cons x xs ih =>
    obtain ⟨rfl, nonempty, rest⟩ := tiles
    have tail := ih rest
    rw [List.length_cons]
    omega

theorem Tiles.meet {a b : α} (tiles : Tiles start stop lo (xs ++ a :: b :: ys) hi) :
    stop a = start b := by
  obtain ⟨-, -, -, -, next, -⟩ := tiles_append.mp tiles
  exact next.symm

theorem Tiles.join {a b c : α} (tiles : Tiles start stop lo (xs ++ a :: b :: ys) hi)
    (first : start' c = start a) (last : stop' c = stop b)
    (same : ∀ x ∈ xs ++ ys, start' x = start x ∧ stop' x = stop x) :
    Tiles start' stop' lo (xs ++ c :: ys) hi := by
  obtain ⟨mid, before, rfl, nonempty, next, nonempty', after⟩ := tiles_append.mp tiles
  refine tiles_append.mpr ⟨start a, ?_, first, ?_, ?_⟩
  · exact before.congr fun x member => same x (List.mem_append_left _ member)
  · rw [first, last]
    exact nonempty.trans (next ▸ nonempty')
  · rw [last]
    exact after.congr fun x member => same x (List.mem_append_right _ member)

theorem Tiles.cut {a b c : α} (tiles : Tiles start stop lo (xs ++ c :: ys) hi)
    (first : start' a = start c) (left : start' a < stop' a) (meet : start' b = stop' a)
    (right : start' b < stop' b) (last : stop' b = stop c)
    (same : ∀ x ∈ xs ++ ys, start' x = start x ∧ stop' x = stop x) :
    Tiles start' stop' lo (xs ++ a :: b :: ys) hi := by
  obtain ⟨mid, before, rfl, -, after⟩ := tiles_append.mp tiles
  refine tiles_append.mpr ⟨start c, ?_, first, left, meet, right, ?_⟩
  · exact before.congr fun x member => same x (List.mem_append_left _ member)
  · rw [last]
    exact after.congr fun x member => same x (List.mem_append_right _ member)

end OhMyOs.Lib.Tiling
