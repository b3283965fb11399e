/- GID: OhMyOs/Lib/Blocks
   generality: G
   digest: Blocks of a flat memory that have no byte in common, and memory that agrees on blocks. -/

import OhMyOs.Lib.Stores

set_option autoImplicit false
set_option relaxedAutoImplicit false

namespace OhMyOs.Lib.Blocks

open OhMyOs.Lib.Stores

abbrev Block := Nat × Nat

def Inside (a : Nat) (b : Block) : Prop := b.1 ≤ a ∧ a < b.1 + b.2

instance (a : Nat) (b : Block) : Decidable (Inside a b) := inferInstanceAs (Decidable (_ ∧ _))

def Apart (b d : Block) : Prop := b.1 + b.2 ≤ d.1 ∨ d.1 + d.2 ≤ b.1

instance (b d : Block) : Decidable (Apart b d) := inferInstanceAs (Decidable (_ ∨ _))

def Within (b d : Block) : Prop := d.1 ≤ b.1 ∧ b.1 + b.2 ≤ d.1 + d.2

instance (b d : Block) : Decidable (Within b d) := inferInstanceAs (Decidable (_ ∧ _))

variable {β : Type} {mem mem' mem'' : Nat → β} {b d : Block} {bs ds : List Block} {a : Nat}

theorem Apart.symm (apart : Apart b d) : Apart d b := Or.symm apart

theorem Apart.not_inside (apart : Apart b d) (inside : Inside a b) : ¬ Inside a d := by
  unfold Apart at apart
  unfold Inside at inside ⊢
  omega

def Same (mem mem' : Nat → β) (bs : List Block) : Prop :=
  ∀ b ∈ bs, ∀ a, Inside a b → mem' a = mem a

theorem Same.refl (mem : Nat → β) (bs : List Block) : Same mem mem bs := fun _ _ _ _ => rfl

theorem Same.trans (first : Same mem mem' bs) (second : Same mem' mem'' bs) : Same mem mem'' bs :=
  fun b member a inside => (second b member a inside).trans (first b member a inside)

theorem Same.subset (same : Same mem mem' bs) (sub : ds ⊆ bs) : Same mem mem' ds :=
  fun b member => same b (sub member)

theorem Same.write {p : Nat} {xs : List β} (apart : ∀ b ∈ bs, Apart b (p, xs.length)) :
    Same mem (write mem p xs) bs := by
  intro b member a inside
  have outside := (apart b member).not_inside inside
  unfold Inside at outside
  exact write_outside (by omega)

theorem Same.holds {p n : Nat} {xs : List β} (same : Same mem mem' bs) (member : (p, n) ∈ bs)
    (fits : xs.length ≤ n) (holds : Holds mem p xs) : Holds mem' p xs :=
  holds.congr fun a low high => same (p, n) member a ⟨low, by simp only; omega⟩

theorem Same.read_eq {p n : Nat} (same : Same mem mem' bs) (member : (p, n) ∈ bs) :
    read mem' p n = read mem p n := by
  refine List.map_congr_left fun i inside => ?_
  exact same (p, n) member (p + i) ⟨by simp, by simpa using inside⟩

end OhMyOs.Lib.Blocks
