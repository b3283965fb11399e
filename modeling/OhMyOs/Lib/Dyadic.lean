/- GID: OhMyOs/Lib/Dyadic
   generality: G
   digest: Aligned power-of-two blocks, their buddies, and tilings of a set by such blocks. -/

import Mathlib.Data.Nat.Bitwise
import Mathlib.Data.List.Pairwise
import Mathlib.Data.List.Perm.Basic
import Mathlib.Data.Set.Basic
import Mathlib.Tactic.Ring

set_option autoImplicit false
set_option relaxedAutoImplicit false

namespace OhMyOs.Lib.Dyadic

structure Block where
  base : Nat
  order : Nat
  deriving DecidableEq

namespace Block

def stop (b : Block) : Nat := b.base + 2 ^ b.order

def Covers (b : Block) (n : Nat) : Prop := b.base ≤ n ∧ n < b.stop

def Apart (a b : Block) : Prop := a.stop ≤ b.base ∨ b.stop ≤ a.base

def Aligned (b : Block) : Prop := 2 ^ b.order ∣ b.base

instance (b : Block) (n : Nat) : Decidable (b.Covers n) :=
  inferInstanceAs (Decidable (_ ∧ _))

instance (a b : Block) : Decidable (a.Apart b) :=
  inferInstanceAs (Decidable (_ ∨ _))

theorem base_lt_stop (b : Block) : b.base < b.stop :=
  Nat.lt_add_of_pos_right (Nat.two_pow_pos b.order)

theorem covers_base (b : Block) : b.Covers b.base := ⟨le_rfl, b.base_lt_stop⟩

private theorem Apart.symm {a b : Block} (h : a.Apart b) : b.Apart a := Or.symm h

instance : Std.Symm Apart := ⟨fun _ _ h => Apart.symm h⟩

theorem apart_iff (a b : Block) : a.Apart b ↔ ∀ n, ¬ (a.Covers n ∧ b.Covers n) := by
  have ha := a.base_lt_stop
  have hb := b.base_lt_stop
  constructor
  · rintro h n ⟨⟨_, _⟩, ⟨_, _⟩⟩
    rcases h with h | h <;> omega
  · intro h
    by_contra near
    simp only [Apart, not_or, not_le] at near
    apply h (max a.base b.base)
    simp only [Covers]
    omega

end Block

private theorem xor_two_pow_mul (q k : Nat) : (q * 2 ^ k) ^^^ 2 ^ k = (q ^^^ 1) * 2 ^ k := by
  have h := Nat.shiftLeft_xor_distrib (a := q) (b := 1) (i := k)
  simp only [Nat.shiftLeft_eq, one_mul] at h
  exact h.symm

theorem xor_two_pow {p k : Nat} (aligned : 2 ^ k ∣ p) :
    (2 ^ (k + 1) ∣ p ∧ p ^^^ 2 ^ k = p + 2 ^ k) ∨
      (¬ 2 ^ (k + 1) ∣ p ∧ p = (p ^^^ 2 ^ k) + 2 ^ k ∧ 2 ^ (k + 1) ∣ p ^^^ 2 ^ k) := by
  obtain ⟨q, rfl⟩ := aligned
  rw [Nat.mul_comm (2 ^ k) q, xor_two_pow_mul]
  have step : 2 ^ (k + 1) = 2 * 2 ^ k := by ring
  rcases Nat.even_or_odd q with even | odd
  · left
    rw [Nat.xor_one_of_even even]
    obtain ⟨r, rfl⟩ := even
    exact ⟨⟨r, by rw [step]; ring⟩, by ring⟩
  · right
    rw [Nat.xor_one_of_odd odd]
    obtain ⟨r, rfl⟩ := odd
    refine ⟨?_, by rw [Nat.add_sub_cancel]; ring, ⟨r, by rw [Nat.add_sub_cancel, step]; ring⟩⟩
    rw [step]
    intro h
    have := Nat.dvd_of_mul_dvd_mul_right (Nat.two_pow_pos k) h
    omega

theorem xor_two_pow_div {p k m : Nat} (less : k < m) : (p ^^^ 2 ^ k) / 2 ^ m = p / 2 ^ m := by
  have small : 2 ^ k / 2 ^ m = 0 := Nat.div_eq_of_lt (Nat.pow_lt_pow_right Nat.one_lt_two less)
  rw [Nat.xor_div_two_pow, small, Nat.xor_zero]

private theorem xor_two_pow_aligned {p k : Nat} (aligned : 2 ^ k ∣ p) : 2 ^ k ∣ p ^^^ 2 ^ k := by
  rcases xor_two_pow aligned with ⟨_, h⟩ | ⟨_, _, h⟩
  · rw [h]
    exact Nat.dvd_add aligned dvd_rfl
  · exact (pow_dvd_pow 2 (Nat.le_succ k)).trans h

theorem xor_two_pow_ne {p k : Nat} (aligned : 2 ^ k ∣ p) : p ^^^ 2 ^ k ≠ p := by
  have pos := Nat.two_pow_pos k
  rcases xor_two_pow aligned with ⟨_, h⟩ | ⟨_, h, _⟩ <;> omega

private theorem min_xor_aligned {p k : Nat} (aligned : 2 ^ k ∣ p) :
    2 ^ (k + 1) ∣ min p (p ^^^ 2 ^ k) := by
  have pos := Nat.two_pow_pos k
  rcases xor_two_pow aligned with ⟨up, h⟩ | ⟨_, h, down⟩
  · rwa [min_eq_left (by omega)]
  · rwa [min_eq_right (by omega)]

theorem buddy_not_covered {p k : Nat} (aligned : 2 ^ k ∣ p) :
    ¬ (⟨p, k⟩ : Block).Covers (p ^^^ 2 ^ k) := by
  have pos := Nat.two_pow_pos k
  simp only [Block.Covers, Block.stop]
  rcases xor_two_pow aligned with ⟨_, h⟩ | ⟨_, h, _⟩ <;> omega

theorem joined_covers {p k n : Nat} (aligned : 2 ^ k ∣ p) (covered : (⟨p, k⟩ : Block).Covers n) :
    (⟨min p (p ^^^ 2 ^ k), k + 1⟩ : Block).Covers n := by
  have step : 2 ^ (k + 1) = 2 ^ k + 2 ^ k := by ring
  simp only [Block.Covers, Block.stop] at covered ⊢
  rcases xor_two_pow aligned with ⟨_, h⟩ | ⟨_, h, _⟩ <;> omega

/-- The blocks are aligned, pairwise apart, and cover exactly `S`. -/
structure Tiling (bs : List Block) (S : Set Nat) : Prop where
  aligned : ∀ b ∈ bs, b.Aligned
  apart : bs.Pairwise Block.Apart
  cover : ∀ n, (∃ b ∈ bs, b.Covers n) ↔ n ∈ S

namespace Tiling

variable {bs cs : List Block} {S : Set Nat}

theorem nil : Tiling [] ∅ := ⟨by simp, by simp, by simp⟩

theorem perm (tiling : Tiling bs S) (same : bs.Perm cs) : Tiling cs S where
  aligned b hb := tiling.aligned b (same.mem_iff.mpr hb)
  apart := (same.pairwise_iff (fun h => Block.Apart.symm h)).mp tiling.apart
  cover n := by
    rw [← tiling.cover n]
    simp only [same.mem_iff]

theorem add (tiling : Tiling bs S) {b : Block} (aligned : b.Aligned)
    (fresh : ∀ n, b.Covers n → n ∉ S) : Tiling (b :: bs) (S ∪ {n | b.Covers n}) where
  aligned c hc := by
    rcases List.mem_cons.mp hc with rfl | hc
    · exact aligned
    · exact tiling.aligned c hc
  apart := by
    refine List.pairwise_cons.mpr ⟨?_, tiling.apart⟩
    intro c hc
    rw [Block.apart_iff]
    rintro n ⟨hb, hcn⟩
    exact fresh n hb ((tiling.cover n).mp ⟨c, hc, hcn⟩)
  cover n := by
    simp only [List.mem_cons, exists_eq_or_imp, Set.mem_union, Set.mem_ofPred_eq, tiling.cover]
    exact or_comm

theorem congr {T : Set Nat} (tiling : Tiling bs S) (same : ∀ n, n ∈ S ↔ n ∈ T) :
    Tiling bs T :=
  ⟨tiling.aligned, tiling.apart, fun n => (tiling.cover n).trans (same n)⟩

private theorem append {T : Set Nat} (left : Tiling bs S) (right : Tiling cs T)
    (disjoint : ∀ n ∈ S, n ∉ T) : Tiling (bs ++ cs) (S ∪ T) where
  aligned b hb := by
    rcases List.mem_append.mp hb with hb | hb
    · exact left.aligned b hb
    · exact right.aligned b hb
  apart := by
    refine List.pairwise_append.mpr ⟨left.apart, right.apart, ?_⟩
    intro b hb c hc
    rw [Block.apart_iff]
    rintro n ⟨inB, inC⟩
    exact disjoint n ((left.cover n).mp ⟨b, hb, inB⟩) ((right.cover n).mp ⟨c, hc, inC⟩)
  cover n := by
    rw [Set.mem_union, ← left.cover n, ← right.cover n]
    simp only [List.mem_append, or_and_right, exists_or]

theorem concat {a b c : Nat} (le : a ≤ b) (le' : b ≤ c) (low : Tiling bs {n | a ≤ n ∧ n < b})
    (high : Tiling cs {n | b ≤ n ∧ n < c}) : Tiling (cs ++ bs) {n | a ≤ n ∧ n < c} := by
  refine (high.append low ?_).congr fun n => ?_
  · intro n above below
    exact absurd below.2 (Nat.not_lt.mpr above.1)
  · simp only [Set.mem_union, Set.mem_ofPred_eq]
    omega

theorem single {b : Block} (aligned : b.Aligned) : Tiling [b] {n | b.base ≤ n ∧ n < b.stop} := by
  refine (nil.add aligned fun n _ => Set.notMem_empty n).congr fun n => ?_
  simp [Block.Covers]

theorem split {p k : Nat} (tiling : Tiling (⟨p, k + 1⟩ :: bs) S) :
    Tiling (⟨p, k⟩ :: ⟨p ^^^ 2 ^ k, k⟩ :: bs) S := by
  have step : 2 ^ (k + 1) = 2 ^ k + 2 ^ k := by ring
  have pos := Nat.two_pow_pos k
  have up : 2 ^ (k + 1) ∣ p := tiling.aligned ⟨p, k + 1⟩ (by simp)
  have half : 2 ^ k ∣ p := (pow_dvd_pow 2 (Nat.le_succ k)).trans up
  have buddy : p ^^^ 2 ^ k = p + 2 ^ k := by
    rcases xor_two_pow half with ⟨_, h⟩ | ⟨h, _⟩
    · exact h
    · exact absurd up h
  obtain ⟨head, rest⟩ := List.pairwise_cons.mp tiling.apart
  rw [buddy]
  constructor
  · intro b hb
    simp only [List.mem_cons] at hb
    rcases hb with rfl | rfl | hb
    · exact half
    · exact Nat.dvd_add half dvd_rfl
    · exact tiling.aligned b (by simp [hb])
  · refine List.pairwise_cons.mpr ⟨?_, List.pairwise_cons.mpr ⟨?_, rest⟩⟩
    · intro b hb
      rcases List.mem_cons.mp hb with rfl | hb
      · exact Or.inl le_rfl
      · have := head b hb
        simp only [Block.Apart, Block.stop] at this ⊢
        omega
    · intro b hb
      have := head b hb
      simp only [Block.Apart, Block.stop] at this ⊢
      omega
  · intro n
    rw [← tiling.cover n]
    simp only [List.mem_cons, exists_eq_or_imp, Block.Covers, Block.stop]
    rw [← or_assoc]
    apply or_congr_left
    omega

theorem merge {p k : Nat} (tiling : Tiling (⟨p, k⟩ :: ⟨p ^^^ 2 ^ k, k⟩ :: bs) S) :
    Tiling (⟨min p (p ^^^ 2 ^ k), k + 1⟩ :: bs) S := by
  have step : 2 ^ (k + 1) = 2 ^ k + 2 ^ k := by ring
  have half : 2 ^ k ∣ p := tiling.aligned ⟨p, k⟩ (by simp)
  have sides := xor_two_pow half
  obtain ⟨head, tail⟩ := List.pairwise_cons.mp tiling.apart
  obtain ⟨head', rest⟩ := List.pairwise_cons.mp tail
  constructor
  · intro b hb
    rcases List.mem_cons.mp hb with rfl | hb
    · exact min_xor_aligned half
    · exact tiling.aligned b (by simp [hb])
  · refine List.pairwise_cons.mpr ⟨?_, rest⟩
    intro b hb
    have first := head b (by simp [hb])
    have second := head' b hb
    have room := b.base_lt_stop
    simp only [Block.Apart, Block.stop] at first second room ⊢
    rcases sides with ⟨_, h⟩ | ⟨_, h, _⟩ <;> omega
  · intro n
    rw [← tiling.cover n]
    simp only [List.mem_cons, exists_eq_or_imp, Block.Covers, Block.stop]
    rw [← or_assoc]
    apply or_congr_left
    rcases sides with ⟨_, h⟩ | ⟨_, h, _⟩ <;> omega

theorem buddy_head {p k : Nat} (tiling : Tiling (⟨p, k⟩ :: bs) S) (mem : p ^^^ 2 ^ k ∈ S) :
    ∃ j ≤ k, (⟨p ^^^ 2 ^ k, j⟩ : Block) ∈ bs := by
  have half : 2 ^ k ∣ p := tiling.aligned ⟨p, k⟩ (by simp)
  have buddy := xor_two_pow_aligned half
  have pos := Nat.two_pow_pos k
  obtain ⟨head, -⟩ := List.pairwise_cons.mp tiling.apart
  obtain ⟨b, hb, low, high⟩ := (tiling.cover _).mpr mem
  rcases List.mem_cons.mp hb with rfl | hb
  · -- the freed block itself never covers its own buddy
    simp only [Block.stop] at low high
    rcases xor_two_pow half with ⟨_, h⟩ | ⟨_, h, _⟩ <;> omega
  obtain ⟨base, j⟩ := b
  have aligned : 2 ^ j ∣ base := tiling.aligned ⟨base, j⟩ (by simp [hb])
  have apart := head _ hb
  simp only [Block.Apart, Block.stop] at low high apart
  by_cases jk : j ≤ k
  · refine ⟨j, jk, ?_⟩
    have fine : 2 ^ j ∣ p ^^^ 2 ^ k := (pow_dvd_pow 2 jk).trans buddy
    have gap : 2 ^ j ∣ (p ^^^ 2 ^ k) - base := Nat.dvd_sub fine aligned
    have same : (p ^^^ 2 ^ k) - base = 0 := Nat.eq_zero_of_dvd_of_lt gap (by omega)
    have eq : p ^^^ 2 ^ k = base := by omega
    rw [eq]
    exact hb
  · -- a larger block around the buddy would contain the freed block as well
    exfalso
    have up : 2 ^ (k + 1) ∣ 2 ^ j := pow_dvd_pow 2 (by omega)
    have coarse : 2 ^ (k + 1) ∣ base := up.trans aligned
    have joined := min_xor_aligned half
    have step : 2 ^ (k + 1) = 2 ^ k + 2 ^ k := by ring
    obtain ⟨u, hu⟩ := coarse
    obtain ⟨v, hv⟩ := joined
    obtain ⟨w, hw⟩ := up
    rw [hu] at low high apart
    rw [hw] at high apart
    have uv : u ≤ v ∧ v < u + w := by
      have pos' := Nat.two_pow_pos (k + 1)
      constructor
      · by_contra h
        have : 2 ^ (k + 1) * (v + 1) ≤ 2 ^ (k + 1) * u := Nat.mul_le_mul_left _ (by omega)
        rw [Nat.mul_add] at this
        rcases xor_two_pow half with ⟨_, h⟩ | ⟨_, h, _⟩ <;> omega
      · by_contra h
        have : 2 ^ (k + 1) * (u + w) ≤ 2 ^ (k + 1) * v := Nat.mul_le_mul_left _ (by omega)
        rw [Nat.mul_add] at this
        rcases xor_two_pow half with ⟨_, h⟩ | ⟨_, h, _⟩ <;> omega
    have lower : 2 ^ (k + 1) * u ≤ 2 ^ (k + 1) * v := Nat.mul_le_mul_left _ uv.1
    have upper : 2 ^ (k + 1) * (v + 1) ≤ 2 ^ (k + 1) * (u + w) :=
      Nat.mul_le_mul_left _ (by omega)
    rw [Nat.mul_add, Nat.mul_add] at upper
    rcases xor_two_pow half with ⟨_, h⟩ | ⟨_, h, _⟩ <;> omega

end Tiling

end OhMyOs.Lib.Dyadic
