/- GID: OhMyOs/Lib/Buddy
   generality: G
   digest: Buddy heaps: free rings filed by order, blocks in hand, and the rules that move
   blocks. -/

import OhMyOs.Lib.Ring
import OhMyOs.Lib.Dyadic
import OhMyOs.Lib.Rounds

set_option autoImplicit false
set_option relaxedAutoImplicit false

namespace OhMyOs.Lib.Buddy

open OhMyOs.Lib.Ring OhMyOs.Lib.Dyadic OhMyOs.Lib.Rounds

variable {ι : Type} [DecidableEq ι]

/-- The blocks filed in the sequences `f`; the list of index `i` holds order `ord i`. -/
def filed (keys : List ι) (ord : ι → Nat) (f : ι → List Nat) : List Block :=
  keys.flatMap (fun i => (f i).map (fun p => ⟨p, ord i⟩))

omit [DecidableEq ι] in
theorem mem_filed {keys : List ι} {ord : ι → Nat} {f : ι → List Nat} {b : Block} :
    b ∈ filed keys ord f ↔ ∃ i ∈ keys, b.base ∈ f i ∧ ord i = b.order := by
  obtain ⟨p, k⟩ := b
  simp only [filed, List.mem_flatMap, List.mem_map, Block.mk.injEq]
  constructor
  · rintro ⟨i, hi, q, hq, rfl, rfl⟩
    exact ⟨i, hi, hq, rfl⟩
  · rintro ⟨i, hi, hp, rfl⟩
    exact ⟨i, hi, p, hp, rfl, rfl⟩

private theorem filed_update_of_not_mem {keys : List ι} (ord : ι → Nat) (f : ι → List Nat)
    {i : ι} (hi : i ∉ keys) (xs : List Nat) :
    filed keys ord (Function.update f i xs) = filed keys ord f := by
  induction keys with
  | nil => rfl
  | cons j keys ih =>
    simp only [List.mem_cons, not_or] at hi
    have ji : j ≠ i := Ne.symm hi.1
    simp only [filed, List.flatMap_cons] at ih ⊢
    rw [Function.update_of_ne ji, ih hi.2]

theorem filed_cons {keys : List ι} (ord : ι → Nat) (f : ι → List Nat) {i : ι}
    (nodup : keys.Nodup) (hi : i ∈ keys) (p : Nat) :
    (filed keys ord (Function.update f i (p :: f i))).Perm (⟨p, ord i⟩ :: filed keys ord f) := by
  induction keys with
  | nil => simp at hi
  | cons j keys ih =>
    obtain ⟨hj, nodup'⟩ := List.nodup_cons.mp nodup
    simp only [filed, List.flatMap_cons] at ih ⊢
    by_cases ij : j = i
    · subst ij
      have rest := filed_update_of_not_mem ord f hj (p :: f j)
      simp only [filed] at rest
      rw [rest, Function.update_self, List.map_cons, List.cons_append]
    · have hi' : i ∈ keys := by
        rcases List.mem_cons.mp hi with rfl | h
        · exact absurd rfl ij
        · exact h
      rw [Function.update_of_ne ij]
      exact ((ih nodup' hi').append_left _).trans List.perm_middle

private theorem filed_update_perm (keys : List ι) (ord : ι → Nat) {f : ι → List Nat} {i : ι}
    {xs : List Nat} (order : (f i).Perm xs) :
    (filed keys ord f).Perm (filed keys ord (Function.update f i xs)) := by
  refine List.Perm.flatMap_left keys fun j _ => ?_
  by_cases ji : j = i
  · subst ji
    rw [Function.update_self]
    exact order.map _
  · rw [Function.update_of_ne ji]

private theorem filed_erase {keys : List ι} (ord : ι → Nat) {f : ι → List Nat} {i : ι}
    (nodup : keys.Nodup) (hi : i ∈ keys) {p : Nat} (hp : p ∈ f i) :
    (filed keys ord f).Perm
      (⟨p, ord i⟩ :: filed keys ord (Function.update f i ((f i).erase p))) := by
  have back := filed_cons ord (Function.update f i ((f i).erase p)) nodup hi p
  rw [Function.update_self, Function.update_idem] at back
  exact (filed_update_perm keys ord (List.perm_cons_erase hp)).trans back

/-- What a buddy allocator stores: the links of its free rings and, for every index, an
order field and a free mark. -/
structure Store (ι : Type) where
  links : Links ι Nat
  order : Nat → Nat
  free : Nat → Bool

/-- The rings hold `f`, and the blocks in hand, the blocks handed out and the filed
blocks tile `S`. Nothing is said about the fields of a block in hand. -/
structure Held (keys : List ι) (ord : ι → Nat) (h : Store ι) (hand out : List Block)
    (S : Set Nat) (f : ι → List Nat) : Prop where
  rings : Rings h.links {i | i ∈ keys} f
  tiling : Tiling (hand ++ (out ++ filed keys ord f)) S
  listed : ∀ i ∈ keys, ∀ p ∈ f i, h.order p = ord i ∧ h.free p = true
  given : ∀ b ∈ out, h.order b.base = b.order ∧ h.free b.base = false

namespace Held

variable {keys : List ι} {ord : ι → Nat} {h h' : Store ι} {b : Block}
  {hand out : List Block} {S : Set Nat} {f : ι → List Nat}

omit [DecidableEq ι] in
theorem congr {T : Set Nat} (held : Held keys ord h hand out S f) (same : ∀ n, n ∈ S ↔ n ∈ T) :
    Held keys ord h hand out T f :=
  ⟨held.rings, held.tiling.congr same, held.listed, held.given⟩

omit [DecidableEq ι] in
private theorem base_ne (held : Held keys ord h (b :: hand) out S f) {c : Block}
    (hc : c ∈ hand ++ (out ++ filed keys ord f)) : c.base ≠ b.base := by
  have apart := (List.pairwise_cons.mp held.tiling.apart).1 c hc
  have hb := b.base_lt_stop
  have hc' := c.base_lt_stop
  intro same
  rcases apart with apart | apart <;> omega

omit [DecidableEq ι] in
private theorem not_listed (held : Held keys ord h (b :: hand) out S f) {i : ι} (hi : i ∈ keys) :
    b.base ∉ f i := by
  intro mem
  have filed' : (⟨b.base, ord i⟩ : Block) ∈ filed keys ord f := mem_filed.mpr ⟨i, hi, mem, rfl⟩
  exact held.base_ne (c := ⟨b.base, ord i⟩) (by simp [filed']) rfl

omit [DecidableEq ι] in
theorem touch (held : Held keys ord h (b :: hand) out S f) (links : h'.links = h.links)
    (same : ∀ p, p ≠ b.base → h'.order p = h.order p ∧ h'.free p = h.free p) :
    Held keys ord h' (b :: hand) out S f where
  rings := links ▸ held.rings
  tiling := held.tiling
  listed i hi p hp := by
    have ne : p ≠ b.base := fun e => held.not_listed hi (e ▸ hp)
    rw [(same p ne).1, (same p ne).2]
    exact held.listed i hi p hp
  given c hc := by
    have ne : c.base ≠ b.base := held.base_ne (by simp [hc])
    rw [(same _ ne).1, (same _ ne).2]
    exact held.given c hc

omit [DecidableEq ι] in
theorem add (held : Held keys ord h hand out S f) (aligned : b.Aligned)
    (fresh : ∀ n, b.Covers n → n ∉ S) :
    Held keys ord h (b :: hand) out (S ∪ {n | b.Covers n}) f :=
  ⟨held.rings, held.tiling.add aligned fresh, held.listed, held.given⟩

theorem pop (held : Held keys ord h hand out S f) (nodup : keys.Nodup) {i : ι} (hi : i ∈ keys)
    {p : Nat} (hp : p ∈ f i) :
    Held keys ord { h with links := unlink h.links (.node p) } (⟨p, ord i⟩ :: hand) out S
      (Function.update f i ((f i).erase p)) where
  rings := held.rings.unlink_node hi hp
  tiling := by
    refine held.tiling.perm ?_
    have taken := (filed_erase ord nodup hi hp).append_left (hand ++ out)
    simp only [List.append_assoc] at taken
    refine taken.trans ?_
    have middle : (hand ++ out ++ (⟨p, ord i⟩ :: filed keys ord
        (Function.update f i ((f i).erase p)))).Perm
        (⟨p, ord i⟩ :: (hand ++ out ++ filed keys ord
          (Function.update f i ((f i).erase p)))) := List.perm_middle
    simpa only [List.append_assoc, List.cons_append] using middle
  listed j hj q hq := by
    refine held.listed j hj q ?_
    by_cases ji : j = i
    · subst ji
      rw [Function.update_self] at hq
      exact List.mem_of_mem_erase hq
    · rwa [Function.update_of_ne ji] at hq
  given := held.given

theorem push {p : Nat} {i : ι} (held : Held keys ord h (⟨p, ord i⟩ :: hand) out S f)
    (nodup : keys.Nodup) (hi : i ∈ keys) (links : h'.links = linkAfter h.links (.head i) (.node p))
    (order : h'.order p = ord i) (free : h'.free p = true)
    (same : ∀ q, q ≠ p → h'.order q = h.order q ∧ h'.free q = h.free q) :
    Held keys ord h' hand out S (Function.update f i (p :: f i)) where
  rings := by
    rw [links]
    exact held.rings.linkAfter_head hi (fun j hj => held.not_listed hj)
  tiling := by
    refine held.tiling.perm ?_
    have put := ((filed_cons ord f nodup hi p).append_left (hand ++ out)).symm
    simp only [List.append_assoc] at put
    refine List.Perm.trans ?_ put
    have middle : (hand ++ out ++ (⟨p, ord i⟩ :: filed keys ord f)).Perm
        (⟨p, ord i⟩ :: (hand ++ out ++ filed keys ord f)) := List.perm_middle
    simpa only [List.append_assoc, List.cons_append] using middle.symm
  listed j hj q hq := by
    by_cases qp : q = p
    · subst qp
      have ji : j = i := by
        by_contra ji
        rw [Function.update_of_ne ji] at hq
        exact held.not_listed hj hq
      subst ji
      exact ⟨order, free⟩
    · rw [(same q qp).1, (same q qp).2]
      refine held.listed j hj q ?_
      by_cases ji : j = i
      · subst ji
        rw [Function.update_self] at hq
        rcases List.mem_cons.mp hq with e | hq
        · exact absurd e qp
        · exact hq
      · rwa [Function.update_of_ne ji] at hq
  given c hc := by
    have ne : c.base ≠ p := held.base_ne (by simp [hc])
    rw [(same _ ne).1, (same _ ne).2]
    exact held.given c hc

omit [DecidableEq ι] in
theorem split {p k : Nat} (held : Held keys ord h (⟨p, k + 1⟩ :: hand) out S f) :
    Held keys ord h (⟨p ^^^ 2 ^ k, k⟩ :: ⟨p, k⟩ :: hand) out S f :=
  ⟨held.rings, held.tiling.split.perm (List.Perm.swap _ _ _), held.listed, held.given⟩

omit [DecidableEq ι] in
private theorem merge {p k : Nat}
    (held : Held keys ord h (⟨p ^^^ 2 ^ k, k⟩ :: ⟨p, k⟩ :: hand) out S f) :
    Held keys ord h (⟨min p (p ^^^ 2 ^ k), k + 1⟩ :: hand) out S f :=
  ⟨held.rings, (held.tiling.perm (List.Perm.swap _ _ _)).merge, held.listed, held.given⟩

omit [DecidableEq ι] in
theorem give (held : Held keys ord h (b :: hand) out S f) (order : h.order b.base = b.order)
    (free : h.free b.base = false) : Held keys ord h hand (b :: out) S f where
  rings := held.rings
  tiling := held.tiling.perm (by
    have middle : (hand ++ b :: (out ++ filed keys ord f)).Perm
        (b :: (hand ++ (out ++ filed keys ord f))) := List.perm_middle
    exact middle.symm)
  listed := held.listed
  given c hc := by
    rcases List.mem_cons.mp hc with rfl | hc
    · exact ⟨order, free⟩
    · exact held.given c hc

omit [DecidableEq ι] in
theorem take (held : Held keys ord h hand out S f) (mem : b ∈ out) :
    Held keys ord h (b :: hand) (out.erase b) S f where
  rings := held.rings
  tiling := held.tiling.perm (by
    have out' := ((List.perm_cons_erase mem).append_right (filed keys ord f)).append_left hand
    have middle : (hand ++ b :: (out.erase b ++ filed keys ord f)).Perm
        (b :: (hand ++ (out.erase b ++ filed keys ord f))) := List.perm_middle
    exact out'.trans middle)
  listed := held.listed
  given c hc := held.given c (List.mem_of_mem_erase hc)

omit [DecidableEq ι] in
private theorem buddy_listed {p k : Nat} (held : Held keys ord h [⟨p, k⟩] out S f)
    (mem : p ^^^ 2 ^ k ∈ S) (free : h.free (p ^^^ 2 ^ k) = true) :
    ∃ i ∈ keys, p ^^^ 2 ^ k ∈ f i ∧ ord i ≤ k := by
  obtain ⟨j, jk, hj⟩ := held.tiling.buddy_head mem
  have hj' : (⟨p ^^^ 2 ^ k, j⟩ : Block) ∈ out ++ filed keys ord f := hj
  rcases List.mem_append.mp hj' with hj | hj
  · have := (held.given _ hj).2
    simp only [free] at this
    contradiction
  · obtain ⟨i, hi, hp, ho⟩ := mem_filed.mp hj
    exact ⟨i, hi, hp, ho ▸ jk⟩

private theorem absorb {p k : Nat} (held : Held keys ord h [⟨p, k⟩] out S f) (nodup : keys.Nodup)
    (mem : p ^^^ 2 ^ k ∈ S) (free : h.free (p ^^^ 2 ^ k) = true)
    (order : h.order (p ^^^ 2 ^ k) = k) :
    ∃ g, Held keys ord { h with links := unlink h.links (.node (p ^^^ 2 ^ k)) }
      [⟨min p (p ^^^ 2 ^ k), k + 1⟩] out S g := by
  obtain ⟨i, key, listed, _⟩ := held.buddy_listed mem free
  have same : ord i = k := (held.listed i key _ listed).1.symm.trans order
  have popped := held.pop nodup key listed
  rw [same] at popped
  exact ⟨_, popped.merge⟩

end Held

/-- Along the merge walk from the block `(p, k)`, every buddy that is marked carries the
order of the walk; `n` is the number of orders left. -/
def ordersMatch (mark : Nat → Bool) (order : Nat → Nat) : Nat → Nat → Nat → Bool
  | 0, _, _ => true
  | n + 1, p, k =>
      let buddy := p ^^^ 2 ^ k
      if mark buddy then order buddy == k && ordersMatch mark order n (min p buddy) (k + 1)
      else true

private theorem ordersMatch_marked {mark : Nat → Bool} {order : Nat → Nat} {max p k : Nat}
    (room : k < max) (marked : mark (p ^^^ 2 ^ k) = true)
    (ok : ordersMatch mark order (max - k) p k = true) :
    order (p ^^^ 2 ^ k) = k ∧
      ordersMatch mark order (max - (k + 1)) (min p (p ^^^ 2 ^ k)) (k + 1) = true := by
  obtain ⟨n, hn⟩ : ∃ n, max - k = n + 1 := ⟨max - (k + 1), by omega⟩
  have hn' : max - (k + 1) = n := by omega
  rw [hn, ordersMatch] at ok
  simpa [marked, hn'] using ok

/-- A merge walk has come to the block `(p, k)`: the order fields away from it are still those
from before the walk, and the marked buddies ahead match. -/
structure Walk (mark : Nat → Bool) (order : Nat → Nat) (max : Nat) (h : Store ι) (p k : Nat) :
    Prop where
  orders : ∀ q, ¬ (⟨p, k⟩ : Block).Covers q → h.order q = order q
  matched : ordersMatch mark order (max - k) p k = true

theorem Walk.merge {keys : List ι} {ord : ι → Nat} {h h' : Store ι} {out : List Block} {S : Set Nat}
    {f : ι → List Nat} {mark : Nat → Bool} {order : Nat → Nat} {max p k : Nat}
    (walk : Walk mark order max h p k) (held : Held keys ord h [⟨p, k⟩] out S f)
    (nodup : keys.Nodup) (room : k < max) (mem : p ^^^ 2 ^ k ∈ S)
    (free : h.free (p ^^^ 2 ^ k) = true) (marked : mark (p ^^^ 2 ^ k) = true)
    (links : h'.links = unlink h.links (.node (p ^^^ 2 ^ k)))
    (same : ∀ q, q ≠ min p (p ^^^ 2 ^ k) → h'.order q = h.order q ∧ h'.free q = h.free q) :
    h.order (p ^^^ 2 ^ k) = k ∧ Walk mark order max h' (min p (p ^^^ 2 ^ k)) (k + 1) ∧
      ∃ g, Held keys ord h' [⟨min p (p ^^^ 2 ^ k), k + 1⟩] out S g := by
  have aligned : 2 ^ k ∣ p := held.tiling.aligned ⟨p, k⟩ (by simp)
  -- the matching order makes the buddy the head of the true buddy block
  obtain ⟨matches₀, ahead⟩ := ordersMatch_marked room marked walk.matched
  have matching : h.order (p ^^^ 2 ^ k) = k :=
    (walk.orders _ (buddy_not_covered aligned)).trans matches₀
  obtain ⟨g, joined⟩ := held.absorb nodup mem free matching
  refine ⟨matching, ⟨?_, ahead⟩, g, joined.touch links same⟩
  intro q outside
  have ne : q ≠ min p (p ^^^ 2 ^ k) := by
    rintro rfl
    exact outside (Block.covers_base ⟨_, k + 1⟩)
  rw [(same q ne).1]
  exact walk.orders q fun inside => outside (joined_covers aligned inside)

/-! ### Merging by the order fields alone -/

section Rounds

variable {max word p p' : Nat} {order order' : Nat → Nat}

/-- One round of a merge loop on any order fields: the lower of the head and its buddy becomes the
head, and its own order field is raised. -/
structure MergeRound (max word : Nat) (order order' : Nat → Nat) (p p' : Nat) : Prop where
  room : order p < max
  head : p' = min p (p ^^^ 2 ^ order p)
  raised : order' p' = (order p' + 1) % word

/-- The place of the head in its group counts first, then how far its order can still rise. -/
def mergeWeight (max : Nat) (order : Nat → Nat) (p : Nat) : Nat :=
  p % 2 ^ max * (max + 1) + (max - order p)

private theorem mergeWeight_lt (max : Nat) (order : Nat → Nat) (p : Nat) :
    mergeWeight max order p < 2 ^ max * (max + 1) := by
  have place : p % 2 ^ max + 1 ≤ 2 ^ max := Nat.mod_lt _ (Nat.two_pow_pos max)
  have scaled := Nat.mul_le_mul_right (max + 1) place
  rw [Nat.succ_mul] at scaled
  unfold mergeWeight
  omega

private theorem MergeRound.group (round : MergeRound max word order order' p p') :
    p' / 2 ^ max = p / 2 ^ max := by
  rw [round.head]
  rcases min_choice p (p ^^^ 2 ^ order p) with same | buddy
  · rw [same]
  · rw [buddy, xor_two_pow_div round.room]

private theorem MergeRound.head_le (round : MergeRound max word order order' p p') : p' ≤ p :=
  round.head ▸ Nat.min_le_left _ _

private theorem MergeRound.falls (round : MergeRound max word order order' p p')
    (wide : max < word) :
    mergeWeight max order' p' < mergeWeight max order p := by
  have room := round.room
  have raised := round.raised
  unfold mergeWeight
  rcases Nat.eq_or_lt_of_le round.head_le with same | lower
  · rw [same, Nat.mod_eq_of_lt (by omega)] at raised
    rw [same, raised]
    omega
  · have place : p' % 2 ^ max + 1 ≤ p % 2 ^ max := by
      have high := Nat.div_add_mod p (2 ^ max)
      have low := Nat.div_add_mod p' (2 ^ max)
      rw [round.group] at low
      omega
    have scaled := Nat.mul_le_mul_right (max + 1) place
    rw [Nat.succ_mul] at scaled
    omega

variable {σ : Type} {round : σ × Nat → Option (σ × Nat)} {loop : Nat → σ → Nat → σ × Nat}
  {orders : σ → Nat → Nat}

structure MergeLoop (max word : Nat) (orders : σ → Nat → Nat)
    (round : σ × Nat → Option (σ × Nat)) (loop : Nat → σ → Nat → σ × Nat) : Prop where
  zero : ∀ s p, loop 0 s p = (s, p)
  stop : ∀ n s p, round (s, p) = none → loop (n + 1) s p = (s, p)
  next : ∀ n s p t q, round (s, p) = some (t, q) → loop (n + 1) s p = loop n t q
  merges : ∀ s p t q, round (s, p) = some (t, q) → MergeRound max word (orders s) (orders t) p q

theorem MergeLoop.of_join (join : σ → Nat → σ × Nat) (zero : ∀ s p, loop 0 s p = (s, p))
    (ways : ∀ s p, (round (s, p) = none ∧ ∀ n, loop (n + 1) s p = (s, p)) ∨
      (MergeRound max word (orders s) (orders (join s p).1) p (join s p).2 ∧
        round (s, p) = some (join s p) ∧
          ∀ n, loop (n + 1) s p = loop n (join s p).1 (join s p).2)) :
    MergeLoop max word orders round loop := by
  refine ⟨zero, fun n s p ended => ?_, fun n s p t q more => ?_, fun s p t q more => ?_⟩
  · rcases ways s p with ⟨-, stop⟩ | ⟨-, next, -⟩
    · exact stop n
    · cases ended.symm.trans next
  · rcases ways s p with ⟨ended, -⟩ | ⟨-, next, on⟩
    · cases ended.symm.trans more
    · obtain ⟨rfl, rfl⟩ := Prod.mk.inj (Option.some.inj (next.symm.trans more))
      exact on n
  · rcases ways s p with ⟨ended, -⟩ | ⟨merges, next, -⟩
    · cases ended.symm.trans more
    · obtain ⟨rfl, rfl⟩ := Prod.mk.inj (Option.some.inj (next.symm.trans more))
      exact merges

/-- A merge loop that started at `start` has ended: the next test leaves the loop, and the head has
moved down inside its group of `2 ^ max` entries, if at all. -/
structure MergeEnded (max : Nat) (round : σ × Nat → Option (σ × Nat)) (start : Nat)
    (last : σ × Nat) : Prop where
  ended : round last = none
  head_le : last.2 ≤ start
  group : last.2 / 2 ^ max = start / 2 ^ max

theorem MergeLoop.ended (merge : MergeLoop max word orders round loop) (wide : max < word) (s : σ)
    (start : Nat) : MergeEnded max round start (loop (2 ^ max * (max + 1)) s start) := by
  have same : loop (2 ^ max * (max + 1)) s start = rounds round (2 ^ max * (max + 1)) (s, start) :=
    eq_rounds (fun n t => loop n t.1 t.2) (fun t => merge.zero t.1 t.2)
      (fun n t => merge.stop n t.1 t.2) (fun n t u => merge.next n t.1 t.2 u.1 u.2) _ (s, start)
  have merges (t u : σ × Nat) (next : round t = some u) := merge.merges t.1 t.2 u.1 u.2 next
  rw [same]
  constructor
  · exact rounds_ends (fun t => mergeWeight max (orders t.1) t.2)
      (fun t u next => (merges t u next).falls wide) (mergeWeight_lt max (orders s) start).le
  · refine rounds_invariant (fun t : σ × Nat => t.2 ≤ start) (fun t u le next => ?_)
      (Nat.le_refl start)
    exact Nat.le_trans (merges t u next).head_le le
  · refine rounds_invariant (fun t : σ × Nat => t.2 / 2 ^ max = start / 2 ^ max)
      (fun t u same next => ?_) rfl
    exact (merges t u next).group.trans same

end Rounds

end OhMyOs.Lib.Buddy
