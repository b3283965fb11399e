/- GID: OhMyOs/Lib/Ring
   generality: G
   digest: Circular doubly linked rings with anchors, and the sequences they hold. -/

import Mathlib.Data.List.Nodup
import Mathlib.Data.List.Perm.Basic
import Mathlib.Logic.Function.Basic
import Mathlib.Data.Set.Basic

set_option autoImplicit false
set_option relaxedAutoImplicit false

namespace OhMyOs.Lib.Ring

/-- A cell is either the anchor of a ring or the link field of an element. -/
inductive Cell (ι α : Type)
  | head (i : ι)
  | node (a : α)
  deriving DecidableEq

/-- The forward and backward pointer of every cell. -/
structure Links (ι α : Type) where
  next : Cell ι α → Cell ι α
  prev : Cell ι α → Cell ι α

variable {ι α : Type} [DecidableEq ι] [DecidableEq α]

def Links.setNext (l : Links ι α) (c d : Cell ι α) : Links ι α :=
  { l with next := Function.update l.next c d }

def Links.setPrev (l : Links ι α) (c d : Cell ι α) : Links ι α :=
  { l with prev := Function.update l.prev c d }

def Links.rev (l : Links ι α) : Links ι α := ⟨l.prev, l.next⟩

def loop (l : Links ι α) (c : Cell ι α) : Links ι α :=
  ⟨Function.update l.next c c, Function.update l.prev c c⟩

def linkAfter (l : Links ι α) (c d : Cell ι α) : Links ι α :=
  ⟨Function.update (Function.update l.next d (l.next c)) c d,
    Function.update (Function.update l.prev (l.next c) d) d c⟩

def linkBefore (l : Links ι α) (c d : Cell ι α) : Links ι α :=
  (linkAfter l.rev c d).rev

/-- Join the two neighbours of `d`, leaving the pointers of `d` itself as they are. -/
def unlink (l : Links ι α) (d : Cell ι α) : Links ι α :=
  ⟨Function.update l.next (l.prev d) (l.next d), Function.update l.prev (l.next d) (l.prev d)⟩

section Frame

variable {l : Links ι α} {c d x : Cell ι α}

theorem linkAfter_next_of_ne (atC : x ≠ c) (atD : x ≠ d) :
    (linkAfter l c d).next x = l.next x := by
  simp [linkAfter, Function.update_of_ne atC, Function.update_of_ne atD]

theorem linkAfter_prev_of_ne (after : x ≠ l.next c) (atD : x ≠ d) :
    (linkAfter l c d).prev x = l.prev x := by
  simp [linkAfter, Function.update_of_ne after, Function.update_of_ne atD]

private theorem unlink_next_of_ne (before : x ≠ l.prev d) : (unlink l d).next x = l.next x :=
  Function.update_of_ne before _ _

private theorem unlink_prev_of_ne (after : x ≠ l.next d) : (unlink l d).prev x = l.prev x :=
  Function.update_of_ne after _ _

end Frame

/-- `Seg l c xs d`: following the pointers from `c` meets exactly `xs` and then `d`,
and the backward pointers return the same way. -/
def Seg (l : Links ι α) : Cell ι α → List α → Cell ι α → Prop
  | c, [], d => l.next c = d ∧ l.prev d = c
  | c, x :: xs, d => l.next c = .node x ∧ l.prev (.node x) = c ∧ Seg l (.node x) xs d

omit [DecidableEq ι] [DecidableEq α] in
theorem seg_append (l : Links ι α) (c d : Cell ι α) (xs ys : List α) (y : α) :
    Seg l c (xs ++ y :: ys) d ↔ Seg l c xs (.node y) ∧ Seg l (.node y) ys d := by
  induction xs generalizing c with
  | nil => simp only [List.nil_append, Seg, and_assoc]
  | cons x xs ih => simp only [List.cons_append, Seg, ih, and_assoc]

omit [DecidableEq ι] [DecidableEq α] in
theorem Seg.frame {l l' : Links ι α} {c d : Cell ι α} {xs : List α} (seg : Seg l c xs d)
    (first : l'.next c = l.next c) (last : l'.prev d = l.prev d)
    (inner : ∀ x ∈ xs, l'.next (.node x) = l.next (.node x) ∧
      l'.prev (.node x) = l.prev (.node x)) : Seg l' c xs d := by
  induction xs generalizing c with
  | nil => exact ⟨first.trans seg.1, last.trans seg.2⟩
  | cons x xs ih =>
    obtain ⟨nx, px, rest⟩ := seg
    have here := inner x (by simp)
    refine ⟨first.trans nx, here.2.trans px, ih rest here.1 ?_⟩
    intro y hy
    exact inner y (by simp [hy])

omit [DecidableEq ι] [DecidableEq α] in
private theorem seg_rev (l : Links ι α) (c d : Cell ι α) (xs : List α) :
    Seg l.rev d xs.reverse c ↔ Seg l c xs d := by
  induction xs generalizing c with
  | nil => simp only [List.reverse_nil, Seg, Links.rev, and_comm]
  | cons x xs ih =>
    rw [List.reverse_cons, seg_append, ih]
    simp only [Seg, Links.rev]
    tauto

private theorem Seg.linkAfter {l : Links ι α} {c d : Cell ι α} {xs : List α} {a : α}
    (seg : Seg l c xs d) (nodup : xs.Nodup) (fresh : a ∉ xs)
    (ca : c ≠ .node a) (da : d ≠ .node a) (cx : ∀ x ∈ xs, c ≠ .node x)
    (dx : ∀ x ∈ xs, d ≠ .node x) : Seg (linkAfter l c (.node a)) c (a :: xs) d := by
  cases xs with
  | nil =>
    obtain ⟨nc, pd⟩ := seg
    refine ⟨by simp [Ring.linkAfter], by simp [Ring.linkAfter], ?_, ?_⟩
    · simp [Ring.linkAfter, Function.update_of_ne (Ne.symm ca), nc]
    · simp [Ring.linkAfter, Function.update_of_ne da, nc]
  | cons x xs =>
    obtain ⟨nc, px, rest⟩ := seg
    have ax : a ≠ x := fun h => fresh (by simp [h])
    have fresh' : a ∉ xs := fun h => fresh (by simp [h])
    have hx := List.nodup_cons.mp nodup
    refine ⟨by simp [Ring.linkAfter], by simp [Ring.linkAfter], ?_, ?_, ?_⟩
    · simp [Ring.linkAfter, Function.update_of_ne (Ne.symm ca), nc]
    · have ne : (Cell.node x : Cell ι α) ≠ .node a := by simpa using Ne.symm ax
      simp [Ring.linkAfter, Function.update_of_ne ne, nc]
    · apply rest.frame
      · have n1 : (Cell.node x : Cell ι α) ≠ c := Ne.symm (cx x (by simp))
        have n2 : (Cell.node x : Cell ι α) ≠ .node a := by simpa using Ne.symm ax
        simp [Ring.linkAfter, Function.update_of_ne n1, Function.update_of_ne n2]
      · simp [Ring.linkAfter, nc, Function.update_of_ne da,
          Function.update_of_ne (dx x (by simp))]
      · intro y hy
        have n1 : (Cell.node y : Cell ι α) ≠ c := Ne.symm (cx y (by simp [hy]))
        have n2 : (Cell.node y : Cell ι α) ≠ .node a := by
          intro h
          exact fresh' (Cell.node.inj h ▸ hy)
        have n3 : (Cell.node y : Cell ι α) ≠ .node x := by
          intro h
          exact hx.1 (Cell.node.inj h ▸ hy)
        simp [Ring.linkAfter, nc, Function.update_of_ne n1, Function.update_of_ne n2,
          Function.update_of_ne n3]

private theorem Seg.unlink {l : Links ι α} {c d : Cell ι α} {xs : List α} {a : α}
    (seg : Seg l c (a :: xs) d) (nodup : (a :: xs).Nodup)
    (cx : ∀ x ∈ a :: xs, c ≠ .node x) (dx : ∀ x ∈ a :: xs, d ≠ .node x) :
    Seg (unlink l (.node a)) c xs d := by
  obtain ⟨nc, pa, rest⟩ := seg
  cases xs with
  | nil =>
    obtain ⟨na, pd⟩ := rest
    constructor
    · simp [Ring.unlink, pa, na]
    · simp [Ring.unlink, pa, na]
  | cons x xs =>
    obtain ⟨na, px, rest⟩ := rest
    have hx := List.nodup_cons.mp (List.nodup_cons.mp nodup).2
    refine ⟨by simp [Ring.unlink, pa, na], by simp [Ring.unlink, pa, na], ?_⟩
    apply rest.frame
    · have n1 : (Cell.node x : Cell ι α) ≠ c := Ne.symm (cx x (by simp))
      simp [Ring.unlink, pa, Function.update_of_ne n1]
    · simp [Ring.unlink, na, Function.update_of_ne (dx x (by simp))]
    · intro y hy
      have n1 : (Cell.node y : Cell ι α) ≠ c := Ne.symm (cx y (by simp [hy]))
      have n2 : (Cell.node y : Cell ι α) ≠ .node x := by
        intro h
        exact hx.1 (Cell.node.inj h ▸ hy)
      simp [Ring.unlink, pa, na, Function.update_of_ne n1, Function.update_of_ne n2]

omit [DecidableEq ι] [DecidableEq α] in
theorem Seg.next_mem {l : Links ι α} {c d : Cell ι α} {xs : List α} (seg : Seg l c xs d) :
    l.next c = d ∨ ∃ x ∈ xs, l.next c = .node x := by
  cases xs with
  | nil => exact Or.inl seg.1
  | cons x xs => exact Or.inr ⟨x, by simp, seg.1⟩

omit [DecidableEq ι] [DecidableEq α] in
theorem Seg.prev_mem {l : Links ι α} {c d : Cell ι α} {xs : List α} (seg : Seg l c xs d) :
    l.prev d = c ∨ ∃ x ∈ xs, l.prev d = .node x := by
  have mem := ((seg_rev l c d xs).mpr seg).next_mem
  simpa [Links.rev] using mem

omit [DecidableEq ι] [DecidableEq α] in
private theorem Seg.ne_next {l : Links ι α} {c d e : Cell ι α} {xs : List α} (seg : Seg l c xs d)
    (last : e ≠ d) (inner : ∀ x ∈ xs, e ≠ .node x) : e ≠ l.next c := by
  rcases seg.next_mem with next | ⟨x, mem, next⟩
  · rwa [next]
  · rw [next]
    exact inner x mem

omit [DecidableEq ι] [DecidableEq α] in
private theorem Seg.ne_prev {l : Links ι α} {c d e : Cell ι α} {xs : List α} (seg : Seg l c xs d)
    (first : e ≠ c) (inner : ∀ x ∈ xs, e ≠ .node x) : e ≠ l.prev d := by
  rcases seg.prev_mem with prev | ⟨x, mem, prev⟩
  · rwa [prev]
  · rw [prev]
    exact inner x mem

private theorem Seg.unlink_inner {l : Links ι α} {i : ι} {xs ys : List α} {a : α}
    (seg : Seg l (.head i) (xs ++ a :: ys) (.head i)) (nodup : (xs ++ a :: ys).Nodup) :
    Seg (Ring.unlink l (.node a)) (.head i) (xs ++ ys) (.head i) := by
  rcases List.eq_nil_or_concat xs with rfl | ⟨zs, z, rfl⟩
  · exact seg.unlink nodup (by simp) (by simp)
  -- the segment is cut at the element before `a`
  simp only [List.concat_eq_append, List.append_assoc, List.singleton_append] at seg nodup ⊢
  rw [seg_append] at seg ⊢
  obtain ⟨low, high⟩ := seg
  obtain ⟨-, nz, apart⟩ := List.nodup_append.mp nodup
  obtain ⟨zn, nays⟩ := List.nodup_cons.mp nz
  have before : l.prev (.node a) = .node z := high.2.1
  have zys : ∀ y ∈ a :: ys, (Cell.node z : Cell ι α) ≠ .node y := by
    rintro y hy same
    exact zn (Cell.node.inj same ▸ hy)
  constructor
  · apply low.frame
    · exact unlink_next_of_ne (by simp [before])
    · exact unlink_prev_of_ne
        (high.2.2.ne_next (by simp) fun y hy => zys y (List.mem_cons_of_mem a hy))
    · intro x hx
      have xz : x ≠ z := apart x hx z (by simp)
      have after := high.2.2.ne_next (e := .node x) (by simp) fun y hy => by
        simpa using apart x hx y (by simp [hy])
      exact ⟨unlink_next_of_ne (by simpa [before] using xz), unlink_prev_of_ne after⟩
  · exact high.unlink nays zys (by simp)

omit [DecidableEq ι] [DecidableEq α] in
theorem Seg.inverse {l : Links ι α} {c d : Cell ι α} {xs : List α} (seg : Seg l c xs d) :
    l.prev (l.next c) = c ∧ l.next (l.prev d) = d ∧
      ∀ x ∈ xs, l.prev (l.next (.node x)) = .node x ∧ l.next (l.prev (.node x)) = .node x := by
  induction xs generalizing c with
  | nil =>
    obtain ⟨next, prev⟩ := seg
    exact ⟨by rw [next, prev], by rw [prev, next], by simp⟩
  | cons x xs ih =>
    obtain ⟨next, prev, rest⟩ := seg
    obtain ⟨first, last, inner⟩ := ih rest
    refine ⟨by rw [next, prev], last, fun y member => ?_⟩
    rcases List.mem_cons.mp member with rfl | later
    · exact ⟨first, by rw [prev, next]⟩
    · exact inner y later

omit [DecidableEq ι] [DecidableEq α] in
private theorem Seg.unique {l : Links ι α} {c : Cell ι α} {i : ι} {xs ys : List α}
    (left : Seg l c xs (.head i)) (right : Seg l c ys (.head i)) : xs = ys := by
  induction xs generalizing c ys with
  | nil =>
    cases ys with
    | nil => rfl
    | cons y ys => exact absurd (left.1.symm.trans right.1) (by simp)
  | cons x xs ih =>
    cases ys with
    | nil => exact absurd (left.1.symm.trans right.1) (by simp)
    | cons y ys =>
      obtain rfl : x = y := Cell.node.inj (left.1.symm.trans right.1)
      rw [ih left.2.2 right.2.2]

omit [DecidableEq ι] in
theorem erase_of_nodup {xs ys : List α} {a : α} (nodup : (xs ++ a :: ys).Nodup) :
    (xs ++ a :: ys).erase a = xs ++ ys := by
  have early : a ∉ xs := fun inside => (List.nodup_append.mp nodup).2.2 a inside a (by simp) rfl
  rw [List.erase_append_right _ early, List.erase_cons_head]

/-- The rings anchored at the indices in `I` hold the sequences `f`, each element once. -/
structure Rings (l : Links ι α) (I : Set ι) (f : ι → List α) : Prop where
  ring : ∀ i ∈ I, Seg l (.head i) (f i) (.head i)
  nodup : ∀ i ∈ I, (f i).Nodup
  disjoint : ∀ i ∈ I, ∀ j ∈ I, i ≠ j → ∀ a ∈ f i, a ∉ f j

namespace Rings

variable {l : Links ι α} {I : Set ι} {f : ι → List α}

omit [DecidableEq ι] [DecidableEq α] in
theorem next_head (rings : Rings l I f) {i : ι} (hi : i ∈ I) :
    l.next (.head i) = match f i with
      | [] => .head i
      | a :: _ => .node a := by
  have seg := rings.ring i hi
  cases h : f i with
  | nil => rw [h] at seg; exact seg.1
  | cons a xs => rw [h] at seg; exact seg.1

omit [DecidableEq ι] [DecidableEq α] in
theorem empty_iff (rings : Rings l I f) {i : ι} (hi : i ∈ I) :
    l.next (.head i) = .head i ↔ f i = [] := by
  rw [rings.next_head hi]
  cases f i <;> simp

omit [DecidableEq ι] [DecidableEq α] in
theorem first_mem (rings : Rings l I f) {i : ι} (hi : i ∈ I) {a : α}
    (next : l.next (.head i) = .node a) : a ∈ f i := by
  rw [rings.next_head hi] at next
  cases h : f i with
  | nil => simp [h] at next
  | cons b xs =>
    rw [h] at next
    simp [Cell.node.inj next]

omit [DecidableEq ι] [DecidableEq α] in
private theorem apart (rings : Rings l I f) {i j : ι} (hi : i ∈ I) (hj : j ∈ I) (ji : j ≠ i)
    {x y : α}
    (hx : x ∈ f j) (hy : y ∈ f i) : (Cell.node x : Cell ι α) ≠ .node y := by
  intro same
  exact rings.disjoint j hj i hi ji x hx (Cell.node.inj same ▸ hy)

omit [DecidableEq ι] [DecidableEq α] in
theorem restrict (rings : Rings l I f) {J : Set ι} (sub : J ⊆ I) : Rings l J f where
  ring i hi := rings.ring i (sub hi)
  nodup i hi := rings.nodup i (sub hi)
  disjoint i hi j hj := rings.disjoint i (sub hi) j (sub hj)

omit [DecidableEq ι] [DecidableEq α] in
theorem congr {g : ι → List α} (rings : Rings l I f) (same : ∀ i ∈ I, f i = g i) : Rings l I g where
  ring i hi := same i hi ▸ rings.ring i hi
  nodup i hi := same i hi ▸ rings.nodup i hi
  disjoint i hi j hj := same i hi ▸ same j hj ▸ rings.disjoint i hi j hj

omit [DecidableEq ι] [DecidableEq α] in
theorem unique {g : ι → List α} (left : Rings l I f) (right : Rings l I g) {i : ι} (hi : i ∈ I) :
    f i = g i :=
  (left.ring i hi).unique (right.ring i hi)

omit [DecidableEq ι] [DecidableEq α] in
theorem prev_first (rings : Rings l I f) {i : ι} (hi : i ∈ I) {a : α} {xs : List α}
    (first : f i = a :: xs) : l.prev (.node a) = .head i := by
  have seg := rings.ring i hi
  rw [first] at seg
  exact seg.2.1

omit [DecidableEq ι] [DecidableEq α] in
theorem next_last (rings : Rings l I f) {i : ι} (hi : i ∈ I) {a : α} {xs : List α}
    (last : f i = xs ++ [a]) : l.next (.node a) = .head i := by
  have seg := rings.ring i hi
  rw [last, seg_append] at seg
  exact seg.2.1

omit [DecidableEq ι] [DecidableEq α] in
theorem neighbours (rings : Rings l I f) {i : ι} (hi : i ∈ I) {a b : α} {xs ys : List α}
    (split : f i = xs ++ a :: b :: ys) :
    l.next (.node a) = .node b ∧ l.prev (.node b) = .node a := by
  have seg := rings.ring i hi
  rw [split, seg_append] at seg
  exact ⟨seg.2.1, seg.2.2.1⟩

omit [DecidableEq α] in
private theorem update (rings : Rings l I f) {l' : Links ι α} {i : ι} {xs : List α}
    (seg : Seg l' (.head i) xs (.head i)) (nodup : xs.Nodup)
    (other : ∀ j ∈ I, j ≠ i → ∀ a ∈ xs, a ∉ f j)
    (frame : ∀ j ∈ I, j ≠ i → l'.next (.head j) = l.next (.head j) ∧
      l'.prev (.head j) = l.prev (.head j) ∧ ∀ x ∈ f j,
        l'.next (.node x) = l.next (.node x) ∧ l'.prev (.node x) = l.prev (.node x)) :
    Rings l' I (Function.update f i xs) where
  ring j hj := by
    by_cases ji : j = i
    · subst ji
      simpa using seg
    · rw [Function.update_of_ne ji]
      obtain ⟨fn, fp, inner⟩ := frame j hj ji
      exact (rings.ring j hj).frame fn fp inner
  nodup j hj := by
    by_cases ji : j = i
    · subst ji
      simpa using nodup
    · rw [Function.update_of_ne ji]
      exact rings.nodup j hj
  disjoint j hj k hk jk a := by
    by_cases ji : j = i
    · subst ji
      rw [Function.update_self, Function.update_of_ne (Ne.symm jk)]
      exact other k hk (Ne.symm jk) a
    · rw [Function.update_of_ne ji]
      by_cases ki : k = i
      · subst ki
        rw [Function.update_self]
        intro aj ak
        exact other j hj ji a ak aj
      · rw [Function.update_of_ne ki]
        exact rings.disjoint j hj k hk jk a

theorem loop_insert (rings : Rings l I f) (i : ι) (hi : i ∉ I) :
    Rings (loop l (.head i)) (insert i I) (Function.update f i []) := by
  have keep : ∀ j ∈ I, j ≠ i := fun j hj h => hi (h ▸ hj)
  constructor
  · intro j hj
    rcases hj with rfl | hj
    · simp [Seg, loop]
    · have ji := keep j hj
      rw [Function.update_of_ne ji]
      apply (rings.ring j hj).frame
      · simp [loop, ji]
      · simp [loop, ji]
      · intro x _
        simp [loop]
  · intro j hj
    rcases hj with rfl | hj
    · simp
    · rw [Function.update_of_ne (keep j hj)]
      exact rings.nodup j hj
  · intro j hj k hk jk a
    rcases hj with rfl | hj
    · simp
    · rw [Function.update_of_ne (keep j hj)]
      rcases hk with rfl | hk
      · simp
      · rw [Function.update_of_ne (keep k hk)]
        exact rings.disjoint j hj k hk jk a

theorem linkAfter_head (rings : Rings l I f) {i : ι} (hi : i ∈ I) {a : α}
    (fresh : ∀ j ∈ I, a ∉ f j) :
    Rings (linkAfter l (.head i) (.node a)) I (Function.update f i (a :: f i)) := by
  have seg := rings.ring i hi
  apply rings.update
  · exact seg.linkAfter (rings.nodup i hi) (fresh i hi) (by simp) (by simp) (by simp) (by simp)
  · exact List.nodup_cons.mpr ⟨fresh i hi, rings.nodup i hi⟩
  · intro j hj ji b hb
    rcases List.mem_cons.mp hb with rfl | hb
    · exact fresh j hj
    · exact rings.disjoint i hi j hj (Ne.symm ji) b hb
  · intro j hj ji
    have head : (Cell.head j : Cell ι α) ≠ .head i := by simpa using ji
    refine ⟨linkAfter_next_of_ne head (by simp),
      linkAfter_prev_of_ne (seg.ne_next head (by simp)) (by simp), fun x hx => ?_⟩
    have xa : (Cell.node x : Cell ι α) ≠ .node a := by
      intro same
      exact fresh j hj (Cell.node.inj same ▸ hx)
    have after := seg.ne_next (e := .node x) (by simp) fun y => rings.apart hi hj ji hx
    exact ⟨linkAfter_next_of_ne (by simp) xa, linkAfter_prev_of_ne after xa⟩

theorem linkAfter_node (rings : Rings l I f) {i : ι} (hi : i ∈ I) {xs ys : List α} {a b : α}
    (split : f i = xs ++ b :: ys) (fresh : ∀ j ∈ I, a ∉ f j) :
    Rings (linkAfter l (.node b) (.node a)) I (Function.update f i (xs ++ b :: a :: ys)) := by
  have seg := rings.ring i hi
  have nodup := rings.nodup i hi
  have fi := fresh i hi
  rw [split] at seg nodup fi
  rw [seg_append] at seg
  obtain ⟨low, high⟩ := seg
  obtain ⟨nxs, nys, apart⟩ := List.nodup_append.mp nodup
  obtain ⟨by', nys'⟩ := List.nodup_cons.mp nys
  have bys : ∀ y ∈ ys, (Cell.node b : Cell ι α) ≠ .node y := by
    rintro y hy same
    exact by' (Cell.node.inj same ▸ hy)
  have ays : a ∉ ys := fun h => fi (by simp [h])
  have other : ∀ j ∈ I, ∀ x ∈ f j, (Cell.node x : Cell ι α) ≠ .node a := by
    rintro j hj x hx same
    exact fresh j hj (Cell.node.inj same ▸ hx)
  have ba := other i hi b (by simp [split])
  apply rings.update
  · rw [seg_append]
    constructor
    · apply low.frame
      · exact linkAfter_next_of_ne (by simp) (by simp)
      · exact linkAfter_prev_of_ne (high.ne_next (by simp) bys) ba
      · intro x hx
        have xa := other i hi x (by simp [split, hx])
        have xb : (Cell.node x : Cell ι α) ≠ .node b := by simpa using apart x hx b (by simp)
        have after := high.ne_next (e := .node x) (by simp) fun y hy => by
          simpa using apart x hx y (by simp [hy])
        exact ⟨linkAfter_next_of_ne xb xa, linkAfter_prev_of_ne after xa⟩
    · exact high.linkAfter nys' ays ba (by simp) bys (by simp)
  · have perm : (xs ++ b :: a :: ys).Perm (a :: (xs ++ b :: ys)) := by
      have middle : ((xs ++ [b]) ++ a :: ys).Perm (a :: ((xs ++ [b]) ++ ys)) := List.perm_middle
      simpa using middle
    exact perm.nodup_iff.mpr (List.nodup_cons.mpr ⟨fi, nodup⟩)
  · intro j hj ji c hc
    have hc' : c = a ∨ c ∈ f i := by
      rw [split]
      simp only [List.mem_append, List.mem_cons] at hc ⊢
      tauto
    rcases hc' with rfl | hc'
    · exact fresh j hj
    · exact rings.disjoint i hi j hj (Ne.symm ji) c hc'
  · intro j hj ji
    refine ⟨linkAfter_next_of_ne (by simp) (by simp),
      linkAfter_prev_of_ne (high.ne_next (by simpa using ji) (by simp)) (by simp), fun x hx => ?_⟩
    have xa := other j hj x hx
    have xb : (Cell.node x : Cell ι α) ≠ .node b := rings.apart hi hj ji hx (by simp [split])
    have after := high.ne_next (e := .node x) (by simp) fun y hy =>
      rings.apart hi hj ji hx (by simp [split, hy])
    exact ⟨linkAfter_next_of_ne xb xa, linkAfter_prev_of_ne after xa⟩

omit [DecidableEq ι] [DecidableEq α] in
theorem reversed (rings : Rings l I f) : Rings l.rev I (fun i => (f i).reverse) where
  ring i hi := (seg_rev l _ _ _).mpr (rings.ring i hi)
  nodup i hi := List.nodup_reverse.mpr (rings.nodup i hi)
  disjoint i hi j hj ij a := by simpa using rings.disjoint i hi j hj ij a

theorem linkBefore_head (rings : Rings l I f) {i : ι} (hi : i ∈ I) {a : α}
    (fresh : ∀ j ∈ I, a ∉ f j) :
    Rings (linkBefore l (.head i) (.node a)) I (Function.update f i (f i ++ [a])) := by
  have back := (rings.reversed.linkAfter_head hi (a := a) (by simpa using fresh)).reversed
  refine back.congr fun j _ => ?_
  by_cases ji : j = i
  · subst ji
    simp
  · simp [ji]

theorem linkBefore_node (rings : Rings l I f) {i : ι} (hi : i ∈ I) {xs ys : List α} {a b : α}
    (split : f i = xs ++ b :: ys) (fresh : ∀ j ∈ I, a ∉ f j) :
    Rings (linkBefore l (.node b) (.node a)) I (Function.update f i (xs ++ a :: b :: ys)) := by
  have turned : (f i).reverse = ys.reverse ++ b :: xs.reverse := by simp [split]
  have back := (rings.reversed.linkAfter_node hi turned (a := a) (by simpa using fresh)).reversed
  refine back.congr fun j _ => ?_
  by_cases ji : j = i
  · subst ji
    simp
  · simp [ji]

theorem unlink_node (rings : Rings l I f) {i : ι} (hi : i ∈ I) {a : α} (mem : a ∈ f i) :
    Rings (unlink l (.node a)) I (Function.update f i ((f i).erase a)) := by
  obtain ⟨xs, ys, split⟩ := List.append_of_mem mem
  have seg := rings.ring i hi
  have nodup := rings.nodup i hi
  rw [split] at seg nodup
  have erased : (f i).erase a = xs ++ ys := by rw [split, erase_of_nodup nodup]
  obtain ⟨upTo, from'⟩ := (seg_append l _ _ xs ys a).mp seg
  rw [erased]
  apply rings.update
  · exact seg.unlink_inner nodup
  · exact nodup.sublist ((List.Sublist.refl xs).append (List.sublist_cons_self a ys))
  · intro j hj ji b hb
    refine rings.disjoint i hi j hj (Ne.symm ji) b ?_
    rw [split]
    simp only [List.mem_append, List.mem_cons] at hb ⊢
    tauto
  · intro j hj ji
    have head : (Cell.head j : Cell ι α) ≠ .head i := by simpa using ji
    refine ⟨unlink_next_of_ne (upTo.ne_prev head (by simp)),
      unlink_prev_of_ne (from'.ne_next head (by simp)), fun x hx => ?_⟩
    have before := upTo.ne_prev (e := .node x) (by simp) fun y hy =>
      rings.apart hi hj ji hx (by simp [split, hy])
    have after := from'.ne_next (e := .node x) (by simp) fun y hy =>
      rings.apart hi hj ji hx (by simp [split, hy])
    exact ⟨unlink_next_of_ne before, unlink_prev_of_ne after⟩

end Rings

end OhMyOs.Lib.Ring
