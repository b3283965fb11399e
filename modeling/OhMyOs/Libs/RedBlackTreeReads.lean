/- GID: OhMyOs/Libs/RedBlackTreeReads
   generality: I
   digest: The walks of libs/rb_tree.c that only read: search, place, successor, validation,
   iteration. -/

import Mathlib.Data.Fintype.Card
import Mathlib.Tactic.SplitIfs
import OhMyOs.Libs.RedBlackTreeInsert

set_option autoImplicit false
set_option relaxedAutoImplicit false

namespace OhMyOs.Libs.RedBlackTree

open OhMyOs.Lib.Outcome
open OhMyOs.Lib.RedBlack (Side Path Frame fill up fill_cons fill_append before after inorder_fill
  before_append)
open OhMyOs.Lib.RedBlack.Tree
open OhMyOs.Lib.LinkedTree

variable {V : Type} {s : RbTree V} {t l r : Tree V} {p : Path Addr (Item V)} {a : Addr}
  {red : Bool} {x : Item V} {parent : Ptr} {n fuel : Nat}

def Sorted (nodes : List (Addr × Item V)) : Prop :=
  nodes.Pairwise (fun u v => u.2.stop < v.2.start) ∧ ∀ u ∈ nodes, u.2.start ≤ u.2.stop

def covers (key : Nat) (u : Addr × Item V) : Bool := u.2.start ≤ key ∧ key ≤ u.2.stop

def overlaps (start stop : Nat) (u : Addr × Item V) : Bool := u.2.start ≤ stop ∧ start ≤ u.2.stop

private theorem load_shows (shown : Shows s.heap parent (.node a red x l r)) :
    load s (some a) = .ok ⟨x, red, parent, l.ptr, r.ptr⟩ :=
  load_some shown.1

theorem childOf_left (shown : Shows s.heap parent (.node a red x l r)) :
    childOf s .left (some a) = .ok l.ptr := by
  simp [childOf, load_shows shown, ok_bind, pure_eq_ok, Cell.child]

private theorem childOf_right (shown : Shows s.heap parent (.node a red x l r)) :
    childOf s .right (some a) = .ok r.ptr := by
  simp [childOf, load_shows shown, ok_bind, pure_eq_ok, Cell.child]

private theorem isRed_shows (shown : Shows s.heap parent t) : isRed s t.ptr = .ok t.isRed := by
  cases t with
  | nil => rfl
  | node a red x l r =>
    simp only [RedBlackTree.isRed, ptr_node, load_shows shown, ok_bind, pure_eq_ok]
    rfl

theorem sorted_node (sorted : Sorted (OhMyOs.Lib.RedBlack.Tree.node a red x l r).inorder) :
    (Sorted l.inorder ∧ Sorted r.inorder) ∧ x.start ≤ x.stop ∧
      (∀ u ∈ l.inorder, u.2.stop < x.start) ∧ ∀ u ∈ r.inorder, x.stop < u.2.start := by
  obtain ⟨order, valid⟩ := sorted
  simp only [inorder, List.pairwise_append, List.pairwise_cons, List.mem_append, List.mem_cons]
    at order valid
  obtain ⟨orderL, ⟨above, orderR⟩, across⟩ := order
  exact ⟨⟨⟨orderL, fun u member => valid u (.inl member)⟩,
    orderR, fun u member => valid u (.inr (.inr member))⟩, valid _ (.inr (.inl rfl)),
    fun u member => across u member _ (.inl rfl), above⟩

theorem sorted_fill (sorted : Sorted (fill p t).inorder) : Sorted t.inorder := by
  rw [inorder_fill] at sorted
  obtain ⟨order, all⟩ := sorted
  simp only [List.pairwise_append] at order
  exact ⟨order.1.2.1, fun u member => all u (by simp [member])⟩

theorem length_lt_loopFuel (nodup : t.addrs.Nodup) : t.addrs.length < loopFuel := by
  have bound := nodup.length_le_card
  rw [Fintype.card_fin] at bound
  unfold loopFuel
  omega

theorem searchFrom_height (key : Nat) (shown : Shows s.heap parent t) (sorted : Sorted t.inorder)
    (enough : t.height < fuel) :
    searchFrom fuel s t.ptr key = .ok ((t.inorder.find? (covers key)).map Prod.fst) := by
  induction t generalizing parent fuel with
  | nil =>
    obtain ⟨fuel, rfl⟩ : ∃ k, fuel = k + 1 := ⟨fuel - 1, by omega⟩
    simp [searchFrom, inorder]
  | node a red x l r ihl ihr =>
    obtain ⟨fuel, rfl⟩ : ∃ k, fuel = k + 1 := ⟨fuel - 1, by omega⟩
    rw [height] at enough
    have enoughL : l.height < fuel := by omega
    have enoughR : r.height < fuel := by omega
    obtain ⟨⟨sortedL, sortedR⟩, valid, belowAll, aboveAll⟩ := sorted_node sorted
    simp only [searchFrom, ptr_node, Option.isNone_some, Bool.false_eq_true, if_false, ok_bind,
      load_shows shown, inorder, List.find?_append, List.find?_cons]
    by_cases below : key < x.start
    · have here : covers key (a, x) = false := by simp [covers]; omega
      have right : r.inorder.find? (covers key) = none := by
        refine List.find?_eq_none.mpr fun u member => ?_
        have := aboveAll u member
        simp [covers]
        omega
      simp only [if_pos below, ihl shown.2.1 sortedL enoughL, here, right, Option.or_none]
    · have left : l.inorder.find? (covers key) = none := by
        refine List.find?_eq_none.mpr fun u member => ?_
        have := belowAll u member
        simp [covers]
        omega
      by_cases above : key > x.stop
      · have here : covers key (a, x) = false := by simp [covers]; omega
        simp only [if_neg below, if_pos above, ihr shown.2.2 sortedR enoughR, here, left,
          Option.none_or]
      · have here : covers key (a, x) = true := by simp [covers]; omega
        simp [if_neg below, if_neg above, here, left, pure_eq_ok]

theorem searchFrom_shows (key : Nat) (shown : Shows s.heap parent t) (sorted : Sorted t.inorder)
    (enough : t.addrs.length < fuel) :
    searchFrom fuel s t.ptr key = .ok ((t.inorder.find? (covers key)).map Prod.fst) :=
  searchFrom_height key shown sorted (Nat.lt_of_le_of_lt (height_le_length t) enough)

theorem insertPlace_rep (start stop : Nat) (rep : Rep s (fill p t))
    (sorted : Sorted (fill p t).inorder) (left : ∀ u ∈ before p, u.2.stop < start)
    (right : ∀ u ∈ after p, stop < u.2.start) (enough : t.addrs.length < fuel) :
    (insertPlace fuel s start stop t.ptr (up p) = .ok none ∧
      ∃ u ∈ (fill p t).inorder, overlaps start stop u = true) ∨
    ∃ q, fill p t = fill q .nil ∧ insertPlace fuel s start stop t.ptr (up p) = .ok (some (up q)) ∧
      (∀ u ∈ before q, u.2.stop < start) ∧ ∀ u ∈ after q, stop < u.2.start := by
  induction t generalizing p fuel with
  | nil =>
    obtain ⟨fuel, rfl⟩ : ∃ k, fuel = k + 1 := ⟨fuel - 1, by omega⟩
    exact .inr ⟨p, rfl, by simp [insertPlace], left, right⟩
  | node a red x l r ihl ihr =>
    obtain ⟨fuel, rfl⟩ : ∃ k, fuel = k + 1 := ⟨fuel - 1, by omega⟩
    simp only [addrs_node, List.length_append, List.length_cons] at enough
    obtain ⟨-, ordered, belowAll, aboveAll⟩ := sorted_node (sorted_fill sorted)
    simp only [insertPlace, ptr_node, Option.isNone_some, Bool.false_eq_true, if_false, ok_bind,
      load_node rep]
    by_cases goRight : start > x.stop
    · simp only [if_pos goRight]
      refine ihr (p := ⟨.right, a, red, x, l⟩ :: p) rep sorted ?_ ?_ (by omega)
      · intro u member
        simp only [before, List.mem_append, List.mem_singleton] at member
        rcases member with outside | inLeft | rfl
        · exact left u outside
        · have := belowAll u inLeft
          omega
        · exact goRight
      · simpa [after] using right
    · simp only [if_neg goRight]
      by_cases goLeft : stop < x.start
      · simp only [if_pos goLeft]
        refine ihl (p := ⟨.left, a, red, x, r⟩ :: p) rep sorted ?_ ?_ (by omega)
        · simpa [before] using left
        · intro u member
          simp only [after, List.mem_append, List.mem_cons] at member
          rcases member with (rfl | inRight) | outside
          · exact goLeft
          · have := aboveAll u inRight
            omega
          · exact right u outside
      · simp only [if_neg goLeft, pure_eq_ok]
        refine .inl ⟨trivial, (a, x), by simp [inorder_fill, inorder], ?_⟩
        simp [overlaps]
        omega

theorem leftmost_shows (shown : Shows s.heap parent t) (nonempty : t ≠ .nil)
    (enough : t.addrs.length < fuel) :
    ∃ q y c yi r, t = fill q (.node y c yi .nil r) ∧ before q = [] ∧
      leftmost fuel s t.ptr = .ok (some y) := by
  induction t generalizing parent fuel with
  | nil => exact absurd rfl nonempty
  | node a red x l r ihl _ =>
    obtain ⟨fuel, rfl⟩ : ∃ k, fuel = k + 1 := ⟨fuel - 1, by omega⟩
    simp only [addrs_node, List.length_append, List.length_cons] at enough
    have enoughL : l.addrs.length < fuel := by omega
    simp only [leftmost, ptr_node, childOf_left shown, ok_bind]
    cases l with
    | nil => exact ⟨[], a, red, x, r, rfl, rfl, by simp [pure_eq_ok]⟩
    | node b c z ll lr =>
      obtain ⟨q, y, c', yi, r', shape, left, walk⟩ := ihl shown.2.1 (by simp) enoughL
      refine ⟨q ++ [⟨.left, a, red, x, r⟩], y, c', yi, r', ?_, ?_, ?_⟩
      · rw [fill_append, ← shape]
        rfl
      · simp [before_append, before, left]
      · simpa using walk

/-! ### Validation -/

private theorem validateLeft_shows (shown : Shows s.heap parent (.node a red x l r))
    (below : ∀ u ∈ l.inorder, u.2.stop < x.start) : validateLeft s (some a) = .ok () := by
  cases l with
  | nil => simp [validateLeft, load_shows shown, ok_bind, pure_eq_ok]
  | node b c y ll lr =>
    have order : y.stop < x.start := below (b, y) (by simp [inorder])
    simp [validateLeft, load_shows shown, ok_bind, load_shows shown.2.1, assert, order]

private theorem validateRight_shows (shown : Shows s.heap parent (.node a red x l r))
    (above : ∀ u ∈ r.inorder, x.stop < u.2.start) : validateRight s (some a) = .ok () := by
  cases r with
  | nil => simp [validateRight, load_shows shown, ok_bind, pure_eq_ok]
  | node b c y rl rr =>
    have order : x.stop < y.start := above (b, y) (by simp [inorder])
    simp [validateRight, load_shows shown, ok_bind, load_shows shown.2.2, assert, order]

private theorem validateColours_ok {c d : Bool} {node child : Ptr}
    (nodeColour : isRed s node = .ok c)
    (childColour : isRed s child = .ok d) (allowed : c = true → d = false) :
    validateColours s node child = .ok () := by
  cases c with
  | true => simp [validateColours, nodeColour, childColour, ok_bind, allowed rfl, assert]
  | false => simp [validateColours, nodeColour, ok_bind, pure_eq_ok]

private theorem nodeValidate_shows (shown : Shows s.heap parent (.node a red x l r))
    (below : ∀ u ∈ l.inorder, u.2.stop < x.start) (above : ∀ u ∈ r.inorder, x.stop < u.2.start)
    (leftBlack : red = true → l.isRed = false) (rightBlack : red = true → r.isRed = false) :
    nodeValidate s (some a) = .ok () := by
  have colour : isRed s (some a) = .ok red := isRed_shows shown
  simp only [nodeValidate, Option.isNone_some, Bool.false_eq_true, if_false, ok_bind,
    validateLeft_shows shown below, validateRight_shows shown above, childOf_left shown,
    childOf_right shown, validateColours_ok colour (isRed_shows shown.2.1) leftBlack,
    validateColours_ok colour (isRed_shows shown.2.2) rightBlack]

private theorem treeValidate_node (shown : Shows s.heap parent (.node a red x l r))
    (node : nodeValidate s (some a) = .ok ())
    (left : treeValidate fuel s l.ptr none = .ok ((n : Int), none))
    (right : treeValidate fuel s r.ptr none = .ok ((n : Int), none)) :
    treeValidate (fuel + 1) s (some a) none = .ok ((n : Int) + (if red then 0 else 1), none) := by
  have colour : isRed s (some a) = .ok red := isRed_shows shown
  have height : ¬ (n : Int) < 0 := by omega
  cases red <;> simp [treeValidate, node, childOf_left shown, childOf_right shown, left, right,
    height, ok_bind, pure_eq_ok, isBlack, colour]

theorem treeValidate_height (shown : Shows s.heap parent t) (sorted : Sorted t.inorder)
    (bal : Balanced t n) (enough : t.height < fuel) :
    treeValidate fuel s t.ptr none = .ok ((n : Int), none) := by
  induction bal generalizing parent fuel with
  | nil =>
    obtain ⟨fuel, rfl⟩ : ∃ k, fuel = k + 1 := ⟨fuel - 1, by omega⟩
    simp [treeValidate]
  | @red a x l r n _ _ leftBlack rightBlack ihl ihr =>
    obtain ⟨fuel, rfl⟩ : ∃ k, fuel = k + 1 := ⟨fuel - 1, by omega⟩
    rw [height] at enough
    obtain ⟨⟨sortedL, sortedR⟩, -, below, above⟩ := sorted_node sorted
    have node := nodeValidate_shows shown below above (fun _ => leftBlack) fun _ => rightBlack
    simpa using treeValidate_node shown node (ihl shown.2.1 sortedL (by omega))
      (ihr shown.2.2 sortedR (by omega))
  | @black a x l r n _ _ ihl ihr =>
    obtain ⟨fuel, rfl⟩ : ∃ k, fuel = k + 1 := ⟨fuel - 1, by omega⟩
    rw [height] at enough
    obtain ⟨⟨sortedL, sortedR⟩, -, below, above⟩ := sorted_node sorted
    have node := nodeValidate_shows shown below above (by simp) (by simp)
    simpa using treeValidate_node shown node (ihl shown.2.1 sortedL (by omega))
      (ihr shown.2.2 sortedR (by omega))

private theorem treeValidate_shows (shown : Shows s.heap parent t) (sorted : Sorted t.inorder)
    (bal : Balanced t n) (enough : t.addrs.length < fuel) :
    treeValidate fuel s t.ptr none = .ok ((n : Int), none) :=
  treeValidate_height shown sorted bal (Nat.lt_of_le_of_lt (height_le_length t) enough)

theorem rbTreeValidate_sound {nodes : List (Addr × Item V)} (sound : Sound s nodes)
    (sorted : Sorted nodes) : rbTreeValidate s = .ok () := by
  obtain ⟨t, rep, rfl, ⟨n, bal⟩, black⟩ := sound
  have colour := isRed_shows rep.shows
  have tree := treeValidate_shows rep.shows sorted bal (length_lt_loopFuel rep.nodup)
  rw [black] at colour
  cases t with
  | nil => simp [rbTreeValidate, rep.root_eq]
  | node a red x l r =>
    rw [ptr_node] at colour tree
    simp [rbTreeValidate, rep.root_eq, isBlack, colour, tree, ok_bind, pure_eq_ok, assert]

/-! ### Iteration -/

def visit {σ : Type} (callback : Ptr → σ → Int × σ) : List Addr → σ → Int × σ
  | [], priv => (0, priv)
  | a :: rest, priv =>
    let r := callback (some a) priv
    if r.1 ≠ 0 then r else visit callback rest r.2

private theorem visit_append {σ : Type} (callback : Ptr → σ → Int × σ) (as bs : List Addr)
    (priv : σ) :
    visit callback (as ++ bs) priv =
      if (visit callback as priv).1 ≠ 0 then visit callback as priv
      else visit callback bs (visit callback as priv).2 := by
  induction as generalizing priv with
  | nil => simp [visit]
  | cons a as ih =>
    by_cases stops : (callback (some a) priv).1 = 0
    · simp only [List.cons_append, visit, stops, ne_eq, not_true_eq_false, if_false, ih]
    · simp [visit, stops]

theorem treeIterate_height {σ : Type} (callback : Ptr → σ → Int × σ) (priv : σ)
    (shown : Shows s.heap parent t) (enough : t.height < fuel) :
    treeIterate callback fuel s t.ptr priv = .ok (visit callback t.addrs priv) := by
  induction t generalizing parent fuel priv with
  | nil =>
    obtain ⟨fuel, rfl⟩ : ∃ k, fuel = k + 1 := ⟨fuel - 1, by omega⟩
    simp [treeIterate, addrs_nil, visit]
  | node a red x l r ihl ihr =>
    obtain ⟨fuel, rfl⟩ : ∃ k, fuel = k + 1 := ⟨fuel - 1, by omega⟩
    rw [height] at enough
    have left := fun priv => ihl priv shown.2.1 (show _ < fuel by omega)
    have right := fun priv => ihr priv shown.2.2 (show _ < fuel by omega)
    simp only [treeIterate, ptr_node, Option.isNone_some, Bool.false_eq_true, if_false,
      childOf_left shown, childOf_right shown, ok_bind, left, right, addrs_node,
      visit_append, visit,
      pure_eq_ok]
    split_ifs <;> rfl

theorem treeIterate_shows {σ : Type} (callback : Ptr → σ → Int × σ) (priv : σ)
    (shown : Shows s.heap parent t) (enough : t.addrs.length < fuel) :
    treeIterate callback fuel s t.ptr priv = .ok (visit callback t.addrs priv) :=
  treeIterate_height callback priv shown (Nat.lt_of_le_of_lt (height_le_length t) enough)

end OhMyOs.Libs.RedBlackTree
