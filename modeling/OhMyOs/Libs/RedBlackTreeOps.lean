/- GID: OhMyOs/Libs/RedBlackTreeOps
   generality: I
   digest: What the pointer operations of libs/rb_tree.c do to the represented tree. -/

import OhMyOs.Lib.Outcome
import OhMyOs.Libs.RedBlackTree

set_option autoImplicit false
set_option relaxedAutoImplicit false

namespace OhMyOs.Libs.RedBlackTree

open OhMyOs.Lib.Outcome
open OhMyOs.Lib.RedBlack (Side Path Frame fill up sideOf pathAddrs fill_cons ptr_fill_cons
  ptr_fill_eq_iff mem_addrs_fill mem_pathAddrs_of_up)
open OhMyOs.Lib.RedBlack.Tree
open OhMyOs.Lib.LinkedTree

variable {V : Type}

abbrev Tree (V : Type) := OhMyOs.Lib.RedBlack.Tree Addr (Item V)

/-- The nodes reachable from the root form the given tree, with correct parent pointers. -/
def Rep (s : RbTree V) (t : Tree V) : Prop := Linked s.heap s.root t

def Live (h : Heap Addr (Item V)) (node : Ptr) : Prop := (node.bind h).isSome

variable {s : RbTree V} {t near mid far : Tree V} {p : Path Addr (Item V)} {a b : Addr}
  {red red' : Bool} {x y : Item V} {side : Side} {node parent q : Ptr}
  {g : RbNode V → RbNode V}

/-! ### Single reads and writes -/

theorem load_some {n : RbNode V} (cell : s.heap a = some n) : load s (some a) = .ok n := by
  simp [load, cell]

theorem live_some {h : Heap Addr (Item V)} {n : RbNode V} (cell : h a = some n) :
    Live h (some a) := by
  simp [Live, cell]

theorem live_adjust {h : Heap Addr (Item V)} {r : Ptr} (live : Live h node) :
    Live (adjust h r g) node := by
  cases node with
  | none => simp [Live] at live
  | some a =>
    simp only [Live, Option.bind_some, adjust] at live ⊢
    split
    · simpa using live
    · exact live

theorem store_live (live : Live s.heap node) :
    store s node g = .ok { s with heap := adjust s.heap node g } := by
  obtain ⟨n, cell⟩ := Option.isSome_iff_exists.mp live
  simp [store, load, cell, ok_bind, pure_eq_ok]

theorem adjust_none (h : Heap Addr (Item V)) : adjust h none g = h := by
  funext a
  simp [adjust]

theorem setParent_eq (live : node = none ∨ Live s.heap node) :
    setParent s node q = .ok { s with heap := adjust s.heap node (Cell.setParent q) } := by
  rcases live with rfl | live
  · simp [setParent, adjust_none]
  · cases node with
    | none => simp [Live] at live
    | some a => simpa [setParent] using store_live live

/-! ### Reads from a represented tree -/

theorem load_rep (rep : Rep s (fill p (join side a red x near far))) :
    load s (some a) = .ok (Cell.make side x red (up p) near.ptr far.ptr) :=
  load_some (Linked.cell rep)

theorem load_node (rep : Rep s (fill p (.node a red x near far))) :
    load s (some a) = .ok ⟨x, red, up p, near.ptr, far.ptr⟩ := by
  have left : Rep s (fill p (join .left a red x near far)) := rep
  exact load_rep left

private theorem parentOf_rep (rep : Rep s (fill p (join side a red x near far))) :
    parentOf s (some a) = .ok (up p) := by
  simp [parentOf, load_rep rep, ok_bind, pure_eq_ok]

theorem parentOf_ptr (rep : Rep s (fill p t)) (nonempty : t ≠ nil) :
    parentOf s t.ptr = .ok (up p) := by
  obtain ⟨a, x, l, r, shape⟩ := exists_join .left nonempty
  rw [shape] at rep
  rw [shape, ptr_join]
  exact parentOf_rep rep

theorem parents_rep {gs fs : Side} {g f : Addr} {gi fi : Item V} {cg cf : Bool} {sib u : Tree V}
    (rep : Rep s (fill p (join gs g cg gi (join fs f cf fi t sib) u))) (nonempty : t ≠ nil) :
    parentOf s t.ptr = .ok (some f) ∧ parentOf s (some f) = .ok (some g) := by
  have atF : Rep s (fill (⟨gs, g, cg, gi, u⟩ :: p) (join fs f cf fi t sib)) := rep
  have atT : Rep s (fill (⟨fs, f, cf, fi, sib⟩ :: ⟨gs, g, cg, gi, u⟩ :: p) t) := rep
  exact ⟨parentOf_ptr atT nonempty, parentOf_rep atF⟩

theorem childOf_rep (rep : Rep s (fill p (join side a red x near far))) :
    childOf s side (some a) = .ok near.ptr := by
  simp [childOf, load_rep rep, ok_bind, pure_eq_ok]

theorem childOf_other_rep (rep : Rep s (fill p (join side a red x near far))) :
    childOf s side.other (some a) = .ok far.ptr := by
  simp [childOf, load_rep rep, ok_bind, pure_eq_ok]

theorem isRed_rep (rep : Rep s (fill p t)) : isRed s t.ptr = .ok t.isRed := by
  cases t with
  | nil => rfl
  | node a red x l r =>
    simp only [RedBlackTree.isRed, ptr, load_node rep, ok_bind, pure_eq_ok]
    rfl

theorem isBlack_rep (rep : Rep s (fill p t)) : isBlack s t.ptr = .ok (!t.isRed) := by
  simp [isBlack, isRed_rep rep, ok_bind, pure_eq_ok]

private theorem whichSide_make {sib : Ptr}
    (cell : s.heap a = some (Cell.make side x red parent node sib)) (differ : node ≠ sib) :
    whichSide s node (some a) = .ok side := by
  have test := Cell.make_left_eq_iff side x red parent node sib differ
  simp only [whichSide, load_some cell, ok_bind, pure_eq_ok, test]
  cases side <;> simp

theorem whichSide_rep (rep : Rep s (fill p (join side a red x near far)))
    (nonempty : near ≠ nil ∨ far ≠ nil) : whichSide s near.ptr (some a) = .ok side :=
  whichSide_make (Linked.cell rep) (Linked.children_differ rep nonempty)

theorem isRoot_rep (rep : Rep s (fill p t)) : t.ptr = s.root ↔ p = [] := by
  rw [rep.root_eq]
  exact ptr_fill_eq_iff rep.nodup

theorem live_rep (rep : Rep s (fill p t)) : t.ptr = none ∨ Live s.heap t.ptr := by
  cases t with
  | nil => exact .inl rfl
  | node a red x l r =>
    have left : Rep s (fill p (join .left a red x l r)) := rep
    exact .inr (live_some (Linked.cell left))

theorem rep_near (rep : Rep s (fill p (join side a red x near far))) :
    Rep s (fill (⟨side, a, red, x, far⟩ :: p) near) :=
  rep

theorem rep_far (rep : Rep s (fill p (join side a red x near far))) :
    Rep s (fill (⟨side.other, a, red, x, near⟩ :: p) far) := by
  simpa only [fill_cons, join_other] using rep

/-! ### Recolouring and rotating -/

theorem setColour_rep (rep : Rep s (fill p t)) (c : Bool) :
    Ensures (setColour c s t.ptr) fun s' => Rep s' (fill p (t.paint c)) := by
  cases t with
  | nil => exact .ok rep
  | node a red x l r =>
    have left : Rep s (fill p (join .left a red x l r)) := rep
    have stored : store s (some a) (Cell.setRed c) = _ := store_live (live_some (Linked.cell left))
    simp only [setColour, ptr, Option.isNone_some, Bool.false_eq_true, if_false, stored]
    exact .ok (Linked.recolour left c)

def newRoot (p : Path Addr (Item V)) (q root : Ptr) : Ptr :=
  match p with
  | [] => q
  | _ :: _ => root

theorem newRoot_eq (t' : Tree V) {root : Ptr} (old : root = (fill p t).ptr) :
    newRoot p t'.ptr root = (fill p t').ptr := by
  cases p with
  | nil => rfl
  | cons f p =>
    obtain ⟨c, -, same⟩ := ptr_fill_cons f p t
    rw [newRoot, old, same, same]

theorem attach_path (path : PathShows s.heap p (some a)) (fresh : a ∉ pathAddrs p) :
    attach s (up p) (some a) q =
      .ok { s with heap := adjust s.heap (up p) (Cell.setChild (sideOf p) q)
                   root := newRoot p q s.root } := by
  cases p with
  | nil => simp [attach, up, newRoot, adjust_none]
  | cons f p =>
    have differ : some a ≠ f.sib.ptr := fun same =>
      fresh (by simp [pathAddrs, mem_addrs_of_ptr same.symm])
    simp only [attach, up, Option.isNone_some, Bool.false_eq_true, if_false, relink,
      whichSide_make path.1 differ, ok_bind]
    exact store_live (live_some path.1)

private theorem rotateTop_eq {n : RbNode V} (cell : s.heap a = some n) (parent : n.parent = up p)
    (isRoot : some a = s.root ↔ p = []) : rotateTop s (some a) q = attach s (up p) (some a) q := by
  cases p with
  | nil => simp [rotateTop, attach, up, isRoot.mpr rfl]
  | cons f p =>
    have other : some a ≠ s.root := fun same => by simpa using isRoot.mp same
    simp [rotateTop, attach, other, up, parentOf, load_some cell, parent, ok_bind, pure_eq_ok]

theorem rotate_rep
    (rep : Rep s (fill p (join side a red x near (join side b red' y mid far)))) :
    Ensures (rotate side s (some a)) fun s' =>
      Rep s' (fill p (join side b red' y (join side a red x near mid) far)) := by
  have below := rep_far rep
  have cellA := Linked.cell rep
  have cellB := Linked.cell below
  obtain ⟨⟨path, -⟩, ⟨nodup, -, apart⟩, -⟩ := linked_fill.mp rep
  have isRoot : some a = s.root ↔ p = [] := by simpa only [ptr_join] using isRoot_rep rep
  have freshPath : a ∉ pathAddrs p := apart (mem_addrs_join.mpr (.inl rfl))
  have freshPathB : b ∉ pathAddrs p := apart (by simp [mem_addrs_join])
  have midPath : Clear mid.ptr (pathAddrs p) := fun c member same =>
    apart (by simp [mem_addrs_join, mem_addrs_of_ptr same]) member
  obtain ⟨⟨-, aB⟩, -, nodupB, -⟩ := nodup_join.mp nodup
  simp only [mem_addrs_join, not_or] at aB
  have midA : mid.ptr ≠ some a := fun same => aB.2.1 (mem_addrs_of_ptr same)
  have liveMid := live_rep (rep_near below)
  let s1 : RbTree V := { s with heap := adjust s.heap (some a) (Cell.setChild side.other mid.ptr) }
  let s2 : RbTree V := { s1 with heap := adjust s1.heap mid.ptr (Cell.setParent (some a)) }
  let s3 : RbTree V := { s2 with heap := adjust s2.heap (some b) (Cell.setParent (up p)) }
  have cell2 : s2.heap a = some (Cell.make side x red (up p) near.ptr mid.ptr) := by
    simp [s2, s1, adjust, midA, cellA]
  have cell3 : s3.heap a = some (Cell.make side x red (up p) near.ptr mid.ptr) := by
    simpa [s3, adjust, Ne.symm aB.1] using cell2
  have path3 : PathShows s3.heap p (some a) := by
    rw [ptr_join] at path
    exact ((path.adjust (clear_some freshPath)).adjust midPath).adjust (clear_some freshPathB)
  have store1 : store s (some a) (Cell.setChild side.other mid.ptr) = .ok s1 :=
    store_live (live_some cellA)
  have parent2 : setParent s1 mid.ptr (some a) = .ok s2 := setParent_eq (liveMid.imp id live_adjust)
  have up2 : parentOf s2 (some a) = .ok (up p) := by
    simp [parentOf, load_some cell2, ok_bind, pure_eq_ok]
  have liveB : Live s3.heap (some b) := live_adjust (live_adjust (live_adjust (live_some cellB)))
  have store3 : store s2 (some b) (Cell.setParent (up p)) = .ok s3 :=
    store_live (live_adjust (live_adjust (live_some cellB)))
  have top := (rotateTop_eq cell3 (Cell.make_parent ..) isRoot).trans
    (attach_path (q := some b) path3 freshPath)
  simp only [rotate, childOf_other_rep rep, ptr_join, childOf_rep below, ok_bind, store1, parent2,
    up2, store3, top]
  rw [store_live (live_adjust liveB), ok_bind,
    store_live (live_adjust (live_adjust (live_some cell3)))]
  have root' := newRoot_eq (join side b red' y (join side a red x near mid) far) rep.root_eq
  rw [ptr_join] at root'
  exact .ok (Linked.turn rep root')

end OhMyOs.Libs.RedBlackTree
