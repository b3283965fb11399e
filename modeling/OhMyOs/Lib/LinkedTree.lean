/- GID: OhMyOs/Lib/LinkedTree
   generality: G
   digest: Heaps of cells with child and parent pointers that represent coloured trees. -/

import OhMyOs.Lib.RedBlack

set_option autoImplicit false
set_option relaxedAutoImplicit false

namespace OhMyOs.Lib.LinkedTree

open OhMyOs.Lib.RedBlack
open OhMyOs.Lib.RedBlack.Tree

variable {κ β : Type}

structure Cell (κ β : Type) where
  item : β
  red : Bool
  parent : Option κ
  left : Option κ
  right : Option κ

namespace Cell

def child (c : Cell κ β) : Side → Option κ
  | .left => c.left
  | .right => c.right

def setChild (side : Side) (q : Option κ) (c : Cell κ β) : Cell κ β :=
  match side with
  | .left => { c with left := q }
  | .right => { c with right := q }

def setParent (q : Option κ) (c : Cell κ β) : Cell κ β := { c with parent := q }

def setRed (red : Bool) (c : Cell κ β) : Cell κ β := { c with red := red }

def make (side : Side) (x : β) (red : Bool) (parent near far : Option κ) : Cell κ β :=
  match side with
  | .left => ⟨x, red, parent, near, far⟩
  | .right => ⟨x, red, parent, far, near⟩

variable (side : Side) (x : β) (red c : Bool) (parent near far q : Option κ)

@[simp] theorem make_item : (make side x red parent near far).item = x := by
  cases side <;> rfl

@[simp] theorem make_red : (make side x red parent near far).red = red := by
  cases side <;> rfl

@[simp] theorem make_parent : (make side x red parent near far).parent = parent := by
  cases side <;> rfl

@[simp] theorem make_child : (make side x red parent near far).child side = near := by
  cases side <;> rfl

@[simp] theorem make_child_other :
    (make side x red parent near far).child side.other = far := by
  cases side <;> rfl

@[simp] theorem make_setChild :
    (make side x red parent near far).setChild side q = make side x red parent q far := by
  cases side <;> rfl

@[simp] theorem make_setChild_other :
    (make side x red parent near far).setChild side.other q = make side x red parent near q := by
  cases side <;> rfl

@[simp] theorem make_setParent :
    (make side x red parent near far).setParent q = make side x red q near far := by
  cases side <;> rfl

@[simp] theorem make_setRed :
    (make side x red parent near far).setRed c = make side x c parent near far := by
  cases side <;> rfl

theorem make_left_eq_iff (differ : near ≠ far) :
    near = (make side x red parent near far).left ↔ side = .left := by
  cases side <;> simp [make, differ]

end Cell

abbrev Heap (κ β : Type) := κ → Option (Cell κ β)

variable [DecidableEq κ]

def adjust (h : Heap κ β) (q : Option κ) (g : Cell κ β → Cell κ β) : Heap κ β := fun a =>
  if q = some a then (h a).map g else h a

/-- Below the given parent pointer the heap holds the tree. -/
def Shows (h : Heap κ β) (parent : Option κ) : Tree κ β → Prop
  | nil => True
  | node a red x l r =>
    h a = some ⟨x, red, parent, l.ptr, r.ptr⟩ ∧ Shows h (some a) l ∧ Shows h (some a) r

def PathShows (h : Heap κ β) : Path κ β → Option κ → Prop
  | [], _ => True
  | f :: p, q =>
    h f.addr = some (Cell.make f.side f.item f.red (up p) q f.sib.ptr) ∧
      Shows h (some f.addr) f.sib ∧ PathShows h p (some f.addr)

/-- The heap and the root pointer represent the tree. -/
structure Linked (h : Heap κ β) (root : Option κ) (t : Tree κ β) : Prop where
  shows : Shows h none t
  nodup : t.addrs.Nodup
  root_eq : root = t.ptr

def Clear (q : Option κ) (l : List κ) : Prop := ∀ a ∈ l, q ≠ some a

variable {h : Heap κ β} {p : Path κ β} {t near mid far : Tree κ β} {a b : κ} {red red' : Bool}
  {x y : β} {side : Side} {root parent q : Option κ} {g : Cell κ β → Cell κ β} {l : List κ}

omit [DecidableEq κ] in
theorem clear_some (fresh : a ∉ l) : Clear (some a) l := by
  rintro b member same
  obtain rfl := Option.some.inj same
  exact fresh member

omit [DecidableEq κ] in
theorem clear_ptr (apart : t.addrs.Disjoint l) : Clear t.ptr l := fun _ member same =>
  apart (mem_addrs_of_ptr same) member

omit [DecidableEq κ] in
private theorem clear_up (apart : (pathAddrs p).Disjoint l) : Clear (up p) l := fun _ member same =>
  apart (mem_pathAddrs_of_up same) member

private theorem adjust_self : adjust h (some a) g a = (h a).map g := by simp [adjust]

theorem adjust_of_ne (differ : q ≠ some a) : adjust h q g a = h a := by simp [adjust, differ]

omit [DecidableEq κ] in
private theorem shows_join :
    Shows h parent (join side a red x near far) ↔
      h a = some (Cell.make side x red parent near.ptr far.ptr) ∧
        Shows h (some a) near ∧ Shows h (some a) far := by
  cases side with
  | left => rfl
  | right =>
    simp only [join, Shows, Cell.make]
    rw [and_comm (a := Shows h (some a) far)]

omit [DecidableEq κ] in
theorem Shows.frame {h' : Heap κ β} (shown : Shows h parent t)
    (same : ∀ a ∈ t.addrs, h' a = h a) : Shows h' parent t := by
  induction t generalizing parent with
  | nil => trivial
  | node a red x l r ihl ihr =>
    simp only [addrs_node, List.mem_append, List.mem_cons] at same
    obtain ⟨cell, left, right⟩ := shown
    refine ⟨?_, ihl left fun b member => same b (.inl member),
      ihr right fun b member => same b (.inr (.inr member))⟩
    rw [same a (.inr (.inl rfl)), cell]

omit [DecidableEq κ] in
private theorem PathShows.frame {h' : Heap κ β} (shown : PathShows h p q)
    (same : ∀ a ∈ pathAddrs p, h' a = h a) : PathShows h' p q := by
  induction p generalizing q with
  | nil => trivial
  | cons f p ih =>
    simp only [pathAddrs, List.mem_cons, List.mem_append] at same
    obtain ⟨cell, sib, rest⟩ := shown
    refine ⟨?_, sib.frame fun b member => same b (.inr (.inl member)),
      ih rest fun b member => same b (.inr (.inr member))⟩
    rw [same f.addr (.inl rfl), cell]

omit [DecidableEq κ] in
theorem Shows.cell_of_mem (shown : Shows h parent t) (member : (a, x) ∈ t.inorder) :
    ∃ c, h a = some c ∧ c.item = x := by
  induction t generalizing parent with
  | nil => simp [inorder] at member
  | node b red y l r ihl ihr =>
    simp only [inorder, List.mem_append, List.mem_cons, Prod.mk.injEq] at member
    obtain ⟨cell, left, right⟩ := shown
    rcases member with inLeft | ⟨rfl, rfl⟩ | inRight
    · exact ihl left inLeft
    · exact ⟨_, cell, rfl⟩
    · exact ihr right inRight

private theorem Shows.adjust (shown : Shows h parent t) (clear : Clear q t.addrs) :
    Shows (adjust h q g) parent t :=
  shown.frame fun a member => adjust_of_ne (clear a member)

theorem PathShows.adjust {r : Option κ} (shown : PathShows h p q) (clear : Clear r (pathAddrs p)) :
    PathShows (adjust h r g) p q :=
  shown.frame fun a member => adjust_of_ne (clear a member)

private theorem Shows.reparent (shown : Shows h parent t) (nodup : t.addrs.Nodup) :
    Shows (LinkedTree.adjust h t.ptr (Cell.setParent q)) q t := by
  cases t with
  | nil => trivial
  | node a red x l r =>
    obtain ⟨⟨freshLeft, freshRight⟩, -, -, -⟩ := nodup_node.mp nodup
    obtain ⟨cell, left, right⟩ := shown
    refine ⟨?_, left.adjust (clear_some freshLeft), right.adjust (clear_some freshRight)⟩
    rw [ptr, adjust_self, cell]
    rfl

private theorem PathShows.retarget {r : Option κ} (shown : PathShows h p q)
    (nodup : (pathAddrs p).Nodup) :
    PathShows (LinkedTree.adjust h (up p) (Cell.setChild (sideOf p) r)) p r := by
  cases p with
  | nil => trivial
  | cons f p =>
    simp only [pathAddrs, List.nodup_cons, List.mem_append, not_or] at nodup
    obtain ⟨⟨freshSib, freshRest⟩, -⟩ := nodup
    obtain ⟨cell, sib, rest⟩ := shown
    refine ⟨?_, sib.adjust (clear_some freshSib), rest.adjust (clear_some freshRest)⟩
    rw [up, adjust_self, cell]
    simp [sideOf]

omit [DecidableEq κ] in
private theorem shows_fill :
    Shows h none (fill p t) ↔ PathShows h p t.ptr ∧ Shows h (up p) t := by
  induction p generalizing t with
  | nil => simp [PathShows, up]
  | cons f p ih =>
    rw [fill_cons, ih, shows_join, ptr_join]
    simp only [PathShows, up]
    tauto

omit [DecidableEq κ] in
theorem linked_fill :
    Linked h root (fill p t) ↔ (PathShows h p t.ptr ∧ Shows h (up p) t) ∧
      (t.addrs.Nodup ∧ (pathAddrs p).Nodup ∧ t.addrs.Disjoint (pathAddrs p)) ∧
        root = (fill p t).ptr := by
  rw [← shows_fill, ← nodup_fill]
  exact ⟨fun linked => ⟨linked.shows, linked.nodup, linked.root_eq⟩,
    fun ⟨shows, nodup, root_eq⟩ => ⟨shows, nodup, root_eq⟩⟩

omit [DecidableEq κ] in
theorem Linked.cell (linked : Linked h root (fill p (join side a red x near far))) :
    h a = some (Cell.make side x red (up p) near.ptr far.ptr) :=
  (shows_join.mp (linked_fill.mp linked).1.2).1

omit [DecidableEq κ] in
theorem Linked.children_differ (linked : Linked h root (fill p (join side a red x near far)))
    (nonempty : near ≠ nil ∨ far ≠ nil) : near.ptr ≠ far.ptr := by
  obtain ⟨-, ⟨nodup, -, -⟩, -⟩ := linked_fill.mp linked
  obtain ⟨-, -, -, apart⟩ := nodup_join.mp nodup
  intro same
  cases near with
  | nil =>
    cases far with
    | nil => simp at nonempty
    | node b c y l r => cases same
  | node b c y l r =>
    exact apart (mem_addrs_of_ptr rfl) (mem_addrs_of_ptr same.symm)

theorem Linked.recolour (linked : Linked h root (fill p (join side a red x near far))) (c : Bool) :
    Linked (adjust h (some a) (Cell.setRed c)) root (fill p (join side a c x near far)) := by
  obtain ⟨⟨path, shown⟩, ⟨nodup, pathNodup, apart⟩, root_eq⟩ := linked_fill.mp linked
  obtain ⟨cell, nearShown, farShown⟩ := shows_join.mp shown
  obtain ⟨⟨freshNear, freshFar⟩, -⟩ := nodup_join.mp nodup
  have freshPath : a ∉ pathAddrs p := fun member => apart (mem_addrs_join.mpr (.inl rfl)) member
  have sameOrder : (join side a c x near far).inorder = (join side a red x near far).inorder :=
    inorder_join_congr rfl rfl
  refine linked_fill.mpr ⟨⟨?_, shows_join.mpr ⟨?_, ?_, ?_⟩⟩, ?_, ?_⟩
  · rw [ptr_join] at path ⊢
    exact path.adjust (clear_some freshPath)
  · rw [adjust_self, cell]
    simp
  · exact nearShown.adjust (clear_some freshNear)
  · exact farShown.adjust (clear_some freshFar)
  · rw [addrs_congr sameOrder]
    exact ⟨nodup, pathNodup, apart⟩
  · rw [root_eq]
    cases p with
    | nil => simp
    | cons f p =>
      obtain ⟨b, -, same⟩ := ptr_fill_cons f p (nil : Tree κ β)
      rw [same, same]

/-- The heap after a rotation at `a`, whose far child `b` takes its place. -/
def turn (h : Heap κ β) (side : Side) (a b : κ) (mid parent : Option κ) (parentSide : Side) :
    Heap κ β :=
  let h := adjust h (some a) (Cell.setChild side.other mid)
  let h := adjust h mid (Cell.setParent (some a))
  let h := adjust h (some b) (Cell.setParent parent)
  let h := adjust h parent (Cell.setChild parentSide (some b))
  let h := adjust h (some b) (Cell.setChild side (some a))
  adjust h (some a) (Cell.setParent (some b))

theorem Linked.turn {root' : Option κ}
    (linked : Linked h root (fill p (join side a red x near (join side b red' y mid far))))
    (newRoot : root' = (fill p (join side b red' y (join side a red x near mid) far)).ptr) :
    Linked (turn h side a b mid.ptr (up p) (sideOf p)) root'
      (fill p (join side b red' y (join side a red x near mid) far)) := by
  obtain ⟨⟨path, shown⟩, ⟨nodup, pathNodup, apart⟩, -⟩ := linked_fill.mp linked
  obtain ⟨cellA, nearShown, shownB⟩ := shows_join.mp shown
  obtain ⟨cellB, midShown, farShown⟩ := shows_join.mp shownB
  obtain ⟨⟨aNear, aB⟩, -, nodupB, nearB⟩ := nodup_join.mp nodup
  obtain ⟨⟨bMid, bFar⟩, midNodup, -, midFar⟩ := nodup_join.mp nodupB
  simp only [mem_addrs_join, not_or] at aB
  obtain ⟨aNeB, aMid, aFar⟩ := aB
  have inTree : ∀ c, c = a ∨ c ∈ near.addrs ∨ c = b ∨ c ∈ mid.addrs ∨ c ∈ far.addrs →
      c ∉ pathAddrs p := fun c member => apart (by simpa only [mem_addrs_join] using member)
  have inRight : ∀ c, c = b ∨ c ∈ mid.addrs ∨ c ∈ far.addrs → c ∉ near.addrs :=
    fun c member other => nearB other (by simpa only [mem_addrs_join] using member)
  -- no pointer that is written below reaches into a part it does not belong to
  have upClear : ∀ c, c = a ∨ c ∈ near.addrs ∨ c = b ∨ c ∈ mid.addrs ∨ c ∈ far.addrs →
      up p ≠ some c := fun c member same => inTree c member (mem_pathAddrs_of_up same)
  have midClear : ∀ c, c ∉ mid.addrs → mid.ptr ≠ some c :=
    fun c fresh same => fresh (mem_addrs_of_ptr same)
  refine linked_fill.mpr ⟨⟨?_, shows_join.mpr ⟨?_, shows_join.mpr ⟨?_, ?_, ?_⟩, ?_⟩⟩, ?_, newRoot⟩
  · rw [ptr_join] at path ⊢
    have aPath := clear_some (inTree a (.inl rfl))
    have bPath := clear_some (inTree b (.inr (.inr (.inl rfl))))
    have midPath : Clear mid.ptr (pathAddrs p) := fun c member =>
      midClear c fun inMid => inTree c (.inr (.inr (.inr (.inl inMid)))) member
    exact (((((path.adjust aPath).adjust midPath).adjust bPath).retarget pathNodup).adjust
      bPath).adjust aPath
  · simp [LinkedTree.turn, adjust, cellB, upClear b, midClear b bMid, aNeB]
  · simp [LinkedTree.turn, adjust, cellA, upClear a, midClear a aMid, Ne.symm aNeB]
  · refine nearShown.frame fun c member => ?_
    have cA : a ≠ c := fun same => aNear (same ▸ member)
    have cB : b ≠ c := fun same => inRight b (.inl rfl) (same ▸ member)
    have cMid : mid.ptr ≠ some c := midClear c fun inMid => inRight c (.inr (.inl inMid)) member
    simp [LinkedTree.turn, adjust, cA, cB, cMid, upClear c (.inr (.inl member))]
  · have cA := clear_some aMid
    have cB := clear_some bMid
    have cUp : Clear (up p) mid.addrs := fun c member =>
      upClear c (.inr (.inr (.inr (.inl member))))
    exact (((((midShown.adjust cA).reparent midNodup).adjust cB).adjust cUp).adjust cB).adjust cA
  · refine farShown.frame fun c member => ?_
    have cA : a ≠ c := fun same => aFar (same ▸ member)
    have cB : b ≠ c := fun same => bFar (same ▸ member)
    have cMid : mid.ptr ≠ some c := midClear c fun inMid => midFar inMid member
    simp [LinkedTree.turn, adjust, cA, cB, cMid, upClear c (.inr (.inr (.inr (.inr member))))]
  · rw [addrs_congr (inorder_rotate side a b red red' x y near mid far)]
    exact ⟨nodup, pathNodup, apart⟩

private theorem Linked.plug {root' : Option κ} (path : PathShows h p q) (shown : Shows h (up p) t)
    (nodup : (fill p t).addrs.Nodup) (newRoot : root' = (fill p t).ptr) :
    Linked (adjust h (up p) (Cell.setChild (sideOf p) t.ptr)) root' (fill p t) := by
  obtain ⟨treeNodup, pathNodup, apart⟩ := nodup_fill.mp nodup
  have clear : Clear (up p) t.addrs := clear_up (List.disjoint_comm.mp apart)
  exact linked_fill.mpr ⟨⟨path.retarget pathNodup, shown.adjust clear⟩,
    nodup_fill.mp nodup, newRoot⟩

theorem Linked.plant {root' : Option κ} (linked : Linked h root (fill p (nil : Tree κ β)))
    (fresh : a ∉ pathAddrs p) (newRoot : root' = (fill p (node a true x nil nil)).ptr) :
    Linked (adjust (Function.update h a (some ⟨x, true, up p, none, none⟩)) (up p)
      (Cell.setChild (sideOf p) (some a))) root' (fill p (node a true x nil nil)) := by
  obtain ⟨⟨path, -⟩, ⟨-, pathNodup, -⟩, -⟩ := linked_fill.mp linked
  have leaf : Shows (Function.update h a (some ⟨x, true, up p, none, none⟩)) (up p)
      (node a true x nil nil) := ⟨by simp [ptr], trivial, trivial⟩
  refine Linked.plug (t := node a true x nil nil) (path.frame fun c member => ?_) leaf ?_ newRoot
  · have differ : c ≠ a := fun same => fresh (same ▸ member)
    exact Function.update_of_ne differ _ _
  · exact nodup_fill.mpr ⟨by simp [addrs, inorder], pathNodup,
      by simpa [addrs, inorder] using fresh⟩

theorem Linked.transplant {root' : Option κ} (linked : Linked h root (fill p t))
    (shown : Shows h parent near) (nodup : near.addrs.Nodup) (sub : near.addrs ⊆ t.addrs)
    (newRoot : root' = (fill p near).ptr) :
    Linked (adjust (adjust h near.ptr (Cell.setParent (up p))) (up p)
      (Cell.setChild (sideOf p) near.ptr)) root' (fill p near) := by
  obtain ⟨⟨path, -⟩, ⟨-, pathNodup, apart⟩, -⟩ := linked_fill.mp linked
  have nearApart : near.addrs.Disjoint (pathAddrs p) := fun c member => apart (sub member)
  exact Linked.plug (path.adjust (clear_ptr nearApart)) (shown.reparent nodup)
    (nodup_fill.mpr ⟨nodup, pathNodup, nearApart⟩) newRoot

/-- The heap after node `b` has taken over colour, children and parent of another node. -/
def supplant (h : Heap κ β) (b : κ) (red : Bool) (left right parent : Option κ)
    (parentSide : Side) : Heap κ β :=
  let h := adjust h (some b) (Cell.setParent parent)
  let h := adjust h parent (Cell.setChild parentSide (some b))
  let h := adjust h (some b) (Cell.setRed red)
  let h := adjust h (some b) (Cell.setChild .left left)
  let h := adjust h (some b) (Cell.setChild .right right)
  let h := adjust h left (Cell.setParent (some b))
  adjust h right (Cell.setParent (some b))

theorem Linked.supplant {l r : Tree κ β} {c : Cell κ β} {root' : Option κ}
    (linked : Linked h root (fill p (node a red x l r))) (cell : h b = some c)
    (fresh : b ∉ (fill p (node a red x l r)).addrs)
    (newRoot : root' = (fill p (node b red c.item l r)).ptr) :
    Linked (supplant h b red l.ptr r.ptr (up p) (sideOf p)) root'
      (fill p (node b red c.item l r)) := by
  obtain ⟨⟨path, -, leftShown, rightShown⟩, ⟨nodup, pathNodup, apart⟩, -⟩ := linked_fill.mp linked
  obtain ⟨-, leftNodup, rightNodup, leftRight⟩ := nodup_node.mp nodup
  simp only [mem_addrs_fill, addrs_node, List.mem_append, List.mem_cons, not_or] at fresh
  obtain ⟨⟨bLeft, -, bRight⟩, bPath⟩ := fresh
  have leftApart : l.addrs.Disjoint (pathAddrs p) := fun c member =>
    apart (by simp [addrs_node, member])
  have rightApart : r.addrs.Disjoint (pathAddrs p) := fun c member =>
    apart (by simp [addrs_node, member])
  have upLeft : Clear (up p) l.addrs := clear_up (List.disjoint_comm.mp leftApart)
  have upRight : Clear (up p) r.addrs := clear_up (List.disjoint_comm.mp rightApart)
  refine linked_fill.mpr ⟨⟨?_, ?_, ?_, ?_⟩, ⟨?_, pathNodup, ?_⟩, newRoot⟩
  · have bClear := clear_some bPath
    exact (((((((path.adjust bClear).retarget pathNodup).adjust bClear).adjust bClear).adjust
      bClear).adjust (clear_ptr leftApart)).adjust (clear_ptr rightApart))
  · have upB : up p ≠ some b := fun same => bPath (mem_pathAddrs_of_up same)
    have leftB : l.ptr ≠ some b := fun same => bLeft (mem_addrs_of_ptr same)
    have rightB : r.ptr ≠ some b := fun same => bRight (mem_addrs_of_ptr same)
    simp [LinkedTree.supplant, adjust, upB, leftB, rightB, cell, Cell.setParent, Cell.setRed,
      Cell.setChild]
  · have bClear := clear_some bLeft
    exact ((((((leftShown.adjust bClear).adjust upLeft).adjust bClear).adjust bClear).adjust
      bClear).reparent leftNodup).adjust (clear_ptr (List.disjoint_comm.mp leftRight))
  · have bClear := clear_some bRight
    exact ((((((rightShown.adjust bClear).adjust upRight).adjust bClear).adjust bClear).adjust
      bClear).adjust (clear_ptr leftRight)).reparent rightNodup
  · exact nodup_node.mpr ⟨⟨bLeft, bRight⟩, leftNodup, rightNodup, leftRight⟩
  · intro c member other
    simp only [addrs_node, List.mem_append, List.mem_cons] at member
    rcases member with inLeft | rfl | inRight
    · exact leftApart inLeft other
    · exact bPath other
    · exact rightApart inRight other

theorem Linked.drop (linked : Linked h root t) (unused : a ∉ t.addrs) :
    Linked (Function.update h a none) root t := by
  refine ⟨linked.shows.frame fun c member => ?_, linked.nodup, linked.root_eq⟩
  have differ : c ≠ a := fun same => unused (same ▸ member)
  exact Function.update_of_ne differ _ _

end OhMyOs.Lib.LinkedTree
