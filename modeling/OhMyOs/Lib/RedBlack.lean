/- GID: OhMyOs/Lib/RedBlack
   generality: G
   digest: Red-black trees with addressed nodes, their one-hole contexts, and balance. -/

import Mathlib.Algebra.Group.Nat.Defs
import Mathlib.Data.List.Nodup
import Mathlib.Data.List.Perm.Basic
import Mathlib.Data.Nat.Log

set_option autoImplicit false
set_option relaxedAutoImplicit false

namespace OhMyOs.Lib.RedBlack

inductive Side
  | left | right
  deriving DecidableEq, Repr

def Side.other : Side → Side
  | .left => .right
  | .right => .left

@[simp] theorem Side.other_other (side : Side) : side.other.other = side := by
  cases side <;> rfl

@[simp] theorem Side.other_ne (side : Side) : side.other ≠ side := by
  cases side <;> decide

@[simp] theorem Side.ne_other (side : Side) : side ≠ side.other := by
  cases side <;> decide

inductive Tree (κ β : Type)
  | nil
  | node (a : κ) (red : Bool) (x : β) (l r : Tree κ β)

variable {κ β : Type}

namespace Tree

def join (side : Side) (a : κ) (red : Bool) (x : β) (near far : Tree κ β) : Tree κ β :=
  match side with
  | .left => node a red x near far
  | .right => node a red x far near

@[simp] theorem join_other (side : Side) (a : κ) (red : Bool) (x : β) (near far : Tree κ β) :
    join side.other a red x near far = join side a red x far near := by
  cases side <;> rfl

def ptr : Tree κ β → Option κ
  | nil => none
  | node a _ _ _ _ => some a

def isRed : Tree κ β → Bool
  | nil => false
  | node _ red _ _ _ => red

def paint (red : Bool) : Tree κ β → Tree κ β
  | nil => nil
  | node a _ x l r => node a red x l r

def inorder : Tree κ β → List (κ × β)
  | nil => []
  | node a _ x l r => l.inorder ++ (a, x) :: r.inorder

def addrs (t : Tree κ β) : List κ := t.inorder.map Prod.fst

@[simp] theorem ptr_nil : (nil : Tree κ β).ptr = none := rfl

@[simp] theorem ptr_node (a : κ) (red : Bool) (x : β) (l r : Tree κ β) :
    (node a red x l r).ptr = some a := rfl

@[simp] theorem ptr_join (side : Side) (a : κ) (red : Bool) (x : β) (near far : Tree κ β) :
    (join side a red x near far).ptr = some a := by
  cases side <;> rfl

@[simp] theorem isRed_join (side : Side) (a : κ) (red : Bool) (x : β) (near far : Tree κ β) :
    (join side a red x near far).isRed = red := by
  cases side <;> rfl

@[simp] theorem paint_join (side : Side) (a : κ) (c red : Bool) (x : β) (near far : Tree κ β) :
    (join side a red x near far).paint c = join side a c x near far := by
  cases side <;> rfl

theorem isRed_paint (t : Tree κ β) : (t.paint false).isRed = false := by
  cases t <;> rfl

@[simp] theorem inorder_paint (c : Bool) (t : Tree κ β) : (t.paint c).inorder = t.inorder := by
  cases t <;> rfl

@[simp] theorem ptr_paint (c : Bool) (t : Tree κ β) : (t.paint c).ptr = t.ptr := by
  cases t <;> rfl

theorem paint_of_black {t : Tree κ β} (black : t.isRed = false) : t.paint false = t := by
  cases t with
  | nil => rfl
  | node a red x l r =>
    obtain rfl : red = false := black
    rfl

theorem inorder_join_congr {side : Side} {a : κ} {red red' : Bool} {x : β}
    {near far near' far' : Tree κ β} (sameNear : near.inorder = near'.inorder)
    (sameFar : far.inorder = far'.inorder) :
    (join side a red x near far).inorder = (join side a red' x near' far').inorder := by
  cases side <;> simp [join, inorder, sameNear, sameFar]

theorem inorder_rotate (side : Side) (a b : κ) (red red' : Bool) (x y : β)
    (near mid far : Tree κ β) :
    (join side b red' y (join side a red x near mid) far).inorder =
      (join side a red x near (join side b red' y mid far)).inorder := by
  cases side <;> simp [join, inorder]

theorem addrs_congr {t t' : Tree κ β} (same : t.inorder = t'.inorder) : t.addrs = t'.addrs := by
  simp [addrs, same]

theorem addrs_nil : (nil : Tree κ β).addrs = [] := rfl

theorem addrs_node (a : κ) (red : Bool) (x : β) (l r : Tree κ β) :
    (node a red x l r).addrs = l.addrs ++ a :: r.addrs := by
  simp [addrs, inorder]

private theorem addrs_join_perm (side : Side) (a : κ) (red : Bool) (x : β) (near far : Tree κ β) :
    (join side a red x near far).addrs.Perm (a :: (near.addrs ++ far.addrs)) := by
  cases side with
  | left => simp [join, addrs_node]
  | right =>
    simp only [join, addrs_node]
    exact List.perm_middle.trans (List.Perm.cons a List.perm_append_comm)

theorem mem_addrs_join {side : Side} {a b : κ} {red : Bool} {x : β} {near far : Tree κ β} :
    b ∈ (join side a red x near far).addrs ↔ b = a ∨ b ∈ near.addrs ∨ b ∈ far.addrs := by
  rw [(addrs_join_perm side a red x near far).mem_iff]
  simp

theorem nodup_join {side : Side} {a : κ} {red : Bool} {x : β} {near far : Tree κ β} :
    (join side a red x near far).addrs.Nodup ↔
      (a ∉ near.addrs ∧ a ∉ far.addrs) ∧ near.addrs.Nodup ∧ far.addrs.Nodup ∧
        near.addrs.Disjoint far.addrs := by
  rw [(addrs_join_perm side a red x near far).nodup_iff, List.nodup_cons, List.nodup_append']
  simp [and_assoc]

theorem nodup_node {a : κ} {red : Bool} {x : β} {l r : Tree κ β} :
    (node a red x l r).addrs.Nodup ↔
      (a ∉ l.addrs ∧ a ∉ r.addrs) ∧ l.addrs.Nodup ∧ r.addrs.Nodup ∧ l.addrs.Disjoint r.addrs := by
  rw [← nodup_join, join]

theorem mem_addrs_of_ptr {t : Tree κ β} {a : κ} (root : t.ptr = some a) : a ∈ t.addrs := by
  cases t with
  | nil => cases root
  | node b red x l r =>
    obtain rfl := Option.some.inj root
    simp [addrs_node]

theorem exists_join (side : Side) {t : Tree κ β} (nonempty : t ≠ nil) :
    ∃ a x near far, t = join side a t.isRed x near far := by
  cases t with
  | nil => exact absurd rfl nonempty
  | node a red x l r =>
    cases side with
    | left => exact ⟨a, x, l, r, rfl⟩
    | right => exact ⟨a, x, r, l, rfl⟩

theorem ne_nil_of_ptr {t : Tree κ β} {a : κ} (root : t.ptr = some a) : t ≠ nil := by
  rintro rfl
  cases root

theorem ptr_isNone {t : Tree κ β} (nonempty : t ≠ nil) : t.ptr.isNone = false := by
  cases t with
  | nil => exact absurd rfl nonempty
  | node a red x l r => rfl

theorem ne_nil_of_isRed {t : Tree κ β} (red : t.isRed = true) : t ≠ nil := by
  rintro rfl
  cases red

/-- Equal black height on all paths, and no red node with a red child. -/
inductive Balanced : Tree κ β → Nat → Prop
  | nil : Balanced nil 0
  | red {a x l r n} (left : Balanced l n) (right : Balanced r n) (leftBlack : l.isRed = false)
      (rightBlack : r.isRed = false) : Balanced (node a true x l r) n
  | black {a x l r n} (left : Balanced l n) (right : Balanced r n) :
      Balanced (node a false x l r) (n + 1)

theorem balanced_join_red {side : Side} {a : κ} {x : β} {near far : Tree κ β} {n : Nat} :
    Balanced (join side a true x near far) n ↔
      Balanced near n ∧ Balanced far n ∧ near.isRed = false ∧ far.isRed = false := by
  constructor
  · intro bal
    cases side <;> cases bal <;> simp_all
  · rintro ⟨nearBal, farBal, nearBlack, farBlack⟩
    cases side with
    | left => exact .red nearBal farBal nearBlack farBlack
    | right => exact .red farBal nearBal farBlack nearBlack

theorem balanced_join_black {side : Side} {a : κ} {x : β} {near far : Tree κ β} {n : Nat} :
    Balanced (join side a false x near far) (n + 1) ↔ Balanced near n ∧ Balanced far n := by
  constructor
  · intro bal
    cases side <;> cases bal <;> simp_all
  · rintro ⟨nearBal, farBal⟩
    cases side with
    | left => exact .black nearBal farBal
    | right => exact .black farBal nearBal

private theorem Balanced.black_height {side : Side} {a : κ} {x : β} {near far : Tree κ β} {n : Nat}
    (bal : Balanced (join side a false x near far) n) : ∃ m, n = m + 1 := by
  cases side <;> cases bal <;> exact ⟨_, rfl⟩

theorem Balanced.ne_nil {t : Tree κ β} {n : Nat} (bal : Balanced t (n + 1)) :
    t ≠ Tree.nil := by
  rintro rfl
  cases bal

theorem Balanced.paint_black {t : Tree κ β} {n : Nat} (bal : Balanced t n)
    (red : t.isRed = true) : Balanced (t.paint false) (n + 1) := by
  cases bal with
  | nil => cases red
  | red left right _ _ => exact .black left right
  | black left right => cases red

def height : Tree κ β → Nat
  | nil => 0
  | node _ _ _ l r => max l.height r.height + 1

theorem height_le_length (t : Tree κ β) : t.height ≤ t.addrs.length := by
  induction t with
  | nil => exact Nat.zero_le _
  | node a red x l r ihl ihr =>
    rw [height, addrs_node, List.length_append, List.length_cons]
    omega

private theorem Balanced.two_pow_le {t : Tree κ β} {n : Nat} (bal : Balanced t n) :
    2 ^ n ≤ t.addrs.length + 1 := by
  induction bal with
  | nil => exact Nat.le_refl 1
  | red _ _ _ _ ihl ihr =>
    rw [addrs_node, List.length_append, List.length_cons]
    omega
  | black _ _ ihl ihr =>
    rw [addrs_node, List.length_append, List.length_cons, Nat.pow_succ]
    omega

private theorem Balanced.height_le {t : Tree κ β} {n : Nat} (bal : Balanced t n) :
    t.height ≤ 2 * n + t.isRed.toNat := by
  induction bal with
  | nil => exact Nat.le_refl 0
  | red _ _ leftBlack rightBlack ihl ihr =>
    rw [leftBlack] at ihl
    rw [rightBlack] at ihr
    simp only [height, isRed, Bool.toNat_false, Bool.toNat_true] at ihl ihr ⊢
    omega
  | @black _ _ l r _ _ _ ihl ihr =>
    have left := Bool.toNat_le l.isRed
    have right := Bool.toNat_le r.isRed
    simp only [height, isRed, Bool.toNat_false]
    omega

theorem Balanced.height_le_log {t : Tree κ β} {n : Nat} (bal : Balanced t n)
    (black : t.isRed = false) : t.height ≤ 2 * Nat.log 2 (t.addrs.length + 1) := by
  have high := bal.height_le
  have low : n ≤ Nat.log 2 (t.addrs.length + 1) :=
    Nat.le_log_of_pow_le Nat.one_lt_two bal.two_pow_le
  rw [black, Bool.toNat_false] at high
  omega

end Tree

open OhMyOs.Lib.RedBlack.Tree

structure Frame (κ β : Type) where
  side : Side
  addr : κ
  red : Bool
  item : β
  sib : Tree κ β

abbrev Path (κ β : Type) := List (Frame κ β)

def fill : Path κ β → Tree κ β → Tree κ β
  | [], t => t
  | f :: p, t => fill p (join f.side f.addr f.red f.item t f.sib)

@[simp] theorem fill_nil (t : Tree κ β) : fill [] t = t := rfl

theorem fill_cons (f : Frame κ β) (p : Path κ β) (t : Tree κ β) :
    fill (f :: p) t = fill p (join f.side f.addr f.red f.item t f.sib) := rfl

theorem fill_append (p q : Path κ β) (t : Tree κ β) : fill (p ++ q) t = fill q (fill p t) := by
  induction p generalizing t with
  | nil => rfl
  | cons f p ih => exact ih _

theorem fill_ne_nil {t : Tree κ β} (nonempty : t ≠ nil) (p : Path κ β) : fill p t ≠ nil := by
  induction p generalizing t with
  | nil => exact nonempty
  | cons f p ih => exact ih (ne_nil_of_ptr (ptr_join ..))

def up : Path κ β → Option κ
  | [] => none
  | f :: _ => some f.addr

@[simp] theorem up_nil : up ([] : Path κ β) = none := rfl

def sideOf : Path κ β → Side
  | [] => .left
  | f :: _ => f.side

def pathAddrs : Path κ β → List κ
  | [] => []
  | f :: p => f.addr :: (f.sib.addrs ++ pathAddrs p)

def before : Path κ β → List (κ × β)
  | [] => []
  | f :: p => before p ++ match f.side with
    | .left => []
    | .right => f.sib.inorder ++ [(f.addr, f.item)]

def after : Path κ β → List (κ × β)
  | [] => []
  | f :: p => (match f.side with
    | .left => (f.addr, f.item) :: f.sib.inorder
    | .right => []) ++ after p

theorem inorder_fill (p : Path κ β) (t : Tree κ β) :
    (fill p t).inorder = before p ++ t.inorder ++ after p := by
  induction p generalizing t with
  | nil => simp [before, after]
  | cons f p ih =>
    rw [fill_cons, ih]
    cases side : f.side <;> simp [before, after, join, Tree.inorder, side]

theorem inorder_fill_congr {p : Path κ β} {t t' : Tree κ β} (same : t.inorder = t'.inorder) :
    (fill p t).inorder = (fill p t').inorder := by
  simp [inorder_fill, same]

private theorem addrs_fill_perm (p : Path κ β) (t : Tree κ β) :
    (fill p t).addrs.Perm (t.addrs ++ pathAddrs p) := by
  induction p generalizing t with
  | nil => simp [pathAddrs]
  | cons f p ih =>
    refine (ih _).trans ?_
    refine ((addrs_join_perm f.side f.addr f.red f.item t f.sib).append_right _).trans ?_
    simp only [pathAddrs, List.cons_append, List.append_assoc]
    exact List.perm_middle.symm

theorem nodup_fill {p : Path κ β} {t : Tree κ β} :
    (fill p t).addrs.Nodup ↔
      t.addrs.Nodup ∧ (pathAddrs p).Nodup ∧ t.addrs.Disjoint (pathAddrs p) := by
  rw [(addrs_fill_perm p t).nodup_iff, List.nodup_append']

theorem mem_addrs_fill {p : Path κ β} {t : Tree κ β} {a : κ} :
    a ∈ (fill p t).addrs ↔ a ∈ t.addrs ∨ a ∈ pathAddrs p := by
  rw [(addrs_fill_perm p t).mem_iff, List.mem_append]

theorem mem_pathAddrs_of_up {p : Path κ β} {a : κ} (parent : up p = some a) : a ∈ pathAddrs p := by
  cases p with
  | nil => cases parent
  | cons f p =>
    obtain rfl := Option.some.inj parent
    simp [pathAddrs]

theorem ptr_fill_cons (f : Frame κ β) (p : Path κ β) (t : Tree κ β) :
    ∃ a ∈ pathAddrs (f :: p), ∀ t : Tree κ β, (fill (f :: p) t).ptr = some a := by
  induction p generalizing f t with
  | nil => exact ⟨f.addr, by simp [pathAddrs], fun t => by simp [fill]⟩
  | cons g p ih =>
    obtain ⟨a, member, root⟩ := ih g t
    exact ⟨a, by simp only [pathAddrs] at member ⊢; simp_all, fun t => root _⟩

theorem ptr_fill_eq_iff {p : Path κ β} {t : Tree κ β} (nodup : (fill p t).addrs.Nodup) :
    t.ptr = (fill p t).ptr ↔ p = [] := by
  cases p with
  | nil => simp
  | cons f p =>
    obtain ⟨a, member, root⟩ := ptr_fill_cons f p t
    rw [root t]
    simp only [reduceCtorEq, iff_false]
    exact fun same => (nodup_fill.mp nodup).2.2 (mem_addrs_of_ptr same) member

theorem length_le_pathAddrs (p : Path κ β) : p.length ≤ (pathAddrs p).length := by
  induction p with
  | nil => simp
  | cons f p ih =>
    simp only [pathAddrs, List.length_cons, List.length_append]
    omega

/-- A red node may not be put into the hole: it would be the root or a red node's child. -/
def closed : Path κ β → Bool
  | [] => true
  | f :: _ => f.red

/-- The context is balanced apart from its hole, which wants a tree of the given black height. -/
inductive Hole : Path κ β → Nat → Prop
  | root {n} : Hole [] n
  | red {side a x sib p n} (sibBal : Balanced sib n) (sibBlack : sib.isRed = false)
      (rest : Hole p n) (opened : closed p = false) : Hole (⟨side, a, true, x, sib⟩ :: p) n
  | black {side a x sib p n} (sibBal : Balanced sib n) (rest : Hole p (n + 1)) :
      Hole (⟨side, a, false, x, sib⟩ :: p) n

theorem Hole.fill {p : Path κ β} {n : Nat} (hole : Hole p n) {t : Tree κ β} (bal : Balanced t n)
    (colour : t.isRed = true → closed p = false) :
    (∃ m, Balanced (RedBlack.fill p t) m) ∧ (RedBlack.fill p t).isRed = false := by
  induction hole generalizing t with
  | root =>
    refine ⟨⟨_, bal⟩, ?_⟩
    rw [fill_nil]
    exact Bool.eq_false_iff.mpr fun red => by simpa [closed] using colour red
  | red sibBal sibBlack _ opened ih =>
    have black : t.isRed = false :=
      Bool.eq_false_iff.mpr fun red => by simpa [closed] using colour red
    exact ih (balanced_join_red.mpr ⟨bal, sibBal, black, sibBlack⟩) fun _ => opened
  | black sibBal _ ih =>
    exact ih (balanced_join_black.mpr ⟨bal, sibBal⟩) fun red => by simp at red

theorem Hole.swap {side side' : Side} {a a' : κ} {red : Bool} {x x' : β} {sib sib' : Tree κ β}
    {p : Path κ β} {n : Nat} (hole : Hole (⟨side, a, red, x, sib⟩ :: p) n)
    (bal : Balanced sib' n) (black : sib'.isRed = false) :
    Hole (⟨side', a', red, x', sib'⟩ :: p) n := by
  cases hole with
  | red _ _ rest opened => exact .red bal black rest opened
  | black _ rest => exact .black bal rest

theorem Hole.sib_balanced {f : Frame κ β} {p : Path κ β} {n : Nat} (hole : Hole (f :: p) n) :
    Balanced f.sib n := by
  cases hole with
  | red bal _ _ _ => exact bal
  | black bal _ => exact bal

theorem Hole.rename {side : Side} {a a' : κ} {red : Bool} {x x' : β} {sib : Tree κ β}
    {q p : Path κ β} {n : Nat} (hole : Hole (q ++ ⟨side, a, red, x, sib⟩ :: p) n) :
    Hole (q ++ ⟨side, a', red, x', sib⟩ :: p) n := by
  induction q generalizing n with
  | nil =>
    cases hole with
    | red sibBal sibBlack rest opened => exact .red sibBal sibBlack rest opened
    | black sibBal rest => exact .black sibBal rest
  | cons f q ih =>
    cases hole with
    | red sibBal sibBlack rest opened =>
      refine .red sibBal sibBlack (ih rest) ?_
      cases q with
      | nil => exact opened
      | cons f q => exact opened
    | black sibBal rest => exact .black sibBal (ih rest)

private theorem Hole.down {side : Side} {a : κ} {red : Bool} {x : β} {near far : Tree κ β}
    {p : Path κ β}
    {n : Nat} (hole : Hole p n) (colour : red = true → closed p = false)
    (bal : Balanced (join side a red x near far) n) :
    ∃ m, Balanced near m ∧ Hole (⟨side, a, red, x, far⟩ :: p) m ∧
      (near.isRed = true → closed (⟨side, a, red, x, far⟩ :: p) = false) := by
  cases red with
  | true =>
    obtain ⟨nearBal, farBal, nearBlack, farBlack⟩ := balanced_join_red.mp bal
    refine ⟨n, nearBal, .red farBal farBlack hole (colour rfl), fun red => ?_⟩
    rw [nearBlack] at red
    cases red
  | false =>
    obtain ⟨m, rfl⟩ := bal.black_height
    obtain ⟨nearBal, farBal⟩ := balanced_join_black.mp bal
    exact ⟨m, nearBal, .black farBal hole, fun _ => rfl⟩

theorem Hole.of_fill {p : Path κ β} {t : Tree κ β} {m : Nat} (bal : Balanced (RedBlack.fill p t) m)
    (black : (RedBlack.fill p t).isRed = false) :
    ∃ n, Balanced t n ∧ Hole p n ∧ (t.isRed = true → closed p = false) := by
  induction p generalizing t with
  | nil =>
    refine ⟨m, bal, .root, fun red => ?_⟩
    rw [fill_nil, red] at black
    cases black
  | cons f p ih =>
    obtain ⟨n, whole, hole, colour⟩ := ih bal black
    exact hole.down (by simpa using colour) whole

theorem before_append (q p : Path κ β) : before (q ++ p) = before p ++ before q := by
  induction q with
  | nil => simp [before]
  | cons f q ih => simp [before, ih]

theorem after_append (q p : Path κ β) : after (q ++ p) = after q ++ after p := by
  induction q with
  | nil => simp [after]
  | cons f q ih => simp [after, ih]

theorem exists_path {t : Tree κ β} {a : κ} (member : a ∈ t.addrs) :
    ∃ p red x l r, t = fill p (node a red x l r) := by
  induction t with
  | nil => simp [addrs_nil] at member
  | node b red x l r ihl ihr =>
    simp only [addrs_node, List.mem_append, List.mem_cons] at member
    rcases member with inLeft | rfl | inRight
    · obtain ⟨p, red', x', l', r', rfl⟩ := ihl inLeft
      exact ⟨p ++ [⟨.left, b, red, x, r⟩], red', x', l', r', by rw [fill_append]; rfl⟩
    · exact ⟨[], red, x, l, r, rfl⟩
    · obtain ⟨p, red', x', l', r', rfl⟩ := ihr inRight
      exact ⟨p ++ [⟨.right, b, red, x, l⟩], red', x', l', r', by rw [fill_append]; rfl⟩

end OhMyOs.Lib.RedBlack
