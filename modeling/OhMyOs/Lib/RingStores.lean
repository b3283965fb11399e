/- GID: OhMyOs/Lib/RingStores
   generality: G
   digest: List operations as the sequences of their single stores, and what stores elsewhere leave
   alone. -/

import OhMyOs.Lib.Ring

set_option autoImplicit false
set_option relaxedAutoImplicit false

namespace OhMyOs.Lib.RingStores

open OhMyOs.Lib.Ring

variable {ι α : Type} [DecidableEq ι] [DecidableEq α]

inductive Ref (ι α : Type)
  | cell (c : Cell ι α)
  | nextOf (c : Cell ι α)
  | prevOf (c : Cell ι α)
  deriving DecidableEq

def Ref.base : Ref ι α → Cell ι α
  | .cell c | .nextOf c | .prevOf c => c

def Ref.eval (l : Links ι α) : Ref ι α → Cell ι α
  | .cell c => c
  | .nextOf c => l.next c
  | .prevOf c => l.prev c

inductive Store (ι α : Type)
  | next (addr val : Ref ι α)
  | prev (addr val : Ref ι α)
  deriving DecidableEq

def Store.addr : Store ι α → Ref ι α
  | .next addr _ | .prev addr _ => addr

def Store.val : Store ι α → Ref ι α
  | .next _ val | .prev _ val => val

def Store.run (l : Links ι α) : Store ι α → Links ι α
  | .next addr val => l.setNext (addr.eval l) (val.eval l)
  | .prev addr val => l.setPrev (addr.eval l) (val.eval l)

def runAll (l : Links ι α) (todo : List (Store ι α)) : Links ι α := todo.foldl Store.run l

def Agree (S : Set (Cell ι α)) (l l' : Links ι α) : Prop :=
  ∀ c ∈ S, l'.next c = l.next c ∧ l'.prev c = l.prev c

def Within (S : Set (Cell ι α)) : Links ι α → List (Store ι α) → Prop
  | _, [] => True
  | l, st :: rest =>
    st.addr.base ∈ S ∧ st.val.base ∈ S ∧ st.addr.eval l ∈ S ∧ Within S (st.run l) rest

variable {S T : Set (Cell ι α)} {l l' l'' : Links ι α} {st : Store ι α} {todo : List (Store ι α)}

omit [DecidableEq ι] [DecidableEq α] in
private theorem Agree.trans (first : Agree S l l') (second : Agree S l' l'') : Agree S l l'' :=
  fun c member =>
    ⟨(second c member).1.trans (first c member).1, (second c member).2.trans (first c member).2⟩

omit [DecidableEq ι] [DecidableEq α] in
private theorem Agree.eval {r : Ref ι α} (agree : Agree S l l') (inside : r.base ∈ S) :
    r.eval l' = r.eval l := by
  cases r with
  | cell c => rfl
  | nextOf c => exact (agree c inside).1
  | prevOf c => exact (agree c inside).2

theorem Store.run_agree (outside : st.addr.eval l ∉ S) : Agree S l (st.run l) := by
  intro c member
  have differ : c ≠ st.addr.eval l := by
    rintro rfl
    exact outside member
  cases st with
  | next addr val => exact ⟨Function.update_of_ne differ .., rfl⟩
  | prev addr val => exact ⟨rfl, Function.update_of_ne differ ..⟩

private theorem Agree.run (agree : Agree S l l') (addr : st.addr.base ∈ S) (val : st.val.base ∈ S) :
    Agree S (st.run l) (st.run l') := by
  intro c member
  have here := agree c member
  cases st with
  | next a v =>
    refine ⟨?_, here.2⟩
    change Function.update l'.next (a.eval l') (v.eval l') c =
      Function.update l.next (a.eval l) (v.eval l) c
    rw [agree.eval (r := a) addr, agree.eval (r := v) val]
    by_cases same : c = a.eval l
    · rw [same, Function.update_self, Function.update_self]
    · rw [Function.update_of_ne same, Function.update_of_ne same]
      exact here.1
  | prev a v =>
    refine ⟨here.1, ?_⟩
    change Function.update l'.prev (a.eval l') (v.eval l') c =
      Function.update l.prev (a.eval l) (v.eval l) c
    rw [agree.eval (r := a) addr, agree.eval (r := v) val]
    by_cases same : c = a.eval l
    · rw [same, Function.update_self, Function.update_self]
    · rw [Function.update_of_ne same, Function.update_of_ne same]
      exact here.2

theorem Agree.runAll (agree : Agree S l l') (within : Within S l todo) :
    Agree S (runAll l todo) (runAll l' todo) ∧ Within S l' todo := by
  induction todo generalizing l l' with
  | nil => exact ⟨agree, trivial⟩
  | cons st rest ih =>
    obtain ⟨addr, val, target, within⟩ := within
    obtain ⟨same, still⟩ := ih (agree.run addr val) within
    exact ⟨same, addr, val, agree.eval addr ▸ target, still⟩

def cells (i : ι) (xs : List α) : Set (Cell ι α) := {c | c = .head i ∨ ∃ x ∈ xs, c = .node x}

omit [DecidableEq ι] [DecidableEq α] in
theorem head_mem_cells (i : ι) (xs : List α) : Cell.head i ∈ cells i xs := .inl rfl

omit [DecidableEq ι] [DecidableEq α] in
@[simp]
theorem node_mem_cells {i : ι} {xs : List α} {x : α} : Cell.node x ∈ cells i xs ↔ x ∈ xs := by
  simp [cells]

omit [DecidableEq ι] [DecidableEq α] in
theorem cells_disjoint {i j : ι} {xs ys : List α} (differ : i ≠ j) (apart : ∀ x ∈ xs, x ∉ ys)
    {c : Cell ι α} (member : c ∈ cells i xs) : c ∉ cells j ys := by
  rcases member with rfl | ⟨x, inside, rfl⟩
  · rintro (same | ⟨y, -, same⟩)
    · exact differ (Cell.head.inj same)
    · cases same
  · rw [node_mem_cells]
    exact apart x inside

omit [DecidableEq ι] [DecidableEq α] in
theorem Agree.seg {i : ι} {xs ys : List α} (agree : Agree (cells i ys) l l')
    (seg : Seg l (.head i) xs (.head i)) (sub : ∀ x ∈ xs, x ∈ ys) :
    Seg l' (.head i) xs (.head i) := by
  have head := agree _ (head_mem_cells i ys)
  refine seg.frame head.1 head.2 fun x member => agree _ ?_
  rw [node_mem_cells]
  exact sub x member

omit [DecidableEq ι] [DecidableEq α] in
theorem next_mem_cells {i : ι} {xs : List α} (seg : Seg l (.head i) xs (.head i)) :
    l.next (.head i) ∈ cells i xs := by
  rcases seg.next_mem with next | ⟨x, member, next⟩
  · rw [next]
    exact head_mem_cells i xs
  · rw [next, node_mem_cells]
    exact member

omit [DecidableEq ι] [DecidableEq α] in
theorem prev_mem_cells {i : ι} {xs : List α} (seg : Seg l (.head i) xs (.head i)) :
    l.prev (.head i) ∈ cells i xs := by
  rcases seg.prev_mem with prev | ⟨x, member, prev⟩
  · rw [prev]
    exact head_mem_cells i xs
  · rw [prev, node_mem_cells]
    exact member

end OhMyOs.Lib.RingStores
