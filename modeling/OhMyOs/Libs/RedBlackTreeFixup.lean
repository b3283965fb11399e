/- GID: OhMyOs/Libs/RedBlackTreeFixup
   generality: I
   digest: The fixup loops of libs/rb_tree.c round by round: which pointers they follow, and that
   they end. -/

import OhMyOs.Libs.RedBlackTreeRuns

set_option autoImplicit false
set_option relaxedAutoImplicit false

namespace OhMyOs.Libs.RedBlackTree

open OhMyOs.Lib.Outcome
open OhMyOs.Lib.Runs
open OhMyOs.Lib.RedBlack (Side Path Frame fill up closed Hole before after up_nil)
open OhMyOs.Lib.RedBlack.Tree
open OhMyOs.Lib.LinkedTree

variable {V : Type}

/-! ### What a round relies on -/

/-- The sibling that the body works with after its first step exists, and so does the outer nephew
where it is followed. -/
def BodySafe (side : Side) (s : RbTree V) (parent : Ptr) : Prop :=
  ∃ s1 b n, removeSibling side s parent = .ok (s1, some b) ∧ s1.heap b = some n ∧
    (nephewsBlack s1 (some b) = .ok false → ∃ s2 c d, removeInner side s1 parent (some b) =
      .ok (s2, some c) ∧ childOf s2 side.other (some c) = .ok (some d))

/-- The parent exists, `nodex` is its child on one side only, NULL or not, and the test finds that
side; the sibling on the other side exists; the round returns. -/
def RemoveSafe (st : RemoveLoop V) : Prop :=
  ∃ f n side b m next, st.parent = some f ∧ st.tree.heap f = some n ∧ n.child side = st.nodex ∧
    n.child side.other = some b ∧ st.tree.heap b = some m ∧ st.nodex ≠ some b ∧
      whichSide st.tree st.nodex st.parent = .ok side ∧ BodySafe side st.tree st.parent ∧
        removeRound st = .ok (some next)

/-- The red parent and the grandparent exist, the test finds the side of the parent, and the round
returns. -/
def InsertSafe (st : InsertLoop V) : Prop :=
  ∃ f n g m side next, parentOf st.tree st.nodex = .ok (some f) ∧ st.tree.heap f = some n ∧
    n.red = true ∧ n.parent = some g ∧ st.tree.heap g = some m ∧ m.child side = some f ∧
      whichSide st.tree (some f) (some g) = .ok side ∧ insertRound st = .ok (some next)

def removeStep (st : RemoveLoop V) (_ : Unit) : Option (RemoveLoop V) :=
  (removeRound st).toOption.join

def insertStep (st : InsertLoop V) (_ : Unit) : Option (InsertLoop V) :=
  (insertRound st).toOption.join

def removeFixupEntry (s : RbTree V) (key : Nat) : Except Fault (Option (RemoveLoop V)) := do
  let nodez ← searchFrom loopFuel s s.root key
  if nodez.isNone then return none
  else
    let (fixup, st) ← removeDetach s nodez
    return if fixup then some st else none

def insertFixupEntry (s : RbTree V) (start stop : Nat) (value : V) (newNode : Ptr) :
    Except Fault (Option (InsertLoop V)) :=
  if start > stop then .ok none else do
    match ← insertPlace loopFuel s start stop s.root none, newNode with
    | none, _ => return none
    | some _, none => return none
    | some parent, some a =>
      let linked ← insertLink (insertNode s start stop value parent a) parent newNode
      return linked.map fun s => ⟨s, newNode⟩

/-! ### Removal -/

section Remove
variable {s : RbTree V} {st : RemoveLoop V} {nodes : List (Addr × Item V)} {t sib : Tree V}
  {p : Path Addr (Item V)} {f : Addr} {fi : Item V} {c : Bool} {side : Side} {n : Nat}

private theorem ptr_of_balanced (bal : Balanced sib (n + 1)) : ∃ b, sib.ptr = some b := by
  obtain ⟨b, y, inner, outer, shape⟩ := exists_join .left bal.ne_nil
  exact ⟨b, by rw [shape, ptr_join]⟩

private theorem bodySafe_rep (rep : Rep s (fill p (join side f c fi t sib)))
    (hole : Hole (⟨side, f, c, fi, sib⟩ :: p) (n + 1)) : BodySafe side s (some f) := by
  obtain ⟨⟨s1, nodey⟩, first, c1, sib1, p1, rfl, rep1, -, hole1, sibBlack, -⟩ :=
    removeSibling_rep rep hole
  obtain ⟨b, y, inner, outer, shape⟩ := exists_join side hole1.sib_balanced.ne_nil
  rw [sibBlack] at shape
  subst shape
  have atB := rep_far rep1
  refine ⟨s1, b, _, by rw [first, ptr_join], Linked.cell atB, fun someRed => ?_⟩
  rw [nephewsBlack_rep atB] at someRed
  obtain ⟨innerBal, outerBal⟩ := balanced_join_black.mp hole1.sib_balanced
  obtain ⟨⟨s2, nodey⟩, second, b', y', inner', outer', rfl, rep2, -, -, -, outerRed⟩ :=
    removeInner_rep rep1 innerBal outerBal (Except.ok.inj someRed)
  obtain ⟨d, z, l, r, shape⟩ := exists_join .left (ne_nil_of_isRed outerRed)
  refine ⟨s2, b', d, second, ?_⟩
  rw [childOf_other_rep (rep_far rep2), shape, ptr_join]

private theorem RemoveFocus.safe (focus : RemoveFocus st.tree st.nodex nodes p t n)
    (parent : st.parent = up p) (more : ¬ (p = [] ∨ t.isRed = true)) : RemoveSafe st := by
  obtain ⟨-, round, next, -, -, -, rfl, -⟩ := removeRound_goes focus parent more
  obtain ⟨⟨side, f, c, fi, sib⟩, p, rfl⟩ := List.exists_cons_of_ne_nil (not_or.mp more).1
  obtain ⟨same, rep, -, -, hole⟩ := focus
  have atF : Rep st.tree (fill p (join side f c fi t sib)) := rep
  obtain ⟨b, sibling⟩ := ptr_of_balanced hole.sib_balanced
  have differ := Linked.children_differ atF (.inr hole.sib_balanced.ne_nil)
  obtain ⟨m, cell⟩ : ∃ m, st.tree.heap b = some m := by
    rcases live_rep (rep_far atF) with null | live
    · rw [sibling] at null
      cases null
    · rw [sibling] at live
      exact Option.isSome_iff_exists.mp live
  have which := whichSide_rep atF (.inr hole.sib_balanced.ne_nil)
  refine ⟨f, _, side, b, m, next, parent, Linked.cell atF, ?_, ?_, cell, ?_, ?_, ?_, round⟩
  · rw [Cell.make_child, same]
  · rw [Cell.make_child_other, sibling]
  · rw [same, ← sibling]
    exact differ
  · rw [same, parent]
    exact which
  · rw [parent]
    exact bodySafe_rep atF hole

def RemoveHead (nodes : List (Addr × Item V)) (st : RemoveLoop V) : Prop :=
  ∃ p t n, st.parent = up p ∧ RemoveFocus st.tree st.nodex nodes p t n

private theorem RemoveHead.rounds {start : RemoveLoop V} (head : RemoveHead nodes start)
    (run : Run removeStep Free start st) : RemoveHead nodes st := by
  refine run.invariant head ?_
  rintro st ⟨⟩ st' ⟨p, t, n, parent, focus⟩ - step
  by_cases done : p = [] ∨ t.isRed = true
  · rw [removeStep, removeRound_stops focus done] at step
    cases step
  · obtain ⟨-, round, next, p', t', m, rfl, parent', focus', -⟩ :=
      removeRound_goes focus parent done
    rw [removeStep, round] at step
    obtain rfl := Option.some.inj step
    exact ⟨p', t', m, parent', focus'⟩

private theorem removeFixupEntry_head (holds : Holds s nodes) {key : Nat} {start : RemoveLoop V}
    (entry : removeFixupEntry s key = .ok (some start)) :
    ∃ rest, RemoveHead rest start := by
  have search := rbTreeSearch_holds holds key
  rw [rbTreeSearch] at search
  simp only [removeFixupEntry, search, ok_bind] at entry
  cases found : nodes.find? (covers key) with
  | none =>
    rw [found] at entry
    cases entry
  | some u =>
    rw [found] at entry
    obtain ⟨-, pre, post, rfl, -⟩ := List.find?_eq_some_iff_append.mp found
    obtain ⟨⟨fixup, st⟩, detach, detached⟩ := removeDetach_holds holds
    simp only [Option.map_some, Option.isNone_some, Bool.false_eq_true, if_false, detach, ok_bind,
      pure_eq_ok] at entry
    cases fixup with
    | false => cases entry
    | true =>
      obtain rfl := Option.some.inj (Except.ok.inj entry)
      obtain ⟨p, t, n, parent, focus⟩ := detached.focus rfl
      exact ⟨_, p, t, n, parent, focus⟩

end Remove

/-! ### Insertion -/

section Insert
variable {s : RbTree V} {st : InsertLoop V} {nodes : List (Addr × Item V)} {t : Tree V}
  {p : Path Addr (Item V)} {n : Nat}

private theorem InsertFocus.safe (focus : InsertFocus st.tree st.nodex nodes p t n)
    (more : ¬ (p = [] ∨ closed p = false)) : InsertSafe st := by
  obtain ⟨-, round, next, -, -, -, rfl, -⟩ := insertRound_goes focus more
  obtain ⟨fs, f, fi, sib, gs, g, gi, uncle, q, rfl, -⟩ := focus.grandparent more
  have atG : Rep st.tree (fill q (join gs g false gi (join fs f true fi t sib) uncle)) := focus.rep
  have nonempty := ne_nil_of_isRed focus.red
  have which := whichSide_rep atG (.inl (ne_nil_of_ptr (ptr_join fs f true fi t sib)))
  rw [ptr_join] at which
  refine ⟨f, _, g, _, gs, next, ?_, Linked.cell (rep_near atG), ?_, ?_, Linked.cell atG, ?_, which,
    round⟩
  · rw [focus.nodex_eq]
    exact (parents_rep atG nonempty).1
  · rw [Cell.make_red]
  · rw [Cell.make_parent]
    rfl
  · rw [Cell.make_child, ptr_join]

def InsertHead (nodes : List (Addr × Item V)) (st : InsertLoop V) : Prop :=
  ∃ p t n, InsertFocus st.tree st.nodex nodes p t n

private theorem InsertHead.rounds {start : InsertLoop V} (head : InsertHead nodes start)
    (run : Run insertStep Free start st) : InsertHead nodes st := by
  refine run.invariant head ?_
  rintro st ⟨⟩ st' ⟨p, t, n, focus⟩ - step
  by_cases done : p = [] ∨ closed p = false
  · rw [insertStep, insertRound_stops focus done] at step
    cases step
  · obtain ⟨-, round, next, p', t', m, rfl, focus', -⟩ := insertRound_goes focus done
    rw [insertStep, round] at step
    obtain rfl := Option.some.inj step
    exact ⟨p', t', m, focus'⟩

private theorem insertFixupEntry_head (holds : Holds s nodes) {start stop : Nat} {value : V}
    {newNode : Ptr}
    (free : ∀ a, newNode = some a → s.heap a = none) {first : InsertLoop V}
    (entry : insertFixupEntry s start stop value newNode = .ok (some first)) :
    ∃ all, InsertHead all first := by
  obtain ⟨⟨t, rep, rfl, ⟨n, bal⟩, black⟩, sorted⟩ := holds
  have valid : start ≤ stop := by
    by_contra reversed
    rw [insertFixupEntry, if_pos (Nat.lt_of_not_le reversed)] at entry
    cases entry
  rw [insertFixupEntry, if_neg (Nat.not_lt.mpr valid), rep.root_eq] at entry
  have whole : Rep s (fill [] t) := rep
  rcases insertPlace_rep start stop whole sorted (by simp [before]) (by simp [after])
    (length_lt_loopFuel rep.nodup) with ⟨place, -⟩ | ⟨q, shape, place, left, right⟩
  · rw [up_nil] at place
    rw [place, ok_bind] at entry
    cases entry
  · rw [up_nil] at place
    rw [place, ok_bind] at entry
    cases newNode with
    | none => cases entry
    | some a =>
      obtain rfl : t = fill q .nil := shape
      obtain ⟨-, link, s1, rfl, focus⟩ :=
        insertLink_focus value rep (free a rfl) sorted left right valid bal black
      simp only [link, ok_bind, pure_eq_ok, Option.map_some] at entry
      obtain rfl := Option.some.inj (Except.ok.inj entry)
      exact ⟨_, q, _, 0, focus⟩

end Insert

/-! ### The calls -/

private theorem rbTreeRemove_entry {s : RbTree V} {key : Nat} {start : RemoveLoop V}
    (entry : removeFixupEntry s key = .ok (some start)) :
    ∃ nodez, rbTreeRemove (some s) key = (do
      let s ← removeFixup loopFuel start.tree start.parent start.nodex
      rbTreeValidate (kfree s nodez)
      return (some (kfree s nodez), 0)) := by
  obtain ⟨nodez, search, entry⟩ := bind_eq_ok entry
  cases missing : nodez.isNone with
  | true =>
    rw [missing] at entry
    cases entry
  | false =>
    rw [missing] at entry
    obtain ⟨⟨fixup, st⟩, detach, entry⟩ := bind_eq_ok entry
    cases fixup with
    | false => cases entry
    | true =>
      obtain rfl := Option.some.inj (Except.ok.inj entry)
      refine ⟨nodez, ?_⟩
      simp only [rbTreeRemove, search, ok_bind, missing, Bool.false_eq_true, if_false,
        removeNode_eq, detach, if_true, bind_assoc]
      rfl

private theorem rbTreeInsert_entry {s : RbTree V} {start stop : Nat} {value : V} {newNode : Ptr}
    {first : InsertLoop V}
    (entry : insertFixupEntry s start stop value newNode = .ok (some first)) :
    rbTreeInsert (some s) start stop value newNode = (do
      let s ← insertFixup loopFuel first.tree first.nodex
      rbTreeValidate s
      return (some s, newNode)) := by
  by_cases reversed : start > stop
  · rw [insertFixupEntry, if_pos reversed] at entry
    cases entry
  · rw [insertFixupEntry, if_neg reversed] at entry
    obtain ⟨place, walk, entry⟩ := bind_eq_ok entry
    cases place with
    | none => cases entry
    | some parent =>
      cases newNode with
      | none => cases entry
      | some a =>
        obtain ⟨linked, link, entry⟩ := bind_eq_ok entry
        obtain ⟨s1, rfl, rfl⟩ := Option.map_eq_some_iff.mp (Except.ok.inj entry)
        simp only [rbTreeInsert, if_neg reversed, walk, ok_bind, link]

/-- In every reachable state both calls return, so their loops end, no assert fires and no NULL or
dangling pointer is followed. A call that enters a fixup goes on with it, and every round of it has
what it relies on. -/
theorem rbTree_fixups_safe {allocated : Bool} {s : RbTree V} (run : TreeRun allocated (some s)) :
    (∀ key, (∃ r, rbTreeRemove (some s) key = .ok r) ∧
      ∀ start, removeFixupEntry s key = .ok (some start) →
        (∃ nodez, rbTreeRemove (some s) key = (do
          let s ← removeFixup loopFuel start.tree start.parent start.nodex
          rbTreeValidate (kfree s nodez)
          return (some (kfree s nodez), 0))) ∧
        ∀ st, Run removeStep Free start st →
          removeFixupGoes st.tree st.nodex = .ok false ∨
            removeFixupGoes st.tree st.nodex = .ok true ∧ RemoveSafe st) ∧
    ∀ start stop value newNode, Fresh (some s) newNode →
      (∃ r, rbTreeInsert (some s) start stop value newNode = .ok r) ∧
      ∀ first, insertFixupEntry s start stop value newNode = .ok (some first) →
        rbTreeInsert (some s) start stop value newNode = (do
          let s ← insertFixup loopFuel first.tree first.nodex
          rbTreeValidate s
          return (some s, newNode)) ∧
        ∀ st, Run insertStep Free first st →
          insertFixupGoes st.tree st.nodex = .ok false ∨
            insertFixupGoes st.tree st.nodex = .ok true ∧ InsertSafe st := by
  obtain ⟨nodes, holds⟩ := run.inv s rfl
  constructor
  · intro key
    obtain ⟨r, call, -⟩ := rbTreeRemove_holds holds key
    refine ⟨⟨r, call⟩, fun start entry => ⟨rbTreeRemove_entry entry, fun st rounds => ?_⟩⟩
    obtain ⟨rest, head⟩ := removeFixupEntry_head holds entry
    obtain ⟨p, t, n, parent, focus⟩ := head.rounds rounds
    by_cases done : p = [] ∨ t.isRed = true
    · exact .inl (removeFixupGoes_stops focus done)
    · exact .inr ⟨removeFixupGoes_goes focus done, focus.safe parent done⟩
  · intro start stop value newNode fresh
    have free : ∀ a, newNode = some a → s.heap a = none := fun a same => fresh s a rfl same
    obtain ⟨r, call, -⟩ := rbTreeInsert_holds holds start stop value newNode free
    refine ⟨⟨r, call⟩, fun first entry => ⟨rbTreeInsert_entry entry, fun st rounds => ?_⟩⟩
    obtain ⟨all, head⟩ := insertFixupEntry_head holds free entry
    obtain ⟨p, t, n, focus⟩ := head.rounds rounds
    by_cases done : p = [] ∨ closed p = false
    · exact .inl (insertFixupGoes_stops focus done)
    · exact .inr ⟨insertFixupGoes_goes focus done, focus.safe done⟩

/-- A black leaf is removed, so the fixup starts with a NULL `nodex`. -/
theorem rbTree_fixups_safe_null :
    ∃ (s : RbTree Nat) (start : RemoveLoop Nat), TreeRun true (some s) ∧
      removeFixupEntry s 5 = .ok (some start) ∧ start.nodex = none ∧ RemoveSafe start := by
  have done : (exec treeStep kmallocFresh (rbTreeCreate true) sampleOps).map (fun tree =>
      tree.map fun s => ((removeFixupEntry s 5).toOption.map fun entry => entry.map fun st =>
        (st.nodex, (removeFixupGoes st.tree st.nodex).toOption))) =
      some (some (some (some (none, some true)))) := by decide +kernel
  obtain ⟨tree, executed, there⟩ := Option.map_eq_some_iff.mp done
  obtain ⟨s, rfl, enters⟩ := Option.map_eq_some_iff.mp there
  obtain ⟨entry, called, begins⟩ := Option.map_eq_some_iff.mp enters
  obtain ⟨start, rfl, state⟩ := Option.map_eq_some_iff.mp begins
  obtain ⟨null, goes⟩ := Prod.mk.inj state
  have run : TreeRun true (some s) := (Run.of_exec executed).mono fun _ _ => kmallocFresh_sound
  refine ⟨s, start, run, of_toOption called, null, ?_⟩
  have rounds := (((rbTree_fixups_safe run).1 5).2 start (of_toOption called)).2 start .refl
  rw [of_toOption goes] at rounds
  rcases rounds with stops | ⟨-, safe⟩
  · cases stops
  · exact safe

end OhMyOs.Libs.RedBlackTree
