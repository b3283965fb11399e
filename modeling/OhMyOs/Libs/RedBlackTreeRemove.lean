/- GID: OhMyOs/Libs/RedBlackTreeRemove
   generality: I
   digest: The removal fixup of libs/rb_tree.c ends and restores the balance. -/

import OhMyOs.Libs.RedBlackTreeInsert

set_option autoImplicit false
set_option relaxedAutoImplicit false

namespace OhMyOs.Libs.RedBlackTree

open OhMyOs.Lib.Outcome
open OhMyOs.Lib.RedBlack (Side Path Frame fill up fill_cons closed Hole inorder_fill_congr fill_nil
  fill_ne_nil)
open OhMyOs.Lib.RedBlack.Tree
open OhMyOs.Lib.LinkedTree

variable {V : Type} {s : RbTree V} {t sib inner outer : Tree V} {p : Path Addr (Item V)}
  {f b : Addr} {fi y : Item V} {c : Bool} {side : Side} {n fuel : Nat}

/-- One black node is missing below: a black tree is one too low, a red one is right once it is
blackened. -/
def Short (t : Tree V) (n : Nat) : Prop :=
  (t.isRed = true → Balanced (t.paint false) (n + 1)) ∧ (t.isRed = false → Balanced t n)

structure RemoveFocus (s : RbTree V) (nodex : Ptr) (nodes : List (Addr × Item V))
    (p : Path Addr (Item V)) (t : Tree V) (n : Nat) : Prop where
  nodex_eq : nodex = t.ptr
  rep : Rep s (fill p t)
  order : (fill p t).inorder = nodes
  short : Short t n
  hole : Hole p (n + 1)

theorem removeSibling_rep (rep : Rep s (fill p (join side f c fi t sib)))
    (hole : Hole (⟨side, f, c, fi, sib⟩ :: p) (n + 1)) :
    Ensures (removeSibling side s (some f)) fun r => ∃ c' sib' p', r.2 = sib'.ptr ∧
      Rep r.1 (fill p' (join side f c' fi t sib')) ∧
        (fill p' (join side f c' fi t sib')).inorder = (fill p (join side f c fi t sib)).inorder ∧
          Hole (⟨side, f, c', fi, sib'⟩ :: p') (n + 1) ∧ sib'.isRed = false ∧
            (c' = true ∨ p' = p) := by
  cases colour : sib.isRed with
  | false =>
    simp only [removeSibling, childOf_other_rep rep, ok_bind, isRed_rep (rep_far rep), colour,
      Bool.false_eq_true, if_false, pure_eq_ok]
    exact .ok ⟨c, sib, p, rfl, rep, rfl, hole, colour, .inr rfl⟩
  | true =>
    -- a red sibling has a black parent
    cases hole with
    | red _ sibBlack _ _ => simp [colour] at sibBlack
    | black sibBal rest =>
      obtain ⟨a, x, l, r, shape⟩ := exists_join side (ne_nil_of_isRed colour)
      rw [colour] at shape
      subst shape
      obtain ⟨leftBal, rightBal, leftBlack, rightBlack⟩ := balanced_join_red.mp sibBal
      simp only [removeSibling, childOf_other_rep rep, ok_bind, isRed_rep (rep_far rep), colour,
        if_true]
      refine Ensures.bind (setColour_rep (rep_far rep) false) fun s1 rep1 => ?_
      rw [fill_cons, join_other, paint_join] at rep1
      refine Ensures.bind (ptr_join side f false fi t _ ▸ setColour_rep rep1 true) fun s2 rep2 => ?_
      rw [paint_join] at rep2
      refine Ensures.bind (rotate_rep rep2) fun s3 rep3 => ?_
      simp only [childOf_other_rep (rep_near rep3), ok_bind, pure_eq_ok]
      refine .ok ⟨true, l, ⟨side, a, false, x, r⟩ :: p, rfl, rep3, ?_, ?_, leftBlack, .inl rfl⟩
      · rw [fill_cons]
        refine inorder_fill_congr ?_
        rw [inorder_rotate]
        exact inorder_join_congr rfl (inorder_join_congr rfl rfl)
      · exact .red leftBal leftBlack (.black rightBal rest) rfl

theorem nephewsBlack_rep (rep : Rep s (fill p (join side b c y inner outer))) :
    nephewsBlack s (some b) = .ok (!inner.isRed && !outer.isRed) := by
  have near := childOf_rep rep
  have far := childOf_other_rep rep
  have nearColour := isBlack_rep (rep_near rep)
  have farColour := isBlack_rep (rep_far rep)
  cases side with
  | left =>
    simp only [nephewsBlack, Option.isNone_some, Bool.false_eq_true, if_false, near, ok_bind,
      nearColour, show childOf s .right (some b) = _ from far, farColour]
    cases inner.isRed <;> simp [pure_eq_ok]
  | right =>
    simp only [nephewsBlack, Option.isNone_some, Bool.false_eq_true, if_false, ok_bind, near,
      nearColour, show childOf s .left (some b) = _ from far, farColour]
    cases outer.isRed <;> simp [pure_eq_ok]

private theorem onlyInnerRed_rep (rep : Rep s (fill p (join side b c y inner outer))) :
    onlyInnerRed side s (some b) = .ok (inner.isRed && !outer.isRed) := by
  simp only [onlyInnerRed, childOf_rep rep, ok_bind, isRed_rep (rep_near rep),
    childOf_other_rep rep, isBlack_rep (rep_far rep)]
  cases inner.isRed <;> simp [pure_eq_ok]

theorem removeInner_rep
    (rep : Rep s (fill p (join side f c fi t (join side b false y inner outer))))
    (innerBal : Balanced inner n) (outerBal : Balanced outer n)
    (someRed : (!inner.isRed && !outer.isRed) = false) :
    Ensures (removeInner side s (some f) (some b)) fun r => ∃ b' y' inner' outer', r.2 = some b' ∧
      Rep r.1 (fill p (join side f c fi t (join side b' false y' inner' outer'))) ∧
        (join side b' false y' inner' outer').inorder = (join side b false y inner outer).inorder ∧
          Balanced inner' n ∧ Balanced outer' n ∧ outer'.isRed = true := by
  have atB := rep_far rep
  simp only [removeInner, onlyInnerRed_rep atB, ok_bind]
  cases outerColour : outer.isRed with
  | true =>
    simp only [Bool.not_true, Bool.and_false, Bool.false_eq_true, if_false, pure_eq_ok]
    exact .ok ⟨b, y, inner, outer, rfl, rep, rfl, innerBal, outerBal, outerColour⟩
  | false =>
    have innerColour : inner.isRed = true := by simpa [outerColour] using someRed
    obtain ⟨d, z, l, r, shape⟩ := exists_join side (ne_nil_of_isRed innerColour)
    rw [innerColour] at shape
    subst shape
    obtain ⟨leftBal, rightBal, leftBlack, rightBlack⟩ := balanced_join_red.mp innerBal
    simp only [innerColour, Bool.not_false, Bool.and_self, if_true]
    refine Ensures.bind (ptr_join side b false y _ outer ▸ setColour_rep atB true) fun s1 rep1 => ?_
    rw [paint_join] at rep1
    simp only [childOf_rep rep1, ok_bind]
    refine Ensures.bind (setColour_rep (rep_near rep1) false) fun s2 rep2 => ?_
    rw [paint_join, fill_cons] at rep2
    have mirrored : Rep s2 (fill (⟨side.other, f, c, fi, t⟩ :: p)
        (join side.other b true y outer (join side.other d false z r l))) := by
      simpa only [join_other] using rep2
    refine Ensures.bind (rotate_rep mirrored) fun s3 rep3 => ?_
    simp only [join_other, fill_cons] at rep3
    simp only [childOf_other_rep rep3, ptr_join, ok_bind, pure_eq_ok]
    refine .ok ⟨d, z, l, join side b true y r outer, rfl, rep3, ?_, leftBal, ?_, by simp⟩
    · have turn := inorder_rotate side.other b d true false y z outer r l
      simp only [join_other] at turn
      rw [turn]
      exact inorder_join_congr (inorder_join_congr rfl rfl) rfl
    · exact balanced_join_red.mpr ⟨rightBal, outerBal, rightBlack, outerColour⟩

private theorem removeOuter_rep
    (rep : Rep s (fill p (join side f c fi t (join side b false y inner outer))))
    (hole : Hole (⟨side, f, c, fi, sib⟩ :: p) (n + 1)) (bal : Balanced t n)
    (innerBal : Balanced inner n) (outerBal : Balanced outer n) (outerRed : outer.isRed = true) :
    Ensures (do
      let s ← store s (some b) (Cell.setRed (← load s (some f)).red)
      let s ← setBlack s (some f)
      let s ← setBlack s (← childOf s side.other (some b))
      let s ← rotate side s (some f)
      return (s, s.root)) fun r => ∃ t' m, t' ≠ nil ∧ RemoveFocus r.1 r.2
        (fill p (join side f c fi t (join side b false y inner outer))).inorder [] t' m := by
  have colourB : store s (some b) (Cell.setRed c) = setColour c s (some b) := by simp [setColour]
  simp only [load_rep rep, Cell.make_red, ok_bind, colourB]
  refine Ensures.bind (ptr_join side b false y inner outer ▸ setColour_rep (rep_far rep) c)
    fun s1 rep1 => ?_
  rw [paint_join, fill_cons, join_other] at rep1
  refine Ensures.bind (ptr_join side f c fi t _ ▸ setColour_rep rep1 false) fun s2 rep2 => ?_
  rw [paint_join] at rep2
  have atB := rep_far rep2
  simp only [childOf_other_rep atB, ok_bind]
  refine Ensures.bind (setColour_rep (rep_far atB) false) fun s3 rep3 => ?_
  simp only [fill_cons, join_other] at rep3
  refine Ensures.bind (rotate_rep rep3) fun s4 rep4 => .ok ?_
  have top : Hole (⟨side, b, c, y, outer.paint false⟩ :: p) (n + 1) :=
    hole.swap (outerBal.paint_black outerRed) (isRed_paint ..)
  have filled := top.fill (balanced_join_black.mpr ⟨bal, innerBal⟩ :
    Balanced (join side f false fi t inner) (n + 1)) (by simp)
  obtain ⟨⟨m, whole⟩, black⟩ := filled
  refine ⟨_, m, fill_ne_nil (ne_nil_of_ptr (ptr_join ..)) p, rep4.root_eq, rep4,
    ?_, ⟨fun red => ?_, fun _ => whole⟩, .root⟩
  · refine inorder_fill_congr (p := p) ?_
    rw [inorder_rotate]
    exact inorder_join_congr rfl (inorder_join_congr rfl (inorder_paint ..))
  · exact absurd red (by simpa [fill_cons] using black)

private theorem removeFixupSide_rep (rep : Rep s (fill p (join side f c fi t sib)))
    (hole : Hole (⟨side, f, c, fi, sib⟩ :: p) (n + 1)) (bal : Balanced t n) :
    Ensures (removeFixupSide side s (some f)) fun r => ∃ p' t' m, t' ≠ nil ∧ RemoveFocus r.1 r.2
      (fill p (join side f c fi t sib)).inorder p' t' m ∧
        ((p' = [] ∨ t'.isRed = true) ∨ p' = p) := by
  simp only [removeFixupSide]
  refine Ensures.bind (removeSibling_rep rep hole) ?_
  rintro ⟨s1, nodey⟩ ⟨c1, sib1, p1, rfl, rep1, order1, hole1, sibBlack, progress⟩
  have sibBal : Balanced sib1 (n + 1) := hole1.sib_balanced
  obtain ⟨b, y, inner, outer, shape⟩ := exists_join side sibBal.ne_nil
  rw [sibBlack] at shape
  subst shape
  obtain ⟨innerBal, outerBal⟩ := balanced_join_black.mp sibBal
  simp only [ptr_join, nephewsBlack_rep (rep_far rep1), ok_bind]
  cases nephews : (!inner.isRed && !outer.isRed) with
  | true =>
    simp only [Bool.and_eq_true, Bool.not_eq_true'] at nephews
    simp only [if_true]
    refine Ensures.bind (ptr_join side b false y inner outer ▸ setColour_rep (rep_far rep1) true)
      fun s2 rep2 => .ok ?_
    rw [paint_join, fill_cons, join_other] at rep2
    have redSib : Balanced (join side b true y inner outer) n :=
      balanced_join_red.mpr ⟨innerBal, outerBal, nephews.1, nephews.2⟩
    have blackened : Balanced (join side f false fi t (join side b true y inner outer)) (n + 1) :=
      balanced_join_black.mpr ⟨bal, redSib⟩
    have order2 : (fill p1 (join side f c1 fi t (join side b true y inner outer))).inorder =
        (fill p (join side f c fi t sib)).inorder := by
      rw [← order1]
      exact inorder_fill_congr (inorder_join_congr rfl (inorder_join_congr rfl rfl))
    cases hole1 with
    | red _ _ rest _ =>
      refine ⟨p1, _, n, ne_nil_of_ptr (ptr_join ..), ⟨(ptr_join ..).symm, rep2, order2,
        ⟨fun _ => ?_, fun red => ?_⟩, rest⟩, .inl (.inr (isRed_join ..))⟩
      · simpa using blackened
      · simp at red
    | black _ rest =>
      refine ⟨p1, _, n + 1, ne_nil_of_ptr (ptr_join ..), ⟨(ptr_join ..).symm, rep2, order2,
        ⟨fun red => ?_, fun _ => blackened⟩, rest⟩, .inr ?_⟩
      · simp at red
      · simpa using progress
  | false =>
    simp only [Bool.false_eq_true, if_false]
    refine Ensures.bind (removeInner_rep rep1 innerBal outerBal nephews) ?_
    rintro ⟨s2, nodey⟩ ⟨b', y', inner', outer', rfl, rep2, order2, innerBal', outerBal', outerRed⟩
    refine (removeOuter_rep rep2 hole1 bal innerBal' outerBal' outerRed).mono ?_
    rintro r ⟨t', m, nonempty, focus⟩
    refine ⟨[], t', m, nonempty, ?_, .inl (.inl rfl)⟩
    rw [← order1, ← inorder_fill_congr (inorder_join_congr rfl order2)]
    exact focus

/-! ### Rounds -/

structure RemoveLoop (V : Type) where
  tree : RbTree V
  parent : Ptr
  nodex : Ptr

def removeRound (st : RemoveLoop V) : Except Fault (Option (RemoveLoop V)) := do
  if ← removeFixupGoes st.tree st.nodex then
    assert (!(st.nodex.isNone && st.parent.isNone))
    if st.parent.isNone then return some st
    else
      let side ← whichSide st.tree st.nodex st.parent
      let (s, nodex) ← removeFixupSide side st.tree st.parent
      return some ⟨s, ← parentOf s nodex, nodex⟩
  else return none

private theorem removeFixup_succ (st : RemoveLoop V) :
    removeFixup (fuel + 1) st.tree st.parent st.nodex = (do
      match ← removeRound st with
      | some next => removeFixup fuel next.tree next.parent next.nodex
      | none => setBlack st.tree st.nodex) := by
  simp only [removeFixup, removeRound, bind_assoc]
  congr
  funext goes
  cases goes with
  | false => rfl
  | true =>
    simp only [if_true, bind_assoc]
    congr
    funext passed
    cases missing : st.parent.isNone with
    | true => rfl
    | false =>
      simp only [Bool.false_eq_true, if_false, bind_assoc]
      rfl

variable {st : RemoveLoop V} {nodes : List (Addr × Item V)}

theorem removeFixupGoes_stops {nodex : Ptr} (focus : RemoveFocus s nodex nodes p t n)
    (done : p = [] ∨ t.isRed = true) : removeFixupGoes s nodex = .ok false := by
  rw [focus.nodex_eq]
  by_cases root : t.ptr = s.root
  · simp [removeFixupGoes, root]
  · have red : t.isRed = true :=
      done.resolve_left fun top => root ((isRoot_rep focus.rep).mpr top)
    simp [removeFixupGoes, root, isBlack_rep focus.rep, red]

theorem removeFixupGoes_goes {nodex : Ptr} (focus : RemoveFocus s nodex nodes p t n)
    (more : ¬ (p = [] ∨ t.isRed = true)) : removeFixupGoes s nodex = .ok true := by
  obtain ⟨notRoot, notRed⟩ := not_or.mp more
  have other : t.ptr ≠ s.root := fun same => notRoot ((isRoot_rep focus.rep).mp same)
  rw [focus.nodex_eq]
  simp [removeFixupGoes, other, isBlack_rep focus.rep, notRed]

theorem removeRound_stops (focus : RemoveFocus st.tree st.nodex nodes p t n)
    (done : p = [] ∨ t.isRed = true) : removeRound st = .ok none := by
  simp [removeRound, removeFixupGoes_stops focus done, ok_bind, pure_eq_ok]

theorem removeRound_goes (focus : RemoveFocus st.tree st.nodex nodes p t n)
    (parent : st.parent = up p) (more : ¬ (p = [] ∨ t.isRed = true)) :
    Ensures (removeRound st) fun next => ∃ st' p' t' m, next = some st' ∧ st'.parent = up p' ∧
      RemoveFocus st'.tree st'.nodex nodes p' t' m ∧
        ((p' = [] ∨ t'.isRed = true) ∨ p'.length < p.length) := by
  have goes := removeFixupGoes_goes focus more
  obtain ⟨notRoot, notRed⟩ := not_or.mp more
  obtain ⟨⟨side, f, c, fi, sib⟩, p, rfl⟩ := List.exists_cons_of_ne_nil notRoot
  obtain ⟨s, parentx, nodex⟩ := st
  obtain rfl : parentx = some f := parent
  obtain ⟨rfl, rep, rfl, short, hole⟩ := focus
  have black : t.isRed = false := by simpa using notRed
  have atF : Rep s (fill p (join side f c fi t sib)) := rep
  -- the sibling is not empty, so the test for the left child is right even for NULL
  have which : whichSide s t.ptr (some f) = .ok side :=
    whichSide_rep atF (.inr hole.sib_balanced.ne_nil)
  simp only [removeRound, goes, ok_bind, if_true, Option.isNone_some, Bool.and_false,
    Bool.not_false, assert, Bool.false_eq_true, if_false, which]
  refine Ensures.bind (removeFixupSide_rep atF hole (short.2 black)) ?_
  rintro ⟨s', nodex⟩ ⟨p', t', m, nonempty, focus, progress⟩
  have parent' : parentOf s' nodex = .ok (up p') := by
    have nodex_eq : nodex = t'.ptr := focus.nodex_eq
    rw [nodex_eq]
    exact parentOf_ptr focus.rep nonempty
  simp only [parent', ok_bind, pure_eq_ok]
  refine .ok ⟨_, p', t', m, rfl, rfl, focus, progress.imp_right fun same => ?_⟩
  simp [same]

private theorem RemoveFocus.blacken {nodex : Ptr} (focus : RemoveFocus s nodex nodes p t n)
    (done : p = [] ∨ t.isRed = true) : Ensures (setBlack s nodex) fun s' => Sound s' nodes := by
  obtain ⟨rfl, rep, rfl, short, hole⟩ := focus
  refine (setColour_rep rep false).mono fun s' rep' => ⟨_, rep', ?_, ?_⟩
  · exact inorder_fill_congr (inorder_paint ..)
  · cases colour : t.isRed with
    | true => exact hole.fill (short.1 colour) (by simp [isRed_paint])
    | false =>
      obtain rfl := done.resolve_right (by simp [colour])
      rw [fill_nil, paint_of_black colour]
      exact ⟨⟨n, short.2 colour⟩, colour⟩

private theorem removeFixup_exit (focus : RemoveFocus st.tree st.nodex nodes p t n)
    (done : p = [] ∨ t.isRed = true) :
    Ensures (removeFixup (fuel + 1) st.tree st.parent st.nodex) fun s' => Sound s' nodes := by
  rw [removeFixup_succ, removeRound_stops focus done, ok_bind]
  exact focus.blacken done

theorem removeFixup_sound (focus : RemoveFocus st.tree st.nodex nodes p t n)
    (parent : st.parent = up p) (enough : p.length < fuel) :
    Ensures (removeFixup fuel st.tree st.parent st.nodex) fun s' => Sound s' nodes := by
  induction fuel generalizing st p t n with
  | zero => omega
  | succ fuel ih =>
    by_cases done : p = [] ∨ t.isRed = true
    · exact removeFixup_exit focus done
    rw [removeFixup_succ]
    refine Ensures.bind (removeRound_goes focus parent done) ?_
    rintro next ⟨st', p', t', m, rfl, parent', focus', progress⟩
    rcases progress with done' | shorter
    · have positive : 0 < p.length := List.length_pos_of_ne_nil (not_or.mp done).1
      obtain ⟨fuel, rfl⟩ : ∃ k, fuel = k + 1 := ⟨fuel - 1, by omega⟩
      exact removeFixup_exit focus' done'
    · exact ih focus' parent' (by omega)

end OhMyOs.Libs.RedBlackTree
