/- GID: OhMyOs/Libs/RedBlackTreeInsert
   generality: I
   digest: The insertion fixup of libs/rb_tree.c ends and restores the balance. -/

import OhMyOs.Libs.RedBlackTreeOps

set_option autoImplicit false
set_option relaxedAutoImplicit false

namespace OhMyOs.Libs.RedBlackTree

open OhMyOs.Lib.Outcome
open OhMyOs.Lib.RedBlack (Side Path Frame fill up fill_cons closed Hole inorder_fill_congr)
open OhMyOs.Lib.RedBlack.Tree
open OhMyOs.Lib.LinkedTree

variable {V : Type} {s : RbTree V} {t sib uncle : Tree V} {p : Path Addr (Item V)}
  {f g : Addr} {fi gi : Item V} {fs gs : Side} {n fuel : Nat}

def Sound (s : RbTree V) (nodes : List (Addr × Item V)) : Prop :=
  ∃ t : Tree V, Rep s t ∧ t.inorder = nodes ∧ (∃ n, Balanced t n) ∧ t.isRed = false

/-- A red node and its context, as between two rounds of the insertion fixup: nothing is wrong
except that the node may be the root or the child of a red node. -/
structure InsertFocus (s : RbTree V) (nodex : Ptr) (nodes : List (Addr × Item V))
    (p : Path Addr (Item V)) (t : Tree V) (n : Nat) : Prop where
  nodex_eq : nodex = t.ptr
  rep : Rep s (fill p t)
  order : (fill p t).inorder = nodes
  red : t.isRed = true
  bal : Balanced t n
  hole : Hole p n

private theorem insertTurn_rep
    (rep : Rep s (fill p (join gs g false gi (join fs f true fi t sib) uncle)))
    (red : t.isRed = true) (bal : Balanced t n) (sibBal : Balanced sib n)
    (sibBlack : sib.isRed = false) :
    Ensures (insertTurn gs s t.ptr) fun r => ∃ (m : Addr) (mi : Item V) (low far : Tree V),
      r.2 = low.ptr ∧ low.isRed = true ∧ Balanced low n ∧ Balanced far n ∧ far.isRed = false ∧
        Rep r.1 (fill p (join gs g false gi (join gs m true mi low far) uncle)) ∧
          (join gs m true mi low far).inorder = (join fs f true fi t sib).inorder := by
  have atF : Rep s (fill (⟨gs, g, false, gi, uncle⟩ :: p) (join fs f true fi t sib)) := rep
  obtain ⟨a, x, l, r, shape⟩ := exists_join gs (ne_nil_of_isRed red)
  rw [red] at shape
  have parent := (parents_rep rep (ne_nil_of_isRed red)).1
  by_cases outer : fs = gs
  · subst outer
    have other : t.ptr ≠ sib.ptr := Linked.children_differ atF (.inl (ne_nil_of_isRed red))
    simp only [insertTurn, parent, ok_bind, childOf_other_rep atF, if_neg other, pure_eq_ok]
    exact .ok ⟨f, fi, t, sib, rfl, red, bal, sibBal, sibBlack, rep, rfl⟩
  · have inner : fs = gs.other := by
      cases fs <;> cases gs <;> simp_all [Side.other]
    subst inner
    have child : childOf s gs.other (some f) = .ok t.ptr := childOf_rep atF
    simp only [insertTurn, parent, ok_bind, child, if_true, pure_eq_ok]
    rw [shape] at bal
    obtain ⟨leftBal, rightBal, leftBlack, rightBlack⟩ := balanced_join_red.mp bal
    have turned : Rep s (fill (⟨gs, g, false, gi, uncle⟩ :: p)
        (join gs f true fi sib (join gs a true x l r))) := by
      rw [join_other, shape] at atF
      exact atF
    refine Ensures.bind (rotate_rep turned) fun s' rep' => .ok ?_
    refine ⟨a, x, join gs f true fi sib l, r, by simp, by simp, ?_, rightBal, rightBlack, rep', ?_⟩
    · exact balanced_join_red.mpr ⟨sibBal, leftBal, sibBlack, leftBlack⟩
    · rw [inorder_rotate, join_other, shape]

private theorem insertFixupSide_recolour
    (rep : Rep s (fill p (join gs g false gi (join fs f true fi t sib) uncle)))
    (red : t.isRed = true) (bal : Balanced t n) (sibBal : Balanced sib n)
    (uncleBal : Balanced uncle n) (uncleRed : uncle.isRed = true) (hole : Hole p (n + 1)) :
    Ensures (insertFixupSide gs s t.ptr) fun r => ∃ t', InsertFocus r.1 r.2
      (fill p (join gs g false gi (join fs f true fi t sib) uncle)).inorder p t' (n + 1) := by
  have nonempty := ne_nil_of_isRed red
  have step := parents_rep rep nonempty
  simp only [insertFixupSide, step.1, step.2, ok_bind, childOf_other_rep rep,
    isRed_rep (rep_far rep), uncleRed, if_true]
  refine Ensures.bind (setColour_rep (rep_far rep) false) fun s1 rep1 => ?_
  rw [fill_cons, join_other] at rep1
  simp only [(parents_rep rep1 nonempty).1, ok_bind]
  refine Ensures.bind (ptr_join fs f true fi t sib ▸ setColour_rep (rep_near rep1) false)
    fun s2 rep2 => ?_
  rw [paint_join, fill_cons] at rep2
  have step2 := parents_rep rep2 nonempty
  simp only [step2.1, step2.2, ok_bind]
  refine Ensures.bind (ptr_join gs g false gi _ _ ▸ setColour_rep rep2 true) fun s3 rep3 => ?_
  rw [paint_join] at rep3
  have step3 := parents_rep rep3 nonempty
  simp only [step3.1, step3.2, ok_bind, pure_eq_ok]
  refine .ok ⟨_, (ptr_join ..).symm, rep3, ?_, by simp, ?_, hole⟩
  · exact inorder_fill_congr (inorder_join_congr (inorder_join_congr rfl rfl) (inorder_paint ..))
  · exact balanced_join_red.mpr ⟨balanced_join_black.mpr ⟨bal, sibBal⟩,
      uncleBal.paint_black uncleRed,
      by simp, by cases uncle <;> rfl⟩

private theorem insertFixupSide_rotate
    (rep : Rep s (fill p (join gs g false gi (join fs f true fi t sib) uncle)))
    (red : t.isRed = true) (bal : Balanced t n) (sibBal : Balanced sib n)
    (sibBlack : sib.isRed = false) (uncleBal : Balanced uncle n) (uncleBlack : uncle.isRed = false)
    (hole : Hole p (n + 1)) :
    Ensures (insertFixupSide gs s t.ptr) fun r => ∃ frame t', InsertFocus r.1 r.2
      (fill p (join gs g false gi (join fs f true fi t sib) uncle)).inorder (frame :: p) t' n := by
  have step := parents_rep rep (ne_nil_of_isRed red)
  simp only [insertFixupSide, step.1, step.2, ok_bind, childOf_other_rep rep,
    isRed_rep (rep_far rep), uncleBlack, Bool.false_eq_true, if_false]
  refine Ensures.bind (insertTurn_rep rep red bal sibBal sibBlack) ?_
  rintro ⟨s1, nodex⟩ ⟨m, mi, low, far, rfl, lowRed, lowBal, farBal, farBlack, rep1, order1⟩
  have nonempty := ne_nil_of_isRed lowRed
  simp only [(parents_rep rep1 nonempty).1, ok_bind]
  refine Ensures.bind (ptr_join gs m true mi low far ▸ setColour_rep (rep_near rep1) false)
    fun s2 rep2 => ?_
  rw [paint_join, fill_cons] at rep2
  have step2 := parents_rep rep2 nonempty
  simp only [step2.1, step2.2, ok_bind]
  refine Ensures.bind (ptr_join gs g false gi _ _ ▸ setColour_rep rep2 true) fun s3 rep3 => ?_
  rw [paint_join] at rep3
  have step3 := parents_rep rep3 nonempty
  simp only [step3.1, step3.2, ok_bind, pure_eq_ok]
  -- seen from the other side the grandparent's far child is the black node
  have mirrored : Rep s3
      (fill p (join gs.other g true gi uncle (join gs.other m false mi far low))) := by
    simpa only [join_other] using rep3
  refine Ensures.bind (rotate_rep mirrored) fun s4 rep4 => .ok ?_
  simp only [join_other] at rep4
  refine ⟨⟨gs, m, false, mi, join gs g true gi far uncle⟩, low, rfl, rep4, ?_, lowRed, lowBal, ?_⟩
  · rw [fill_cons]
    refine inorder_fill_congr ?_
    have turn := inorder_rotate gs.other g m true false gi mi uncle far low
    simp only [join_other] at turn
    rw [turn]
    exact inorder_join_congr ((inorder_join_congr rfl rfl).trans order1) rfl
  · exact .black (balanced_join_red.mpr ⟨farBal, uncleBal, farBlack, uncleBlack⟩) hole

/-! ### Rounds -/

structure InsertLoop (V : Type) where
  tree : RbTree V
  nodex : Ptr

def insertRound (st : InsertLoop V) : Except Fault (Option (InsertLoop V)) := do
  if ← insertFixupGoes st.tree st.nodex then
    let parent ← parentOf st.tree st.nodex
    let side ← whichSide st.tree parent (← parentOf st.tree parent)
    let (s, nodex) ← insertFixupSide side st.tree st.nodex
    return some ⟨s, nodex⟩
  else return none

private theorem insertFixup_succ (st : InsertLoop V) :
    insertFixup (fuel + 1) st.tree st.nodex = (do
      match ← insertRound st with
      | some next => insertFixup fuel next.tree next.nodex
      | none => setBlack st.tree st.tree.root) := by
  simp only [insertFixup, insertRound, bind_assoc]
  congr
  funext goes
  cases goes with
  | false => rfl
  | true =>
    simp only [if_true, bind_assoc]
    rfl

variable {st : InsertLoop V} {nodes : List (Addr × Item V)}

theorem insertFixupGoes_stops {nodex : Ptr} (focus : InsertFocus s nodex nodes p t n)
    (done : p = [] ∨ closed p = false) : insertFixupGoes s nodex = .ok false := by
  obtain ⟨rfl, rep, rfl, red, bal, hole⟩ := focus
  cases p with
  | nil => simp [insertFixupGoes, (isRoot_rep rep).mpr rfl]
  | cons frame p =>
    have other : t.ptr ≠ s.root := fun same => by simpa using (isRoot_rep rep).mp same
    have atF : Rep s (fill p (join frame.side frame.addr frame.red frame.item t frame.sib)) := rep
    have colour := isRed_rep atF
    have black : frame.red = false := by simpa [closed] using done
    simp only [ptr_join, isRed_join, black] at colour
    simp only [insertFixupGoes, if_neg other, parentOf_ptr rep (ne_nil_of_isRed red), ok_bind, up,
      colour]

theorem insertRound_stops (focus : InsertFocus st.tree st.nodex nodes p t n)
    (done : p = [] ∨ closed p = false) : insertRound st = .ok none := by
  simp [insertRound, insertFixupGoes_stops focus done, ok_bind, pure_eq_ok]

theorem InsertFocus.grandparent {nodex : Ptr} (focus : InsertFocus s nodex nodes p t n)
    (more : ¬ (p = [] ∨ closed p = false)) :
    ∃ fs f fi sib gs g gi uncle q, p = ⟨fs, f, true, fi, sib⟩ :: ⟨gs, g, false, gi, uncle⟩ :: q ∧
      Balanced sib n ∧ sib.isRed = false ∧ Balanced uncle n ∧ Hole q (n + 1) := by
  cases focus.hole with
  | root => simp at more
  | black => simp [closed] at more
  | @red fs f fi sib p _ sibBal sibBlack rest opened =>
    cases rest with
    | root => cases opened
    | red => cases opened
    | @black gs g gi uncle q _ uncleBal hole =>
      exact ⟨fs, f, fi, sib, gs, g, gi, uncle, q, rfl, sibBal, sibBlack, uncleBal, hole⟩

theorem insertFixupGoes_goes {nodex : Ptr} (focus : InsertFocus s nodex nodes p t n)
    (more : ¬ (p = [] ∨ closed p = false)) : insertFixupGoes s nodex = .ok true := by
  obtain ⟨fs, f, fi, sib, gs, g, gi, uncle, q, rfl, -⟩ := focus.grandparent more
  obtain ⟨rfl, rep, rfl, red, bal, -⟩ := focus
  have atG : Rep s (fill q (join gs g false gi (join fs f true fi t sib) uncle)) := rep
  have other : t.ptr ≠ s.root := fun same => by simpa using (isRoot_rep rep).mp same
  have colour := isRed_rep (rep_near atG)
  simp only [ptr_join, isRed_join] at colour
  simp only [insertFixupGoes, if_neg other, (parents_rep atG (ne_nil_of_isRed red)).1, ok_bind,
    colour]

theorem insertRound_goes (focus : InsertFocus st.tree st.nodex nodes p t n)
    (more : ¬ (p = [] ∨ closed p = false)) :
    Ensures (insertRound st) fun next => ∃ st' p' t' m, next = some st' ∧
      InsertFocus st'.tree st'.nodex nodes p' t' m ∧ p'.length < p.length := by
  have goes := insertFixupGoes_goes focus more
  obtain ⟨fs, f, fi, sib, gs, g, gi, uncle, q, rfl, sibBal, sibBlack, uncleBal, hole⟩ :=
    focus.grandparent more
  obtain ⟨s, nodex⟩ := st
  obtain ⟨rfl, rep, rfl, red, bal, -⟩ := focus
  have atG : Rep s (fill q (join gs g false gi (join fs f true fi t sib) uncle)) := rep
  have step := parents_rep atG (ne_nil_of_isRed red)
  have which : whichSide s (some f) (some g) = .ok gs := by
    simpa only [ptr_join] using
      whichSide_rep atG (.inl (ne_nil_of_ptr (ptr_join fs f true fi t sib)))
  simp only [insertRound, goes, ok_bind, if_true, step.1, step.2, which]
  cases uncleColour : uncle.isRed with
  | true =>
    refine Ensures.bind (insertFixupSide_recolour atG red bal sibBal uncleBal uncleColour hole) ?_
    rintro ⟨s', nodex⟩ ⟨t', focus⟩
    exact .ok ⟨_, q, t', n + 1, rfl, focus, by simp only [List.length_cons]; omega⟩
  | false =>
    refine Ensures.bind
      (insertFixupSide_rotate atG red bal sibBal sibBlack uncleBal uncleColour hole) ?_
    rintro ⟨s', nodex⟩ ⟨frame, t', focus⟩
    exact .ok ⟨_, frame :: q, t', n, rfl, focus, by simp⟩

private theorem InsertFocus.blacken {nodex : Ptr} (focus : InsertFocus s nodex nodes p t n)
    (done : p = [] ∨ closed p = false) : Ensures (setBlack s s.root) fun s' => Sound s' nodes := by
  obtain ⟨rfl, rep, rfl, red, bal, hole⟩ := focus
  have whole : Rep s (fill [] (fill p t)) := rep
  rw [rep.root_eq]
  refine (setColour_rep whole false).mono fun s' rep' => ⟨_, rep', inorder_paint .., ?_⟩
  rcases done with rfl | opened
  · exact ⟨⟨_, bal.paint_black red⟩, by cases t <;> rfl⟩
  · obtain ⟨height, black⟩ := hole.fill bal fun _ => opened
    rw [paint_of_black black]
    exact ⟨height, black⟩

/-! ### Memory -/

def Keeps (s s' : RbTree V) : Prop := ∀ a, s.heap a = none → s'.heap a = none

private theorem Keeps.trans {s1 s2 s3 : RbTree V} (first : Keeps s1 s2) (second : Keeps s2 s3) :
    Keeps s1 s3 := fun a free => second a (first a free)

section Memory
variable {s' : RbTree V} {node parent : Ptr}

theorem store_keeps {g : RbNode V → RbNode V} (done : store s node g = .ok s') : Keeps s s' := by
  obtain ⟨n, -, done⟩ := bind_eq_ok done
  obtain rfl := Except.ok.inj done
  intro a free
  simp only [adjust]
  split
  · rw [free]
    rfl
  · exact free

private theorem setColour_keeps {red : Bool} (done : setColour red s node = .ok s') :
    Keeps s s' := by
  unfold setColour at done
  split_ifs at done
  · obtain rfl := Except.ok.inj done
    exact fun _ free => free
  · exact store_keeps done

private theorem setParent_keeps (done : setParent s node parent = .ok s') : Keeps s s' := by
  unfold setParent at done
  split_ifs at done
  · obtain rfl := Except.ok.inj done
    exact fun _ free => free
  · exact store_keeps done

private theorem rotateTop_keeps {nodey : Ptr} (done : rotateTop s node nodey = .ok s') :
    Keeps s s' := by
  unfold rotateTop at done
  split_ifs at done
  · obtain rfl := Except.ok.inj done
    exact fun _ free => free
  · obtain ⟨_, _, done⟩ := bind_eq_ok done
    obtain ⟨_, _, done⟩ := bind_eq_ok done
    exact store_keeps done

private theorem rotate_keeps {side : Side} (done : rotate side s node = .ok s') : Keeps s s' := by
  obtain ⟨_, _, done⟩ := bind_eq_ok done
  obtain ⟨_, _, done⟩ := bind_eq_ok done
  obtain ⟨s1, first, done⟩ := bind_eq_ok done
  obtain ⟨s2, second, done⟩ := bind_eq_ok done
  obtain ⟨_, _, done⟩ := bind_eq_ok done
  obtain ⟨s3, third, done⟩ := bind_eq_ok done
  obtain ⟨s4, top, done⟩ := bind_eq_ok done
  obtain ⟨s5, fourth, done⟩ := bind_eq_ok done
  have start := ((store_keeps first).trans (setParent_keeps second)).trans (store_keeps third)
  exact ((start.trans (rotateTop_keeps top)).trans (store_keeps fourth)).trans (store_keeps done)

private theorem insertTurn_keeps {side : Side} {r : RbTree V × Ptr}
    (done : insertTurn side s node = .ok r) : Keeps s r.1 := by
  obtain ⟨_, _, done⟩ := bind_eq_ok done
  obtain ⟨_, _, done⟩ := bind_eq_ok done
  split_ifs at done
  · obtain ⟨_, _, done⟩ := bind_eq_ok done
    obtain ⟨s1, turned, done⟩ := bind_eq_ok done
    obtain rfl := Except.ok.inj done
    exact rotate_keeps turned
  · obtain rfl := Except.ok.inj done
    exact fun _ free => free

private theorem insertFixupSide_keeps {side : Side} {r : RbTree V × Ptr}
    (done : insertFixupSide side s node = .ok r) : Keeps s r.1 := by
  obtain ⟨_, _, done⟩ := bind_eq_ok done
  obtain ⟨_, _, done⟩ := bind_eq_ok done
  obtain ⟨_, _, done⟩ := bind_eq_ok done
  obtain ⟨uncleRed, -, done⟩ := bind_eq_ok done
  split_ifs at done
  · obtain ⟨s1, first, done⟩ := bind_eq_ok done
    obtain ⟨_, _, done⟩ := bind_eq_ok done
    obtain ⟨s2, second, done⟩ := bind_eq_ok done
    obtain ⟨_, _, done⟩ := bind_eq_ok done
    obtain ⟨_, _, done⟩ := bind_eq_ok done
    obtain ⟨s3, third, done⟩ := bind_eq_ok done
    obtain ⟨_, _, done⟩ := bind_eq_ok done
    obtain ⟨_, _, done⟩ := bind_eq_ok done
    obtain rfl := Except.ok.inj done
    exact ((setColour_keeps first).trans (setColour_keeps second)).trans (setColour_keeps third)
  · obtain ⟨⟨s1, nodex⟩, turned, done⟩ := bind_eq_ok done
    obtain ⟨_, _, done⟩ := bind_eq_ok done
    obtain ⟨s2, second, done⟩ := bind_eq_ok done
    obtain ⟨_, _, done⟩ := bind_eq_ok done
    obtain ⟨_, _, done⟩ := bind_eq_ok done
    obtain ⟨s3, third, done⟩ := bind_eq_ok done
    obtain ⟨_, _, done⟩ := bind_eq_ok done
    obtain ⟨_, _, done⟩ := bind_eq_ok done
    obtain ⟨s4, top, done⟩ := bind_eq_ok done
    obtain rfl := Except.ok.inj done
    have start := (insertTurn_keeps turned).trans (setColour_keeps second)
    exact (start.trans (setColour_keeps third)).trans (rotate_keeps top)

theorem insertFixup_keeps (done : insertFixup fuel s node = .ok s') : Keeps s s' := by
  induction fuel generalizing s node with
  | zero => cases done
  | succ fuel ih =>
    rw [insertFixup_succ ⟨s, node⟩] at done
    obtain ⟨next, round, done⟩ := bind_eq_ok done
    cases next with
    | none => exact setColour_keeps done
    | some st' =>
      obtain ⟨goes, -, round⟩ := bind_eq_ok round
      split_ifs at round
      · obtain ⟨_, _, round⟩ := bind_eq_ok round
        obtain ⟨_, _, round⟩ := bind_eq_ok round
        obtain ⟨_, _, round⟩ := bind_eq_ok round
        obtain ⟨r, body, round⟩ := bind_eq_ok round
        obtain rfl := Option.some.inj (Except.ok.inj round)
        exact (insertFixupSide_keeps body).trans (ih done)
      · cases round

end Memory

/-! ### The whole loop -/

theorem insertFixup_sound (st : InsertLoop V)
    (focus : InsertFocus st.tree st.nodex nodes p t n) (enough : p.length < fuel) :
    Ensures (insertFixup fuel st.tree st.nodex) fun s' => Sound s' nodes := by
  induction fuel generalizing st p t n with
  | zero => omega
  | succ fuel ih =>
    rw [insertFixup_succ]
    by_cases done : p = [] ∨ closed p = false
    · rw [insertRound_stops focus done, ok_bind]
      exact focus.blacken done
    · refine Ensures.bind (insertRound_goes focus done) ?_
      rintro next ⟨st', p', t', m, rfl, focus', shorter⟩
      exact ih st' focus' (by omega)

end OhMyOs.Libs.RedBlackTree
