/- GID: OhMyOs/Libs/RedBlackTreeCalls
   generality: I
   digest: What the calls of libs/rb_tree.c do to the ordered list of stored nodes. -/

import OhMyOs.Libs.RedBlackTreeReads
import OhMyOs.Libs.RedBlackTreeRemove

set_option autoImplicit false
set_option relaxedAutoImplicit false

namespace OhMyOs.Libs.RedBlackTree

open OhMyOs.Include.Constants
open OhMyOs.Lib.Outcome
open OhMyOs.Lib.RedBlack (Side Path Frame fill up sideOf pathAddrs closed Hole fill_cons fill_append
  before after before_append after_append inorder_fill mem_addrs_fill length_le_pathAddrs
  nodup_fill exists_path up_nil mem_pathAddrs_of_up)
open OhMyOs.Lib.RedBlack.Tree
open OhMyOs.Lib.LinkedTree

variable {V : Type} {s : RbTree V} {t l r : Tree V} {p q : Path Addr (Item V)} {a z : Addr}
  {c : Bool} {x : Item V} {nodes : List (Addr × Item V)} {start stop : Nat}

/-- The state holds a red-black tree whose nodes, from left to right, are the given ones, and
their intervals are ordered. -/
structure Holds (s : RbTree V) (nodes : List (Addr × Item V)) : Prop where
  sound : Sound s nodes
  sorted : Sorted nodes

private theorem rep_allocated (rep : Rep s t) (free : s.heap a = none) : a ∉ t.addrs := by
  intro member
  obtain ⟨⟨b, y⟩, inTree, rfl⟩ := List.mem_map.mp member
  obtain ⟨n, cell, -⟩ := rep.shows.cell_of_mem inTree
  simp [free] at cell

private theorem path_lt_loopFuel (nodup : (fill p t).addrs.Nodup) : p.length < loopFuel := by
  have short := length_le_pathAddrs p
  have bound := (nodup_fill.mp nodup).2.1.length_le_card
  rw [Fintype.card_fin] at bound
  unfold loopFuel
  omega

/-! ### Search and iteration -/

theorem holds_empty : Holds (⟨fun _ => none, 0, none⟩ : RbTree V) [] := by
  have empty : Linked (fun _ => none) none (.nil : Tree V) := ⟨trivial, by simp [addrs_nil], rfl⟩
  exact ⟨⟨.nil, empty, rfl, ⟨0, .nil⟩, rfl⟩, by simp [Sorted]⟩

theorem rbTreeSearch_holds (holds : Holds s nodes) (key : Nat) :
    rbTreeSearch (some s) key = .ok ((nodes.find? (covers key)).map Prod.fst) := by
  obtain ⟨⟨t, rep, rfl, -, -⟩, sorted⟩ := holds
  rw [rbTreeSearch, rep.root_eq]
  exact searchFrom_shows key rep.shows sorted (length_lt_loopFuel rep.nodup)

theorem rbTreeIterate_holds {σ : Type} (holds : Holds s nodes) (callback : Ptr → σ → Int × σ)
    (priv : σ) :
    rbTreeIterate (some s) callback priv = .ok (visit callback (nodes.map Prod.fst) priv) := by
  obtain ⟨⟨t, rep, rfl, -, -⟩, -⟩ := holds
  rw [rbTreeIterate, rep.root_eq]
  exact treeIterate_shows callback priv rep.shows (length_lt_loopFuel rep.nodup)

/-! ### Insertion -/

private theorem insertLink_rep {value : V} (rep : Rep s (fill q .nil)) (free : s.heap a = none)
    (sorted : Sorted (fill q (OhMyOs.Lib.RedBlack.Tree.nil : Tree V)).inorder)
    (left : ∀ u ∈ before q, u.2.stop < start) (right : ∀ u ∈ after q, stop < u.2.start)
    (valid : start ≤ stop) :
    Ensures (insertLink (insertNode s start stop value (up q) a) (up q) (some a)) fun r =>
      ∃ s', r = some s' ∧
        Rep s' (fill q (.node a true ⟨s.total, start, stop, value⟩ .nil .nil)) := by
  have fresh : a ∉ pathAddrs q := fun member =>
    rep_allocated rep free (mem_addrs_fill.mpr (.inr member))
  have planted := Linked.plant rep fresh
    (newRoot_eq (.node a true ⟨s.total, start, stop, value⟩ .nil .nil) rep.root_eq)
  obtain ⟨⟨path, -⟩, -, -⟩ := linked_fill.mp rep
  cases q with
  | nil =>
    refine .ok ⟨_, rfl, ?_⟩
    simpa [Rep, insertNode, up, adjust_none, newRoot] using planted
  | cons f q =>
    have differ : f.addr ≠ a := fun same => fresh (by simp [pathAddrs, same])
    have newCell : (insertNode s start stop value (some f.addr) a).heap a =
        some ⟨⟨s.total, start, stop, value⟩, true, some f.addr, none, none⟩ := by
      simp [insertNode]
    have cell : (insertNode s start stop value (some f.addr) a).heap f.addr =
        some (Cell.make f.side f.item f.red (up q) none f.sib.ptr) := by
      simpa [insertNode, Function.update_of_ne differ] using path.1
    simp only [insertLink, up, Option.isNone_some, Bool.false_eq_true, if_false, load_some newCell,
      load_some cell, ok_bind, Cell.make_item, store_live (live_some cell)]
    cases side : f.side with
    | left =>
      have below : stop < f.item.start := right (f.addr, f.item) (by simp [after, side])
      simp only [if_pos below, pure_eq_ok]
      refine .ok ⟨_, rfl, ?_⟩
      simpa [Rep, insertNode, up, newRoot, sideOf, side] using planted
    | right =>
      have member : (f.addr, f.item) ∈ before (f :: q) := by simp [before, side]
      have above : f.item.stop < start := left _ member
      have ordered : f.item.start ≤ f.item.stop :=
        sorted.2 (f.addr, f.item) (by simp [inorder_fill, member])
      have notBelow : ¬ stop < f.item.start := by omega
      simp only [if_neg notBelow, if_pos above, pure_eq_ok]
      refine .ok ⟨_, rfl, ?_⟩
      simpa [Rep, insertNode, up, newRoot, sideOf, side] using planted

theorem insertLink_focus (value : V) {m : Nat} (rep : Rep s (fill q .nil)) (free : s.heap a = none)
    (sorted : Sorted (fill q (OhMyOs.Lib.RedBlack.Tree.nil : Tree V)).inorder)
    (left : ∀ u ∈ before q, u.2.stop < start) (right : ∀ u ∈ after q, stop < u.2.start)
    (valid : start ≤ stop) (bal : Balanced (fill q (OhMyOs.Lib.RedBlack.Tree.nil : Tree V)) m)
    (black : (fill q (OhMyOs.Lib.RedBlack.Tree.nil : Tree V)).isRed = false) :
    Ensures (insertLink (insertNode s start stop value (up q) a) (up q) (some a)) fun r =>
      ∃ s', r = some s' ∧ InsertFocus s' (some a)
        (before q ++ (a, ⟨s.total, start, stop, value⟩) :: after q) q
        (.node a true ⟨s.total, start, stop, value⟩ .nil .nil) 0 := by
  obtain ⟨n, leafBal, hole, -⟩ := Hole.of_fill bal black
  obtain rfl : n = 0 := by
    cases leafBal
    rfl
  refine (insertLink_rep rep free sorted left right valid).mono ?_
  rintro r ⟨s', rfl, rep'⟩
  refine ⟨s', rfl, rfl, rep', ?_, rfl, .red .nil .nil rfl rfl, hole⟩
  simp [inorder_fill, inorder]

private theorem sorted_insert {pre post : List (Addr × Item V)} {u : Addr × Item V}
    (sorted : Sorted (pre ++ post)) (left : ∀ v ∈ pre, v.2.stop < u.2.start)
    (right : ∀ v ∈ post, u.2.stop < v.2.start) (valid : u.2.start ≤ u.2.stop) :
    Sorted (pre ++ u :: post) := by
  obtain ⟨order, all⟩ := sorted
  simp only [Sorted, List.pairwise_append, List.pairwise_cons, List.mem_append, List.mem_cons]
    at order all ⊢
  obtain ⟨orderPre, orderPost, across⟩ := order
  refine ⟨⟨orderPre, ⟨right, orderPost⟩, fun v inPre w member => ?_⟩, ?_⟩
  · rcases member with rfl | inPost
    · exact left v inPre
    · exact across v inPre w inPost
  · rintro v (inPre | rfl | inPost)
    · exact all v (.inl inPre)
    · exact valid
    · exact all v (.inr inPost)

inductive Inserted (s : RbTree V) (nodes : List (Addr × Item V)) (start stop : Nat) (value : V)
    (newNode : Ptr) : Option (RbTree V) × Ptr → Prop
  | failed (cause : stop < start ∨ (∃ u ∈ nodes, overlaps start stop u = true) ∨ newNode = none) :
      Inserted s nodes start stop value newNode (some s, none)
  | done {s' : RbTree V} {a : Addr} {pre post : List (Addr × Item V)} (valid : start ≤ stop)
      (apart : ∀ u ∈ nodes, overlaps start stop u = false) (allocated : newNode = some a)
      (split : nodes = pre ++ post)
      (holds : Holds s' (pre ++ (a, ⟨s.total, start, stop, value⟩) :: post)) :
      Inserted s nodes start stop value newNode (some s', some a)

theorem rbTreeInsert_holds (holds : Holds s nodes) (start stop : Nat) (value : V) (newNode : Ptr)
    (free : ∀ a, newNode = some a → s.heap a = none) :
    Ensures (rbTreeInsert (some s) start stop value newNode)
      (Inserted s nodes start stop value newNode) := by
  obtain ⟨⟨t, rep, rfl, ⟨n, bal⟩, black⟩, sorted⟩ := holds
  by_cases reversed : start > stop
  · simp only [rbTreeInsert, if_pos reversed]
    exact .ok (.failed (.inl reversed))
  simp only [rbTreeInsert, if_neg reversed, rep.root_eq]
  have start' : Rep s (fill [] t) := rep
  have place := insertPlace_rep start stop start' sorted (by simp [before])
    (by simp [after]) (length_lt_loopFuel rep.nodup)
  rcases place with ⟨place, overlap⟩ | ⟨q, shape, place, left, right⟩
  · rw [up_nil] at place
    simp only [place, ok_bind]
    exact .ok (.failed (.inr (.inl overlap)))
  · rw [up_nil] at place
    simp only [place, ok_bind]
    cases newNode with
    | none => exact .ok (.failed (.inr (.inr rfl)))
    | some a =>
      obtain rfl : t = fill q .nil := shape
      have valid : start ≤ stop := by omega
      refine Ensures.bind
        (insertLink_focus value rep (free a rfl) sorted left right valid bal black) ?_
      rintro r ⟨s1, rfl, focus⟩
      refine Ensures.bind (insertFixup_sound ⟨s1, some a⟩ focus
        (path_lt_loopFuel focus.rep.nodup)) fun s2 sound => ?_
      have old : (fill q (OhMyOs.Lib.RedBlack.Tree.nil : Tree V)).inorder =
          before q ++ after q := by
        simp [inorder_fill, inorder]
      have sorted2 : Sorted (before q ++ (a, ⟨s.total, start, stop, value⟩) :: after q) :=
        sorted_insert (old ▸ sorted) left right valid
      simp only [rbTreeValidate_sound sound sorted2, ok_bind]
      refine .ok (.done valid ?_ rfl old ⟨sound, sorted2⟩)
      intro u member
      rw [old, List.mem_append] at member
      rcases member with inLeft | inRight
      · have := left u inLeft
        simp [overlaps]
        omega
      · have := right u inRight
        simp [overlaps]
        omega

private theorem insertLink_keeps {s' : RbTree V} {parent newNode : Ptr}
    (done : insertLink s parent newNode = .ok (some s')) : Keeps s s' := by
  unfold insertLink at done
  split_ifs at done
  · obtain rfl := Option.some.inj (Except.ok.inj done)
    exact fun _ free => free
  · obtain ⟨n, _, done⟩ := bind_eq_ok done
    obtain ⟨p, _, done⟩ := bind_eq_ok done
    split_ifs at done
    · obtain ⟨s1, stored, done⟩ := bind_eq_ok done
      obtain rfl := Option.some.inj (Except.ok.inj done)
      exact store_keeps stored
    · obtain ⟨s1, stored, done⟩ := bind_eq_ok done
      obtain rfl := Option.some.inj (Except.ok.inj done)
      exact store_keeps stored
    · cases done

theorem rbTreeInsert_keeps {s' : RbTree V} {value : V} {node : Ptr} {b : Addr}
    (done : rbTreeInsert (some s) start stop value (some a) = .ok (some s', node)) (other : b ≠ a)
    (free : s.heap b = none) : s'.heap b = none := by
  simp only [rbTreeInsert] at done
  split_ifs at done
  · cases done
    exact free
  · obtain ⟨place, _, done⟩ := bind_eq_ok done
    cases place with
    | none =>
      cases done
      exact free
    | some parent =>
      have planted : (insertNode s start stop value parent a).heap b = none := by
        simpa [insertNode, Function.update_of_ne other] using free
      obtain ⟨linked, link, done⟩ := bind_eq_ok done
      cases linked with
      | none =>
        cases done
        simpa [kfree, Function.update_of_ne other] using planted
      | some s1 =>
        obtain ⟨s2, fixed, done⟩ := bind_eq_ok done
        obtain ⟨_, _, done⟩ := bind_eq_ok done
        cases done
        exact insertFixup_keeps fixed b (insertLink_keeps link b planted)

/-! ### Removal -/

private theorem unlinkNode_rep (rep : Rep s (fill p (.node a c x l r))) (child : t = l ∨ t = r) :
    Ensures (unlinkNode s (some a) t.ptr) fun s' =>
      Rep s' (fill p t) ∧ s'.heap a = some ⟨x, c, up p, l.ptr, r.ptr⟩ := by
  obtain ⟨⟨path, cell, leftShown, rightShown⟩, ⟨nodup, -, apart⟩, -⟩ := linked_fill.mp rep
  obtain ⟨⟨aLeft, aRight⟩, leftNodup, rightNodup, -⟩ := nodup_node.mp nodup
  have aPath : a ∉ pathAddrs p := apart (by simp [addrs_node])
  have shown : Shows s.heap (some a) t := by
    rcases child with rfl | rfl
    · exact leftShown
    · exact rightShown
  have childNodup : t.addrs.Nodup := by
    rcases child with rfl | rfl
    · exact leftNodup
    · exact rightNodup
  have sub : t.addrs ⊆ (OhMyOs.Lib.RedBlack.Tree.node a c x l r).addrs := by
    intro b member
    rcases child with rfl | rfl <;> simp [addrs_node, member]
  have notSelf : t.ptr ≠ some a := by
    rcases child with rfl | rfl
    · exact fun same => aLeft (mem_addrs_of_ptr same)
    · exact fun same => aRight (mem_addrs_of_ptr same)
  have live : t.ptr = none ∨ Live s.heap t.ptr := by
    cases t with
    | nil => exact .inl rfl
    | node b c' y ll lr => exact .inr (live_some shown.1)
  have cell1 : adjust s.heap t.ptr (Cell.setParent (up p)) a = some ⟨x, c, up p, l.ptr, r.ptr⟩ := by
    rw [adjust_of_ne notSelf, cell]
  have path1 : PathShows (adjust s.heap t.ptr (Cell.setParent (up p))) p (some a) :=
    path.adjust (clear_ptr fun b member => apart (sub member))
  simp only [unlinkNode, parentOf, load_some cell, ok_bind, pure_eq_ok, setParent_eq live]
  simp only [load, Option.bind_some, cell1, ok_bind]
  rw [attach_path path1 aPath]
  refine .ok ⟨Linked.transplant rep shown childNodup sub (newRoot_eq t rep.root_eq), ?_⟩
  exact (adjust_of_ne fun same => aPath (mem_pathAddrs_of_up same)).trans cell1

private theorem replaceNode_rep {y : Addr} {n : RbNode V} (rep : Rep s (fill p (.node z c x l r)))
    (cell : s.heap y = some n) (outside : y ∉ (fill p (.node z c x l r)).addrs) :
    Ensures (replaceNode s (some z) (some y)) fun s' => Rep s' (fill p (.node y c n.item l r)) := by
  obtain ⟨⟨path, zCell, -, -⟩, ⟨nodup, -, apart⟩, -⟩ := linked_fill.mp rep
  obtain ⟨⟨zLeft, zRight⟩, -, -, -⟩ := nodup_node.mp nodup
  have zPath : z ∉ pathAddrs p := apart (by simp [addrs_node])
  have yPath : y ∉ pathAddrs p := fun member => outside (mem_addrs_fill.mpr (.inr member))
  have notY : some y ≠ some z := fun same => outside (by
    obtain rfl := Option.some.inj same
    simp [mem_addrs_fill, addrs_node])
  have notUp : up p ≠ some z := fun same => zPath (mem_pathAddrs_of_up same)
  have notLeft : l.ptr ≠ some z := fun same => zLeft (mem_addrs_of_ptr same)
  have liveLeft := live_rep (p := ⟨.left, z, c, x, r⟩ :: p) (t := l) rep
  have liveRight := live_rep (p := ⟨.right, z, c, x, l⟩ :: p) (t := r) rep
  -- the removed node is read all along and never written
  have keeps : ∀ {h : Heap Addr (Item V)} {q : Ptr} {g : RbNode V → RbNode V}, q ≠ some z →
      h z = some ⟨x, c, up p, l.ptr, r.ptr⟩ →
        adjust h q g z = some ⟨x, c, up p, l.ptr, r.ptr⟩ :=
    fun differ same => (adjust_of_ne differ).trans same
  let s1 : RbTree V := { s with heap := adjust s.heap (some y) (Cell.setParent (up p)) }
  let s2 : RbTree V := { s1 with heap := adjust s1.heap (up p) (Cell.setChild (sideOf p) (some y))
                                 root := newRoot p (some y) s.root }
  let s3 : RbTree V := { s2 with heap := adjust s2.heap (some y) (Cell.setRed c) }
  let s4 : RbTree V := { s3 with heap := adjust s3.heap (some y) (Cell.setChild .left l.ptr) }
  let s5 : RbTree V := { s4 with heap := adjust s4.heap (some y) (Cell.setChild .right r.ptr) }
  let s6 : RbTree V := { s5 with heap := adjust s5.heap l.ptr (Cell.setParent (some y)) }
  have z1 : s1.heap z = _ := keeps notY zCell
  have z2 : s2.heap z = _ := keeps notUp z1
  have z3 : s3.heap z = _ := keeps notY z2
  have z4 : s4.heap z = _ := keeps notY z3
  have z5 : s5.heap z = _ := keeps notY z4
  have z6 : s6.heap z = _ := keeps notLeft z5
  have live1 : Live s1.heap (some y) := live_adjust (live_some cell)
  have step1 : store s (some y) (Cell.setParent (up p)) = .ok s1 := store_live (live_some cell)
  have step2 : attach s1 (up p) (some z) (some y) = .ok s2 :=
    attach_path (path.adjust (clear_some yPath)) zPath
  have step3 : store s2 (some y) (Cell.setRed c) = .ok s3 := store_live (live_adjust live1)
  have step4 : store s3 (some y) (Cell.setChild .left l.ptr) = .ok s4 :=
    store_live (live_adjust (live_adjust live1))
  have step5 : store s4 (some y) (Cell.setChild .right r.ptr) = .ok s5 :=
    store_live (live_adjust (live_adjust (live_adjust live1)))
  have carry : ∀ {q : Ptr}, q = none ∨ Live s.heap q → q = none ∨ Live s5.heap q :=
    fun live => live.imp id fun live =>
      live_adjust (live_adjust (live_adjust (live_adjust (live_adjust live))))
  have step6 : setParent s5 l.ptr (some y) = .ok s6 := setParent_eq (carry liveLeft)
  have step7 := setParent_eq (s := s6) (q := some y) ((carry liveRight).imp id live_adjust)
  simp only [replaceNode, parentOf, childOf, load_some zCell, load_some z1, load_some z2,
    load_some z3, load_some z4, load_some z5, load_some z6, ok_bind, pure_eq_ok,
    step1, step2, step3,
    step4, step5, step6, step7, Cell.child]
  exact .ok (Linked.supplant rep cell outside (newRoot_eq (.node y c n.item l r) rep.root_eq))

/-- The part of `rb_tree_remove` before the fixup: whether there is one, and what it starts with. -/
def removeDetach (s : RbTree V) (nodez : Ptr) : Except Fault (Bool × RemoveLoop V) := do
  let nodey ← removeTarget s nodez
  let y ← load s nodey
  let nodex := if y.left.isSome then y.left else y.right
  let s ← unlinkNode s nodey nodex
  let fixup ← isBlack s nodey
  let (s, nodexParent) ← removeReplace s nodez nodey
  return (fixup, ⟨s, nodexParent, nodex⟩)

theorem removeNode_eq (s : RbTree V) (nodez : Ptr) :
    removeNode s nodez = (do
      let (fixup, st) ← removeDetach s nodez
      let s ← (if fixup then removeFixup loopFuel st.tree st.parent st.nodex else .ok st.tree)
      rbTreeValidate (kfree s nodez)
      return kfree s nodez) := by
  simp only [removeNode, removeDetach, bind_assoc]
  rfl

structure Detached (nodes : List (Addr × Item V)) (r : Bool × RemoveLoop V) : Prop where
  sound : r.1 = false → Sound r.2.tree nodes
  focus : r.1 = true → ∃ q t n, r.2.parent = up q ∧ RemoveFocus r.2.tree r.2.nodex nodes q t n

private theorem detached_child {m : Nat} (rep : Rep s (fill q t))
    (bal : Balanced (.node a c x l r : Tree V) m) (child : t = l ∨ t = r) (hole : Hole q m) :
    Detached (fill q t).inorder (!c, ⟨s, up q, t.ptr⟩) := by
  cases bal with
  | red leftBal rightBal leftBlack rightBlack =>
    have filled := hole.fill (t := t) (by rcases child with rfl | rfl <;> assumption)
      (by rcases child with rfl | rfl <;> simp_all)
    exact ⟨fun _ => ⟨_, rep, rfl, filled⟩, fun fixup => nomatch fixup⟩
  | @black _ _ _ _ n leftBal rightBal =>
    have childBal : Balanced t n := by rcases child with rfl | rfl <;> assumption
    refine ⟨fun fixup => (nomatch fixup), fun _ => ⟨q, t, n, rfl, rfl, rep, rfl, ?_, hole⟩⟩
    exact ⟨childBal.paint_black, fun _ => childBal⟩

private theorem Detached.fixup {r : Bool × RemoveLoop V} (detached : Detached nodes r) :
    Ensures (if r.1 then removeFixup loopFuel r.2.tree r.2.parent r.2.nodex else .ok r.2.tree)
      fun s' => Sound s' nodes := by
  obtain ⟨fixup, st⟩ := r
  cases fixup with
  | false => exact .ok (detached.sound rfl)
  | true =>
    obtain ⟨q, t, n, parent, focus⟩ := detached.focus rfl
    exact removeFixup_sound focus parent (path_lt_loopFuel focus.rep.nodup)

private theorem removeFinish_holds (sound : Sound s nodes) (sorted : Sorted nodes)
    (gone : z ∉ nodes.map Prod.fst) :
    Ensures (do rbTreeValidate (kfree s (some z)); return kfree s (some z)) fun s' =>
      Holds s' nodes := by
  obtain ⟨t, rep, rfl, balanced⟩ := sound
  have freed : Sound (kfree s (some z)) t.inorder := ⟨t, Linked.drop rep gone, rfl, balanced⟩
  simp only [rbTreeValidate_sound freed sorted, ok_bind]
  exact .ok ⟨freed, sorted⟩

private theorem isBlack_cell {y : Addr} {n : RbNode V} (cell : s.heap y = some n) :
    isBlack s (some y) = .ok (!n.red) := by
  simp [isBlack, RedBlackTree.isRed, load_some cell, ok_bind, pure_eq_ok]

private theorem removeDetach_direct (rep : Rep s (fill p (.node z c x l r))) {m : Nat}
    (bal : Balanced (.node z c x l r : Tree V) m) (hole : Hole p m) (single : l = .nil ∨ r = .nil) :
    Ensures (removeDetach s (some z))
      (Detached (before p ++ (l.inorder ++ (r.inorder ++ after p)))) := by
  obtain ⟨t, child, nodex, order⟩ : ∃ t : Tree V, (t = l ∨ t = r) ∧
      (if l.ptr.isSome then l.ptr else r.ptr) = t.ptr ∧ t.inorder = l.inorder ++ r.inorder := by
    rcases single with rfl | rfl
    · exact ⟨r, .inr rfl, rfl, rfl⟩
    · refine ⟨l, .inl rfl, ?_, by simp [inorder]⟩
      cases l <;> rfl
  have target : removeTarget s (some z) = .ok (some z) := by
    rcases single with rfl | rfl <;>
      simp [removeTarget, load_node rep, ok_bind, pure_eq_ok]
  simp only [removeDetach, target, ok_bind, load_node rep, nodex]
  refine Ensures.bind (unlinkNode_rep rep child) ?_
  rintro s1 ⟨rep1, cell⟩
  have replace : removeReplace s1 (some z) (some z) = .ok (s1, up p) := by
    simp [removeReplace, parentOf, load_some cell, ok_bind, pure_eq_ok]
  simp only [isBlack_cell cell, ok_bind, replace, pure_eq_ok]
  have detached := detached_child rep1 bal child hole
  rw [inorder_fill, order] at detached
  simp only [List.append_assoc] at detached
  exact .ok detached

private theorem removeDetach_successor (rep : Rep s (fill p (.node z c x l r))) {m : Nat}
    (whole : Balanced (fill p (.node z c x l r)) m)
    (black : (fill p (.node z c x l r)).isRed = false) (leftChild : l ≠ .nil)
    (rightChild : r ≠ .nil) :
    Ensures (removeDetach s (some z))
      (Detached (before p ++ (l.inorder ++ (r.inorder ++ after p)))) := by
  obtain ⟨⟨-, -, -, rightShown⟩, ⟨nodup, -, -⟩, -⟩ := linked_fill.mp rep
  obtain ⟨⟨-, zRight⟩, -, rightNodup, -⟩ := nodup_node.mp nodup
  obtain ⟨q, y, cy, yi, ry, rfl, left, walk⟩ :=
    leftmost_shows rightShown rightChild (length_lt_loopFuel rightNodup)
  have target : removeTarget s (some z) = .ok (some y) := by
    simp only [removeTarget, load_node rep, ok_bind, ptr_isNone leftChild, ptr_isNone rightChild,
      Bool.or_self, Bool.false_eq_true, if_false, walk]
  have atY : Rep s (fill (q ++ ⟨.right, z, c, x, l⟩ :: p) (.node y cy yi .nil ry)) := by
    rw [fill_append]
    exact rep
  have outside : y ∉ (fill (q ++ ⟨.right, z, c, x, l⟩ :: p) ry).addrs := by
    obtain ⟨-, ⟨nodupY, -, apart⟩, -⟩ := linked_fill.mp atY
    intro member
    rcases mem_addrs_fill.mp member with inTree | onPath
    · exact (nodup_node.mp nodupY).1.2 inTree
    · exact apart (by simp [addrs_node]) onPath
  have differ : y ≠ z := fun same => zRight (by simp [← same, mem_addrs_fill, addrs_node])
  -- the successor's parent is the replaced node only if there is nothing between them
  have nodexParent : (if up (q ++ ⟨.right, z, c, x, l⟩ :: p) = some z then some y
      else up (q ++ ⟨.right, z, c, x, l⟩ :: p)) = up (q ++ ⟨.right, y, c, yi, l⟩ :: p) := by
    cases q with
    | nil => simp [up]
    | cons g q =>
      have other : g.addr ≠ z := fun same => zRight (by simp [← same, mem_addrs_fill, pathAddrs])
      simp [up, other]
  obtain ⟨n, bal, hole, -⟩ := Hole.of_fill (p := q ++ ⟨.right, z, c, x, l⟩ :: p)
    (by rw [fill_append]; exact whole) (by rw [fill_append]; exact black)
  simp only [removeDetach, target, ok_bind, load_node atY]
  refine Ensures.bind (unlinkNode_rep (t := ry) atY (.inr rfl)) ?_
  rintro s1 ⟨rep1, cell⟩
  rw [fill_append] at outside
  have atZ : Rep s1 (fill p (.node z c x l (fill q ry))) := by
    rw [fill_append] at rep1
    exact rep1
  have replaced : Ensures (removeReplace s1 (some z) (some y)) fun r =>
      r.2 = up (q ++ ⟨.right, y, c, yi, l⟩ :: p) ∧
        Rep r.1 (fill (q ++ ⟨.right, y, c, yi, l⟩ :: p) ry) := by
    simp only [removeReplace, parentOf, load_some cell, ok_bind, pure_eq_ok, ne_eq,
      Option.some.injEq, differ, not_false_eq_true, if_true, nodexParent]
    refine Ensures.bind (replaceNode_rep atZ cell outside) fun s2 rep2 => .ok ⟨rfl, ?_⟩
    rw [fill_append]
    exact rep2
  simp only [isBlack_cell cell, ok_bind]
  refine Ensures.bind replaced ?_
  rintro ⟨s2, parent⟩ ⟨rfl, rep2⟩
  have detached := detached_child rep2 bal (.inr rfl) hole.rename
  have order : (fill (q ++ ⟨.right, y, c, yi, l⟩ :: p) ry).inorder =
      before p ++ (l.inorder ++ ((fill q (.node y cy yi .nil ry)).inorder ++ after p)) := by
    simp [inorder_fill, before_append, after_append, before, after, left, inorder]
  rw [order] at detached
  exact .ok detached

private theorem filter_split {pre post : List (Addr × Item V)}
    (nodup : ((pre ++ (z, x) :: post).map Prod.fst).Nodup) :
    (pre ++ (z, x) :: post).filter (fun u => u.1 ≠ z) = pre ++ post := by
  simp only [List.map_append, List.map_cons, List.nodup_middle, List.nodup_cons, List.mem_append,
    List.mem_map, not_or, not_exists, not_and] at nodup
  obtain ⟨⟨outPre, outPost⟩, -⟩ := nodup
  rw [List.filter_append, List.filter_cons_of_neg (by simp),
    List.filter_eq_self.mpr (by simpa using outPre),
    List.filter_eq_self.mpr (by simpa using outPost)]

theorem removeDetach_holds {pre post : List (Addr × Item V)}
    (holds : Holds s (pre ++ (z, x) :: post)) :
    Ensures (removeDetach s (some z)) (Detached (pre ++ post)) := by
  obtain ⟨⟨t, rep, order, ⟨m, whole⟩, black⟩, -⟩ := holds
  have nodup : ((pre ++ (z, x) :: post).map Prod.fst).Nodup := order ▸ rep.nodup
  obtain ⟨p, c, x', l, r, rfl⟩ := exists_path (show z ∈ t.addrs by simp [addrs, order])
  have inside : (fill p (.node z c x' l r)).inorder =
      (before p ++ l.inorder) ++ (z, x') :: (r.inorder ++ after p) := by
    simp [inorder_fill, inorder]
  have same : pre ++ post = before p ++ (l.inorder ++ (r.inorder ++ after p)) := by
    have this := filter_split nodup
    rw [← order, inside] at this nodup
    rw [← this, filter_split nodup, List.append_assoc]
  rw [same]
  by_cases single : l = .nil ∨ r = .nil
  · obtain ⟨n, bal, hole, -⟩ := Hole.of_fill whole black
    exact removeDetach_direct rep bal hole single
  · obtain ⟨leftChild, rightChild⟩ := not_or.mp single
    exact removeDetach_successor rep whole black leftChild rightChild

private theorem Holds.nodup (holds : Holds s nodes) : (nodes.map Prod.fst).Nodup := by
  obtain ⟨⟨t, rep, rfl, -⟩, -⟩ := holds
  exact rep.nodup

private theorem removeNode_holds {pre post : List (Addr × Item V)}
    (holds : Holds s (pre ++ (z, x) :: post)) :
    Ensures (removeNode s (some z)) fun s' => Holds s' (pre ++ post) := by
  have sorted : Sorted (pre ++ post) := by
    have sub : (pre ++ post).Sublist (pre ++ (z, x) :: post) :=
      (List.Sublist.refl pre).append (List.sublist_cons_self _ _)
    exact ⟨holds.sorted.1.sublist sub, fun u member => holds.sorted.2 u (sub.subset member)⟩
  have gone : z ∉ (pre ++ post).map Prod.fst := by
    have nodup := holds.nodup
    simp only [List.map_append, List.map_cons, List.nodup_middle, List.nodup_cons] at nodup
    simpa using nodup.1
  rw [removeNode_eq]
  refine Ensures.bind (removeDetach_holds holds) fun r detached => ?_
  exact Ensures.bind detached.fixup fun s' sound => removeFinish_holds sound sorted gone

inductive Removed (s : RbTree V) (nodes : List (Addr × Item V)) (key : Nat) :
    Option (RbTree V) × Int → Prop
  | failed (missing : ∀ u ∈ nodes, covers key u = false) : Removed s nodes key (some s, -einval)
  | done {s' : RbTree V} {u : Addr × Item V} {pre post : List (Addr × Item V)}
      (split : nodes = pre ++ u :: post) (found : covers key u = true)
      (holds : Holds s' (pre ++ post)) : Removed s nodes key (some s', 0)

theorem rbTreeRemove_holds (holds : Holds s nodes) (key : Nat) :
    Ensures (rbTreeRemove (some s) key) (Removed s nodes key) := by
  have search := rbTreeSearch_holds holds key
  rw [rbTreeSearch] at search
  simp only [rbTreeRemove, search, ok_bind]
  cases found : nodes.find? (covers key) with
  | none =>
    refine .ok (.failed fun u member => ?_)
    simpa using List.find?_eq_none.mp found u member
  | some u =>
    obtain ⟨cover, pre, post, rfl, -⟩ := List.find?_eq_some_iff_append.mp found
    simp only [Option.map_some, Option.isNone_some, Bool.false_eq_true, if_false]
    refine Ensures.bind (removeNode_holds holds) fun s' holds' => ?_
    exact .ok (.done rfl cover holds')

theorem Holds.remove_inserted {value : V} {newNode : Ptr} {r : Option (RbTree V) × Ptr}
    (holds : Holds s nodes) (missing : ∀ u ∈ nodes, covers start u = false)
    (inserted : Inserted s nodes start stop value newNode r) :
    ∃ s' ret, rbTreeRemove r.1 start = .ok (some s', ret) ∧ Holds s' nodes := by
  cases inserted with
  | failed cause =>
    obtain ⟨r, call, removed⟩ := rbTreeRemove_holds holds start
    cases removed with
    | failed _ => exact ⟨s, -einval, call, holds⟩
    | @done s' u pre post split found _ =>
      have absent := missing u (by simp [split])
      rw [found] at absent
      cases absent
  | @done s1 a pre post valid _ _ split holds1 =>
    obtain ⟨r, call, removed⟩ := rbTreeRemove_holds holds1 start
    have here : covers start (a, (⟨s.total, start, stop, value⟩ : Item V)) = true := by
      simp [covers, valid]
    cases removed with
    | failed none' =>
      have absent := none' _ (List.mem_append_right _ List.mem_cons_self)
      rw [here] at absent
      cases absent
    | @done s2 u pre' post' split' found holds2 =>
      have member : u ∈ pre ++ (a, ⟨s.total, start, stop, value⟩) :: post := by simp [split']
      have same : u = (a, ⟨s.total, start, stop, value⟩) := by
        by_contra differ
        have old : u ∈ nodes := by
          rw [split]
          simpa [differ] using member
        have absent := missing u old
        rw [found] at absent
        cases absent
      subst same
      have nodup := holds1.nodup
      have left := filter_split nodup
      rw [split'] at left nodup
      have rest : pre' ++ post' = nodes := by rw [split, ← left, filter_split nodup]
      exact ⟨s2, 0, call, rest ▸ holds2⟩

end OhMyOs.Libs.RedBlackTree
