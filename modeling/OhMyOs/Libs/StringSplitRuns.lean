/- GID: OhMyOs/Libs/StringSplitRuns
   generality: I
   digest: Runs of kssplit: nothing is lost if no terminator goes behind a full piece. -/

import OhMyOs.Libs.StringSplit

set_option autoImplicit false
set_option relaxedAutoImplicit false

namespace OhMyOs.Libs.StringSplit

open OhMyOs.Include.Constants
open OhMyOs.Lib.Blocks OhMyOs.Lib.Outcome OhMyOs.Lib.Runs OhMyOs.Lib.Stores
open OhMyOs.Libs.GrowableString OhMyOs.Libs.Vector

structure Ready (source : Nat) (xs : List Byte) (before : List (List Byte)) (start st : SplitState)
    (done : List (Nat × List Byte)) : Prop where
  source : StoredIn st source xs
  pieces : ∀ d ∈ done, StoredIn st d.1 d.2 ∧ d.1 < 2 ^ 32
  elements : Elements st.mem st.vec (before ++ done.map fun d => pointerBytes d.1)
  pointers : st.vec.elementSize = 4
  apart : ∀ b ∈ st.used, Apart (array st.vec) b
  used : start.used ⊆ st.used
  kept : Same start.mem.bytes st.mem.bytes start.used

structure Holding (st : SplitState) (addr q : Nat) (ys : List Byte) : Prop where
  sub : st.sub = some addr
  stored : Stored st.mem (st.structs addr) q ys
  struct : (addr, structSize) ∈ st.used
  word : addr < 2 ^ 32
  apart : ∀ b ∈ array st.vec :: st.used, Apart (q, (st.structs addr).capacity) b
  full : ys.length = (st.structs addr).capacity →
    ∀ b ∈ array st.vec :: st.used, ¬ Inside (q + (st.structs addr).capacity) b

structure LoopInv (source : Nat) (c : Byte) (xs : List Byte) (before : List (List Byte))
    (start st : SplitState) (n : Nat) (done : List (Nat × List Byte)) (addr q : Nat)
    (ys : List Byte) : Prop where
  ready : Ready source xs before start st done
  holding : Holding st addr q ys
  other : source ≠ addr ∧ ∀ d ∈ done, d.1 ≠ addr
  cut : Cut c xs n (done.map Prod.snd) ys

variable {source n addr q : Nat} {c : Byte} {xs ys : List Byte} {before : List (List Byte)}
  {start st t : SplitState} {done : List (Nat × List Byte)} {a : Answers} {bs : List Block}

/-! ### What a round leaves alone -/

/-- From one state to a later one, the memory in use is the same, and so are all structs but one. -/
structure Extends (st t : SplitState) (addr : Nat) : Prop where
  same : Same st.mem.bytes t.mem.bytes st.used
  used : st.used ⊆ t.used
  structs : ∀ d, d ≠ addr → t.structs d = st.structs d

private theorem StoredIn.extend {d : Nat} (stored : StoredIn st d ys) (later : Extends st t addr)
    (other : d ≠ addr) : StoredIn t d ys := by
  obtain ⟨struct, p, here, buffer⟩ := stored
  refine ⟨later.used struct, p, ?_⟩
  rw [later.structs d other]
  exact ⟨{ here with holds := later.same.holds buffer here.fits here.holds },
    later.used buffer⟩

private theorem Ready.extend (ready : Ready source xs before start st done)
    (later : Extends st t addr)
    (other : source ≠ addr ∧ ∀ d ∈ done, d.1 ≠ addr)
    (elements : Elements t.mem t.vec (before ++ done.map fun d => pointerBytes d.1))
    (pointers : t.vec.elementSize = 4) (apart : ∀ b ∈ t.used, Apart (array t.vec) b) :
    Ready source xs before start t done where
  source := ready.source.extend later other.1
  pieces d member := ⟨(ready.pieces d member).1.extend later (other.2 d member),
    (ready.pieces d member).2⟩
  elements := elements
  pointers := pointers
  apart := apart
  used := List.Subset.trans ready.used later.used
  kept := ready.kept.trans (later.same.subset ready.used)

private theorem free_iff {p k : Nat} : free p k bs = true ↔
    0 < p ∧ p + k ≤ 2 ^ 32 ∧ ∀ b ∈ bs, Apart (p, k) b := by
  simp [free, and_assoc]

private theorem Holding.of_struct {s : KString} (here : st.structs addr = s)
    (sub : st.sub = some addr)
    (stored : Stored st.mem s q ys) (struct : (addr, structSize) ∈ st.used) (word : addr < 2 ^ 32)
    (apart : ∀ b ∈ array st.vec :: st.used, Apart (q, s.capacity) b)
    (full : ys.length = s.capacity →
      ∀ b ∈ array st.vec :: st.used, ¬ Inside (q + s.capacity) b) : Holding st addr q ys := by
  subst here
  exact ⟨sub, stored, struct, word, apart, full⟩

private theorem Holding.subBuffer_eq (holding : Holding st addr q ys) :
    subBuffer st = [(q, (st.structs addr).capacity)] := by
  simp [subBuffer, holding.sub, holding.stored.buffer]

/-! ### A new piece -/

private theorem allocSub_ok (st : SplitState) (struct : a.struct = some addr)
    (str : a.str = some q) :
    ∃ m : Mem, m.bytes = write st.mem.bytes q [0] ∧ allocSub st a = .ok
      { st with
        mem := m
        structs := Function.update st.structs addr ⟨some q, 0, stringMinSize⟩
        sub := some addr
        used := (addr, structSize) :: st.used } := by
  rw [allocSub, struct, str]
  exact ⟨_, rfl, rfl⟩

private theorem allocSub_holding (fresh : freshSub (array st.vec :: st.used) a = true) :
    ∃ t addr q, allocSub st a = .ok t ∧ t.vec = st.vec ∧ t.i = st.i ∧ t.phase = st.phase ∧
      t.used = (addr, structSize) :: st.used ∧
      (∀ b ∈ array st.vec :: st.used, Apart (addr, structSize) b) ∧
      Same st.mem.bytes t.mem.bytes (array st.vec :: st.used) ∧ Extends st t addr ∧
      Holding t addr q [] := by
  unfold freshSub at fresh
  cases struct : a.struct with
  | none => simp [struct] at fresh
  | some addr =>
    cases str : a.str with
    | none => simp [struct, str] at fresh
    | some q =>
      simp only [struct, str, Bool.and_eq_true, free_iff] at fresh
      obtain ⟨⟨-, word, apart⟩, -, -, buffer⟩ := fresh
      have store : ∀ b ∈ array st.vec :: st.used, Apart b (q, 1) := by
        intro b member
        have away := buffer b (List.mem_cons_of_mem _ member)
        unfold Apart stringMinSize at *
        omega
      obtain ⟨m, bytes, returns⟩ := allocSub_ok st struct str
      have same : Same st.mem.bytes m.bytes (array st.vec :: st.used) := bytes ▸ Same.write store
      refine ⟨_, addr, q, returns, rfl, rfl, rfl, rfl, apart, same,
        ⟨same.subset (List.subset_cons_self _ _), List.subset_cons_self _ _,
          fun d other => Function.update_of_ne other _ _⟩, ?_⟩
      have positive : 0 < stringMinSize := by decide
      have small : stringMinSize ≤ 2 ^ 31 := by decide
      refine .of_struct (Function.update_self ..) rfl
        ⟨rfl, rfl, Nat.zero_le _, positive, small, nofun, Holds.nil⟩ List.mem_cons_self ?_ ?_ nofun
      · unfold structSize at word
        omega
      · intro b member
        apply buffer
        simp only [List.mem_cons] at member ⊢
        tauto

private theorem Ready.alloc (ready : Ready source xs before start st done)
    (cut : Cut c xs n (done.map Prod.snd) [])
    (fresh : freshSub (array st.vec :: st.used) a = true) :
    ∃ t addr q, allocSub st a = .ok t ∧ t.i = st.i ∧ t.phase = st.phase ∧ Extends st t addr ∧
      LoopInv source c xs before start t n done addr q [] := by
  obtain ⟨t, addr, q, returns, vec, i, phase, used, apart, same, later, holding⟩ :=
    allocSub_holding fresh
  have other : ∀ d, (d, structSize) ∈ st.used → d ≠ addr := by
    rintro d member rfl
    have away := apart _ (List.mem_cons_of_mem _ member)
    unfold Apart structSize at away
    omega
  have others : source ≠ addr ∧ ∀ d ∈ done, d.1 ≠ addr :=
    ⟨other _ ready.source.1, fun d member => other _ (ready.pieces d member).1.1⟩
  have elements := ready.elements.same (same.subset (by simp))
  rw [← vec] at elements
  refine ⟨t, addr, q, returns, i, phase, later,
    ready.extend later others elements (vec ▸ ready.pointers) ?_, holding, others, cut⟩
  intro b member
  rw [used] at member
  rw [vec]
  rcases List.mem_cons.mp member with rfl | old
  · exact (apart _ List.mem_cons_self).symm
  · exact ready.apart b old

/-! ### A push -/

private theorem freshArray_full {new : Option Nat} (fresh : freshArray st new = true)
    (full : st.vec.size = st.vec.capacity) :
    ∃ p, new = some p ∧ 0 < p ∧ p + st.vec.elementSize * (st.vec.capacity * 2) ≤ 2 ^ 32 ∧
      ∀ b ∈ array st.vec :: (subBuffer st ++ st.used),
        Apart (p, st.vec.elementSize * (st.vec.capacity * 2)) b := by
  simp only [freshArray, full, ne_eq, not_true_eq_false, decide_false, Bool.false_or,
    Option.any_eq_true, free_iff] at fresh
  exact fresh

private theorem freshArray_grows {new : Option Nat} (fresh : freshArray st new = true) :
    Grows st.vec new := by
  intro full
  obtain ⟨p, answer, positive, word, apart⟩ := freshArray_full fresh full
  exact ⟨p, answer, positive, word, apart _ List.mem_cons_self⟩

private theorem freshArray_apart {new : Option Nat} (fresh : freshArray st new = true)
    (apart : ∀ b ∈ subBuffer st ++ st.used, Apart (array st.vec) b) :
    ∀ b ∈ subBuffer st ++ st.used, Apart (pushedArray st.vec new) b := by
  intro b member
  unfold pushedArray
  split_ifs with full
  · obtain ⟨p, rfl, -, -, away⟩ := freshArray_full fresh full
    exact away b (List.mem_cons_of_mem _ member)
  · exact apart b member

private theorem LoopInv.push {new : Option Nat}
    (inv : LoopInv source c xs before start st n done addr q ys)
    (fresh : freshArray st new = true) :
    Ready source xs before start (pushSub st new) (done ++ [(addr, ys)]) ∧
      array (pushSub st new).vec = pushedArray st.vec new ∧
      Same st.mem.bytes (pushSub st new).mem.bytes st.used := by
  obtain ⟨ready, holding, other, -⟩ := inv
  have buffer := holding.subBuffer_eq
  have apart : ∀ b ∈ subBuffer st ++ st.used, Apart (array st.vec) b := by
    intro b member
    rw [buffer] at member
    rcases List.mem_cons.mp member with rfl | old
    · exact (holding.apart _ List.mem_cons_self).symm
    · exact ready.apart b old
  have apart' := freshArray_apart fresh apart
  obtain ⟨m', v', result, elements, array_eq, size, frame⟩ :=
    vectorPush_elements (e := pointerBytes (st.sub.getD 0)) ready.elements
      (by rw [ready.pointers]; rfl) (freshArray_grows fresh)
  have mem : (pushSub st new).mem = m' := by rw [pushSub, result]
  have vec : (pushSub st new).vec = v' := by rw [pushSub, result]
  have same : Same st.mem.bytes (pushSub st new).mem.bytes (subBuffer st ++ st.used) := by
    intro b member a inside
    rw [mem]
    exact frame a fun both => (apart' b member).not_inside both inside
  have later : Extends st (pushSub st new) addr :=
    ⟨same.subset (List.subset_append_right _ _), List.subset_append_right _ _, fun _ _ => rfl⟩
  have mine : (q, (st.structs addr).capacity) ∈ subBuffer st ++ st.used := by simp [buffer]
  have piece : StoredIn (pushSub st new) addr ys :=
    ⟨later.used holding.struct, q, { holding.stored with
      holds := same.holds mine holding.stored.fits holding.stored.holds }, mine⟩
  refine ⟨⟨ready.source.extend later other.1, ?_, ?_, ?_, ?_,
    List.Subset.trans ready.used later.used,
    ready.kept.trans (later.same.subset ready.used)⟩, vec ▸ array_eq, later.same⟩
  · intro d member
    rcases List.mem_append.mp member with old | this
    · exact ⟨(ready.pieces d old).1.extend later (other.2 d old), (ready.pieces d old).2⟩
    · obtain rfl := List.mem_singleton.mp this
      exact ⟨piece, holding.word⟩
  · rw [holding.sub] at elements
    rw [mem, vec, List.map_append, ← List.append_assoc]
    exact elements
  · rw [vec, size]
    exact ready.pointers
  · rw [vec, array_eq]
    exact apart'

/-! ### A character -/

private theorem freshBuffer_full {new : Option Nat} {s : KString}
    (fresh : freshBuffer st s new = true)
    (full : s.capacity < s.length + 1) :
    s.length + 1 < 2 ^ 31 ∧ ∃ p, new = some p ∧
      ∀ b ∈ array st.vec :: (subBuffer st ++ st.used),
        Apart (p, grownCapacity (s.length + 1)) b := by
  simp only [freshBuffer, Nat.not_le.mpr full, decide_false, Bool.false_or, Bool.and_eq_true,
    decide_eq_true_eq, Option.any_eq_true, free_iff] at fresh
  obtain ⟨small, p, answer, -, -, apart⟩ := fresh
  exact ⟨small, p, answer, apart⟩

private theorem freshBuffer_grows {new : Option Nat} (holding : Holding st addr q ys)
    (fresh : freshBuffer st (st.structs addr) new = true)
    (behind : (st.structs addr).capacity < (st.structs addr).length + 1 →
      new ≠ some (q + (st.structs addr).capacity)) :
    (st.structs addr).capacity < (st.structs addr).length + 1 →
      ∃ p, new = some p ∧ GrowsTo (st.structs addr) q ((st.structs addr).length + 1) p := by
  intro full
  obtain ⟨small, p, rfl, apart⟩ := freshBuffer_full fresh full
  have away := apart (q, (st.structs addr).capacity)
    (List.mem_cons_of_mem _ (by simp [holding.subBuffer_eq]))
  exact ⟨p, rfl, small, away, fun _ eq => behind full (by rw [eq])⟩

private theorem appended_buffer {new : Option Nat} (holding : Holding st addr q ys)
    (fresh : freshBuffer st (st.structs addr) new = true)
    (spare : (st.structs addr).length + 1 = (st.structs addr).capacity →
      ∀ b ∈ array st.vec :: st.used, ¬ Inside (q + (st.structs addr).capacity) b) {q' : Nat}
    (buffer : bufferFor (st.structs addr) ((st.structs addr).length + 1) new = some q') :
    (∀ b ∈ array st.vec :: st.used,
        Apart (q', capacityFor (st.structs addr) ((st.structs addr).length + 1)) b) ∧
      ((st.structs addr).length + 1 =
          capacityFor (st.structs addr) ((st.structs addr).length + 1) →
        ∀ b ∈ array st.vec :: st.used,
          ¬ Inside (q' + capacityFor (st.structs addr) ((st.structs addr).length + 1)) b) := by
  unfold bufferFor at buffer
  unfold capacityFor
  split_ifs at buffer ⊢ with enough
  · obtain rfl := Option.some.inj (holding.stored.buffer.symm.trans buffer)
    exact ⟨holding.apart, spare⟩
  · obtain ⟨small, p, answer, apart⟩ := freshBuffer_full fresh (Nat.not_le.mp enough)
    obtain rfl := Option.some.inj (answer.symm.trans buffer)
    refine ⟨fun b member => apart b ?_, fun full => ?_⟩
    · simp only [List.mem_cons, List.mem_append] at member ⊢
      tauto
    · have above := (lt_grownCapacity small).1
      omega

/-- One more character changes no other memory in use: the terminators of a full buffer go to none,
neither when it becomes full nor when it is left. -/
private theorem appended_same {m' : Mem} {s' : KString} {new : Option Nat} {x : Byte}
    (holding : Holding st addr q ys) (fresh : freshBuffer st (st.structs addr) new = true)
    (spare : (st.structs addr).length + 1 = (st.structs addr).capacity →
      ∀ b ∈ array st.vec :: st.used, ¬ Inside (q + (st.structs addr).capacity) b)
    (after : After st.mem m' (st.structs addr) s' ((st.structs addr).length + 1) new (ys ++ [x])) :
    Same st.mem.bytes m'.bytes (array st.vec :: st.used) := by
  have length := holding.stored.length
  have fits := holding.stored.fits
  obtain ⟨q', buffer, stored⟩ := after.stored
  obtain ⟨apart, full⟩ := appended_buffer holding fresh spare buffer
  have count : (ys ++ [x]).length = (st.structs addr).length + 1 := by
    rw [List.length_append, List.length_singleton, length]
  have room := stored.fits
  rw [count, after.capacity] at room
  intro b member d inside
  have outside := (apart b member).symm.not_inside inside
  unfold Inside at outside
  refine after.frame d ⟨fun p' eq => ?_, fun large p' eq => ?_⟩ fun p' eq => ?_
  · obtain rfl := Option.some.inj (buffer.symm.trans eq)
    omega
  · obtain rfl := Option.some.inj (holding.stored.buffer.symm.trans eq)
    rintro rfl
    have filled : ys.length = (st.structs addr).capacity := by omega
    apply holding.full filled b member
    rwa [length, filled] at inside
  · obtain rfl := Option.some.inj (buffer.symm.trans eq)
    rintro rfl
    rw [count] at outside inside
    have filled : (st.structs addr).length + 1 =
        capacityFor (st.structs addr) ((st.structs addr).length + 1) := by omega
    apply full filled b member
    rwa [← filled]

private theorem LoopInv.append {x : Byte}
    (inv : LoopInv source c xs before start st n done addr q ys)
    (at_ : xs[n]? = some x) (other : x ≠ c)
    (fresh : freshBuffer st (st.structs addr) a.grow = true)
    (spare : (st.structs addr).length + 1 = (st.structs addr).capacity →
      ∀ b ∈ array st.vec :: st.used, ¬ Inside (q + (st.structs addr).capacity) b)
    (behind : (st.structs addr).capacity < (st.structs addr).length + 1 →
      a.grow ≠ some (q + (st.structs addr).capacity)) :
    ∃ r q', ksappendChar st.mem (st.structs addr) x a.grow = .ok r ∧
      let t := { st with
        mem := r.1, structs := Function.update st.structs addr r.2.1, i := st.i + 1 }
      Extends st t addr ∧
        LoopInv source c xs before start t (n + 1) done addr q' (ys ++ [x]) := by
  obtain ⟨ready, holding, others, cut⟩ := inv
  obtain ⟨-, p, string, -⟩ := ready.source
  have nonzero := string.nulFree x (List.mem_of_getElem? at_)
  obtain ⟨r, returns, -, after⟩ := ksappendChar_after holding.stored nonzero
    (freshBuffer_grows holding fresh behind)
  have same := appended_same holding fresh spare after
  obtain ⟨q', buffer, stored⟩ := after.stored
  obtain ⟨apart, full⟩ := appended_buffer holding fresh spare buffer
  have later : Extends st { st with
      mem := r.1, structs := Function.update st.structs addr r.2.1, i := st.i + 1 } addr :=
    ⟨same.subset (List.subset_cons_self _ _), List.Subset.refl _,
      fun d different => Function.update_of_ne different _ _⟩
  have elements := ready.elements.same (same.subset (by simp))
  refine ⟨r, q', returns, later,
    ready.extend later others elements ready.pointers ready.apart, ?_, others,
    cut.extend at_ other⟩
  refine .of_struct (Function.update_self ..) holding.sub stored holding.struct holding.word ?_ ?_
  · rw [after.capacity]
    exact apart
  · rw [after.capacity, List.length_append, List.length_singleton, ← holding.stored.length]
    exact full

/-! ### Steps -/

private theorem splitStep_round (phase : st.phase = .loop)
    (more : st.i < (st.structs source).length) :
    splitStep source c st a = (splitRound source c st a).toOption := by
  unfold splitStep
  simp only [phase, if_pos more]

private theorem splitStep_end (phase : st.phase = .loop)
    (finished : (st.structs source).length ≤ st.i) :
    splitStep source c st a = (splitEnd st a).toOption := by
  unfold splitStep
  simp only [phase, if_neg (Nat.not_lt.mpr finished)]

private theorem splitRound_separator {p : Nat} (buffer : (st.structs source).str = some p)
    (char : st.mem.bytes (p + st.i) = c) :
    splitRound source c st a =
      (allocSub (pushSub st a.grow) a).map fun t => { t with i := t.i + 1 } := by
  unfold splitRound
  simp only [buffer, if_pos char]
  rfl

private theorem splitRound_character {p : Nat} (buffer : (st.structs source).str = some p)
    (char : st.mem.bytes (p + st.i) ≠ c) (sub : st.sub = some addr) :
    splitRound source c st a =
      (ksappendChar st.mem (st.structs addr) (st.mem.bytes (p + st.i)) a.grow).map fun r =>
        { st with
          mem := r.1, structs := Function.update st.structs addr r.2.1, i := st.i + 1 } := by
  cases st
  simp only at buffer char sub
  subst sub
  unfold splitRound
  simp only [buffer, if_neg char]
  rfl

private theorem splitEnd_free (sub : st.sub = some addr) (empty : (st.structs addr).length = 0) :
    splitEnd st a = .ok { st with
      mem := kfree ((st.structs addr).str.elim st.mem (kfree st.mem)) addr
      phase := .returned } := by
  cases st
  simp only at sub empty
  subst sub
  exact if_pos empty

private theorem splitEnd_push (sub : st.sub = some addr) (some : (st.structs addr).length ≠ 0) :
    splitEnd st a = .ok { pushSub st a.grow with phase := .returned } := by
  unfold splitEnd
  simp only [sub]
  exact if_neg some

/-! ### Runs -/

private theorem LoopInv.at (inv : LoopInv source c xs before start st n done addr q ys) (i : Nat)
    (phase : Phase) :
    LoopInv source c xs before start { st with i := i, phase := phase } n done addr q ys :=
  ⟨{ inv.ready with }, { inv.holding with }, inv.other, inv.cut⟩

inductive SplitInv (source : Nat) (c : Byte) (xs : List Byte) (before : List (List Byte))
    (start : SplitState) : SplitState → Prop
  | start : SplitInv source c xs before start start
  | loop {st : SplitState} {n : Nat} {done : List (Nat × List Byte)} {addr q : Nat}
      {ys : List Byte} (phase : st.phase = .loop) (index : st.i = n)
      (inv : LoopInv source c xs before start st n done addr q ys) :
      SplitInv source c xs before start st
  | returned {st : SplitState} {done : List (Nat × List Byte)} (phase : st.phase = .returned)
      (ready : Ready source xs before start st done) (law : SplitLaw c xs (done.map Prod.snd)) :
      SplitInv source c xs before start st

private theorem Started.ready (started : Started source xs before start) :
    Ready source xs before start start [] where
  source := started.source
  pieces := nofun
  elements := by
    rw [List.map_nil, List.append_nil]
    exact started.elements
  pointers := started.pointers
  apart := started.apart
  used := List.Subset.refl _
  kept := Same.refl _ _

private theorem StoredIn.length_eq {d : Nat} (stored : StoredIn st d xs) :
    (st.structs d).length = xs.length := by
  obtain ⟨-, p, here, -⟩ := stored
  exact here.length

structure Advances (source : Nat) (c : Byte) (xs : List Byte) (before : List (List Byte))
    (start st t : SplitState) : Prop where
  inv : SplitInv source c xs before start t
  left : left source t < left source st
  same : Same st.mem.bytes t.mem.bytes st.used

private theorem start_advances (started : Started source xs before start)
    (fresh : freshSub (array start.vec :: start.used) a = true) :
    ∃ t, splitStep source c start a = some t ∧ Advances source c xs before start start t := by
  obtain ⟨t, addr, q, returns, i, phase, later, inv⟩ :=
    started.ready.alloc (Cut.start c xs) fresh
  have index : t.i = 0 := i.trans started.i
  refine ⟨{ t with phase := .loop }, ?_, .loop rfl index (inv.at t.i .loop), ?_, later.same⟩
  · rw [splitStep, started.phase, returns]
    rfl
  · have before := started.source.length_eq
    have after := inv.ready.source.length_eq
    simp only [left, started.phase, before, after, index]
    omega

private theorem LoopInv.at_char (inv : LoopInv source c xs before start st n done addr q ys)
    (index : st.i = n) (inside : n < xs.length) :
    ∃ p x, (st.structs source).str = some p ∧ xs[n]? = some x ∧ st.mem.bytes (p + st.i) = x ∧
      (atSeparator source c st = true ↔ x = c) := by
  obtain ⟨-, p, string, -⟩ := inv.ready.source
  have at_ : xs[n]? = some xs[n] := List.getElem?_eq_getElem inside
  have char : st.mem.bytes (p + st.i) = xs[n] := by
    rw [index]
    exact string.holds n _ at_
  refine ⟨p, xs[n], string.buffer, at_, char, ?_⟩
  simp [atSeparator, string.buffer, char]

private theorem separator_advances (inv : LoopInv source c xs before start st n done addr q ys)
    (phase : st.phase = .loop) (index : st.i = n) (inside : n < xs.length)
    (sep : atSeparator source c st = true) (fresh : freshArray st a.grow = true)
    (freshPiece : freshSub (pushedArray st.vec a.grow :: (subBuffer st ++ st.used)) a = true) :
    ∃ t, splitStep source c st a = some t ∧ Advances source c xs before start st t := by
  obtain ⟨p, x, buffer, at_, char, iff⟩ := inv.at_char index inside
  obtain rfl := iff.mp sep
  obtain ⟨ready, array_eq, same⟩ := inv.push fresh
  have cut : Cut x xs (n + 1) ((done ++ [(addr, ys)]).map Prod.snd) [] := by
    rw [List.map_append]
    exact inv.cut.close at_
  rw [← array_eq] at freshPiece
  obtain ⟨t, addr', q', returns, i, kind, later, inv'⟩ := ready.alloc cut freshPiece
  have length := inv.ready.source.length_eq
  have length' := inv'.ready.source.length_eq
  have again : t.phase = .loop := kind.trans phase
  have next : t.i + 1 = n + 1 := by rw [i, ← index]; rfl
  refine ⟨{ t with i := t.i + 1 }, ?_, .loop again next (inv'.at (t.i + 1) t.phase), ?_, ?_⟩
  · rw [splitStep_round phase (by omega), splitRound_separator buffer char, returns]
    rfl
  · simp only [left, phase, again, length, length', next, index]
    omega
  · exact same.trans (later.same.subset (List.subset_append_right _ _))

private theorem character_advances (inv : LoopInv source c xs before start st n done addr q ys)
    (phase : st.phase = .loop) (index : st.i = n) (inside : n < xs.length)
    (other : atSeparator source c st ≠ true)
    (fresh : freshBuffer st (st.structs addr) a.grow = true)
    (spare : (st.structs addr).length + 1 = (st.structs addr).capacity →
      ∀ b ∈ array st.vec :: st.used, ¬ Inside (q + (st.structs addr).capacity) b)
    (behind : (st.structs addr).capacity < (st.structs addr).length + 1 →
      a.grow ≠ some (q + (st.structs addr).capacity)) :
    ∃ t, splitStep source c st a = some t ∧ Advances source c xs before start st t := by
  obtain ⟨p, x, buffer, at_, char, iff⟩ := inv.at_char index inside
  have plain : x ≠ c := fun eq => other (iff.mpr eq)
  obtain ⟨r, q', returns, later, inv'⟩ := inv.append at_ plain fresh spare behind
  have length := inv.ready.source.length_eq
  have length' := inv'.ready.source.length_eq
  have next : st.i + 1 = n + 1 := by rw [index]
  refine ⟨_, ?_, .loop (by exact phase) (by exact next) inv', ?_, later.same⟩
  · rw [splitStep_round phase (by omega),
      splitRound_character buffer (char ▸ plain) inv.holding.sub, char, returns]
    rfl
  · simp only at length'
    simp only [left, phase, length, length', index]
    omega

private theorem end_advances (inv : LoopInv source c xs before start st n done addr q ys)
    (phase : st.phase = .loop) (index : st.i = n) (finished : xs.length ≤ n)
    (fresh : (st.structs addr).length ≠ 0 → freshArray st a.grow = true) :
    ∃ t, splitStep source c st a = some t ∧ Advances source c xs before start st t := by
  obtain rfl : n = xs.length := Nat.le_antisymm inv.cut.inside finished
  have law := inv.cut.splitLaw
  have length := inv.ready.source.length_eq
  have chars := inv.holding.stored.length
  rw [splitStep_end phase (by omega)]
  by_cases empty : (st.structs addr).length = 0
  · obtain rfl : ys = [] := List.eq_nil_of_length_eq_zero (by omega)
    rw [if_pos rfl] at law
    have same : ∀ bs, Same st.mem.bytes
        (kfree ((st.structs addr).str.elim st.mem (kfree st.mem)) addr).bytes bs := by
      intro bs
      rw [inv.holding.stored.buffer]
      exact Same.refl _ _
    have later : Extends st { st with
        mem := kfree ((st.structs addr).str.elim st.mem (kfree st.mem)) addr
        phase := .returned } addr :=
      ⟨same _, List.Subset.refl _, fun _ _ => rfl⟩
    have elements := inv.ready.elements.same (same _)
    rw [splitEnd_free inv.holding.sub empty]
    refine ⟨_, rfl, .returned rfl
      (inv.ready.extend later inv.other elements inv.ready.pointers inv.ready.apart) law, ?_,
      later.same⟩
    simp only [left, phase]
    omega
  · have some : ys ≠ [] := by
      rintro rfl
      exact empty chars
    rw [if_neg some] at law
    obtain ⟨ready, -, same⟩ := inv.push (fresh empty)
    rw [splitEnd_push inv.holding.sub empty]
    refine ⟨_, rfl, .returned rfl { ready with } ?_, ?_, same⟩
    · rw [List.map_append]
      exact law
    · simp only [left, phase]
      omega

private theorem SplitInv.advances (started : Started source xs before start)
    (inv : SplitInv source c xs before start st) (running : st.phase ≠ .returned)
    (ok : (granted source c st a && spare source c st a) = true) :
    ∃ t, splitStep source c st a = some t ∧ Advances source c xs before start st t := by
  obtain ⟨grant, gap⟩ := Bool.and_eq_true_iff.mp ok
  cases inv with
  | start =>
    simp only [granted, started.phase] at grant
    exact start_advances started grant
  | loop phase index inv =>
    have length := inv.ready.source.length_eq
    have sub := inv.holding.sub
    simp only [granted, phase, index, length] at grant
    split_ifs at grant with inside sep
    · obtain ⟨fresh, freshPiece⟩ := Bool.and_eq_true_iff.mp grant
      exact separator_advances inv phase index inside sep fresh freshPiece
    · rw [sub, Option.all_some] at grant
      simp only [spare, phase, index, length, sep, sub, inv.holding.stored.buffer, Option.all_some,
        ne_eq, not_true_eq_false, decide_false, Bool.false_or, Bool.or_eq_true, Bool.and_eq_true,
        decide_eq_true_eq, List.all_eq_true, Nat.not_le.mpr inside] at gap
      exact character_advances inv phase index inside sep grant
        (fun full => gap.1.resolve_left (not_not_intro full))
        (fun large => gap.2.resolve_left (Nat.not_le.mpr large))
    · rw [sub, Option.all_some, Bool.or_eq_true, decide_eq_true_eq] at grant
      exact end_advances inv phase index (Nat.not_lt.mp inside) fun some => grant.resolve_left some
  | returned phase => exact absurd phase running

private theorem word_pointerBytes {p : Nat} (small : p < 2 ^ 32) :
    (BitVec.ofNat 8 p).toNat + 2 ^ 8 * (BitVec.ofNat 8 (p / 2 ^ 8)).toNat +
      2 ^ 16 * (BitVec.ofNat 8 (p / 2 ^ 16)).toNat +
        2 ^ 24 * (BitVec.ofNat 8 (p / 2 ^ 24)).toNat = p := by
  simp only [BitVec.toNat_ofNat]
  omega

private theorem vectorAt_eq {m : Mem} {v : Vec} {es : List (List Byte)} {k p : Nat}
    (elements : Elements m v es) (four : v.elementSize = 4)
    (at_ : es[k]? = some (pointerBytes p)) (small : p < 2 ^ 32) : vectorAt m v k = p := by
  have holds := elements.holds_at at_
  rw [four] at holds
  have first : m.bytes (v.base + 4 * k) = BitVec.ofNat 8 p := holds 0 _ rfl
  have second : m.bytes (v.base + 4 * k + 1) = BitVec.ofNat 8 (p / 2 ^ 8) := holds 1 _ rfl
  have third : m.bytes (v.base + 4 * k + 2) = BitVec.ofNat 8 (p / 2 ^ 16) := holds 2 _ rfl
  have fourth : m.bytes (v.base + 4 * k + 3) = BitVec.ofNat 8 (p / 2 ^ 24) := holds 3 _ rfl
  simp only [vectorAt, first, second, third, fourth]
  exact word_pointerBytes small

private theorem Ready.pushed_eq (ready : Ready source xs before start st done)
    (size : start.vec.size = before.length) :
    st.vec.size = start.vec.size + done.length ∧ pushed start st = done.map Prod.snd := by
  have count : st.vec.size = start.vec.size + done.length := by
    rw [ready.elements.size, List.length_append, List.length_map, size]
  refine ⟨count, ?_⟩
  unfold pushed
  rw [count, Nat.add_sub_cancel_left]
  refine List.ext_getElem (by simp) fun k inRange inDone => ?_
  have inside : k < done.length := by simpa using inDone
  obtain ⟨⟨-, p, stored, -⟩, small⟩ := ready.pieces done[k] (List.getElem_mem inside)
  have at_ : (before ++ done.map fun d => pointerBytes d.1)[start.vec.size + k]? =
      some (pointerBytes done[k].1) := by
    rw [List.getElem?_append_right (by omega), size, Nat.add_sub_cancel_left, List.getElem?_map,
      List.getElem?_eq_getElem inside]
    rfl
  rw [List.getElem_map, List.getElem_map, List.getElem_range,
    vectorAt_eq ready.elements ready.pointers at_ small]
  exact stored.contents_eq

private theorem SplitInv.kept (inv : SplitInv source c xs before start st) :
    Same start.mem.bytes st.mem.bytes start.used := by
  cases inv with
  | start => exact Same.refl _ _
  | loop _ _ inv => exact inv.ready.kept
  | returned _ ready => exact ready.kept

/-- In every run in which no terminator is written to memory in use, nothing of the string is
lost. -/
theorem kssplit_run_splits (source : Nat) (c : Byte) (xs : List Byte) (before : List (List Byte))
    (start st : SplitState) (started : Started source xs before start)
    (run : Run (splitStep source c)
      (fun st a => (granted source c st a && spare source c st a) = true) start st) :
    Splits source c xs start st := by
  have inv : SplitInv source c xs before start st := by
    refine run.invariant .start fun s a t inv ok step => ?_
    have running : s.phase ≠ .returned := by
      intro ended
      rw [splitStep, ended] at step
      cases step
    obtain ⟨t', step', advances⟩ := inv.advances started running ok
    obtain rfl := Option.some.inj (step.symm.trans step')
    exact advances.inv
  refine ⟨fun running a ok => ?_, fun ended => ?_, inv.kept⟩
  · obtain ⟨t, step, advances⟩ := inv.advances started running ok
    exact ⟨t, step, advances.left, advances.same⟩
  · cases inv with
    | start => exact absurd (started.phase.symm.trans ended) (by decide)
    | loop phase => exact absurd (phase.symm.trans ended) (by decide)
    | returned _ ready law =>
      obtain ⟨count, eq⟩ := ready.pushed_eq started.elements.size
      exact ⟨by omega, eq ▸ law⟩

/-! ### The call of the shell -/

/-- A call as the shell makes it: an empty vector, whose array is the first of the blocks with 32
bytes, and a line of text in a buffer with 64 bytes. -/
def shellCall (text : List Byte) : SplitState where
  mem := { blank with bytes := write blank.bytes 0xC0500000 text }
  structs := fun _ => ⟨some 0xC0500000, text.length, 64⟩
  vec := ⟨0xC0400000, 4, 0, 8⟩
  sub := none
  i := 0
  phase := .start
  used := [(0xC0600000, vectorStructSize), (0xC0600010, structSize), (0xC0500000, 64)]

private theorem shellCall_started {text : List Byte} (nulFree : ∀ c ∈ text, c ≠ 0)
    (short : text.length ≤ 64) : Started 0xC0600010 text [] (shellCall text) where
  phase := rfl
  i := rfl
  source := by
    refine ⟨by simp [shellCall], 0xC0500000, ⟨rfl, rfl, short, ?_, ?_, nulFree, ?_⟩, ?_⟩
    · exact Nat.zero_lt_succ 63
    · exact Nat.le_of_ble_eq_true rfl
    · exact write_holds blank.bytes 0xC0500000 text
    · simp [shellCall]
  struct := ⟨0xC0600000, List.mem_cons_self⟩
  elements := by
    have nonnull : 0 < 0xC0400000 := by decide
    have word : 0xC0400000 + 4 * 8 ≤ 2 ^ 32 := by decide
    exact ⟨rfl, nofun, Nat.zero_le 8, Nat.zero_lt_succ 3, Nat.zero_lt_succ 7, nonnull, word,
      Holds.nil⟩
  pointers := rfl
  apart := by
    have all : ∀ b ∈ [(0xC0600000, vectorStructSize), (0xC0600010, structSize), (0xC0500000, 64)],
        Apart (0xC0400000, 4 * 8) b := by decide
    exact all

/-- What kmalloc returns for the piece with number `k`: the structs and the buffers lie one behind
the other, but the buffer of the tenth is the block that the array of the vector has left. -/
def shellAnswers (k : Nat) : Answers :=
  ⟨some 0xC0500040, some (0xC0600020 + 16 * k),
    some (if k = 9 then 0xC0400000 else 0xC0400020 + 32 * k)⟩

/-- `ls  a` -/
theorem kssplit_run_splits_line :
    ∃ st, exec (splitStep 0xC0600010 32)
        (fun st a => granted 0xC0600010 32 st a && spare 0xC0600010 32 st a)
        (shellCall [108, 115, 32, 32, 97]) ([0, 0, 0, 1, 2, 0, 0].map shellAnswers) = some st ∧
      pushed (shellCall [108, 115, 32, 32, 97]) st = [[108, 115], [], [97]] ∧
      Splits 0xC0600010 32 [108, 115, 32, 32, 97] (shellCall [108, 115, 32, 32, 97]) st := by
  have result : (exec (splitStep 0xC0600010 32)
      (fun st a => granted 0xC0600010 32 st a && spare 0xC0600010 32 st a)
      (shellCall [108, 115, 32, 32, 97]) ([0, 0, 0, 1, 2, 0, 0].map shellAnswers)).map
        (pushed (shellCall [108, 115, 32, 32, 97])) = some [[108, 115], [], [97]] := by
    decide +kernel
  obtain ⟨st, eq, pieces⟩ := Option.map_eq_some_iff.mp result
  exact ⟨st, eq, pieces, kssplit_run_splits _ _ _ _ _ st
    (shellCall_started (by decide) (by decide)) (Run.of_exec eq)⟩

def tenWords : List Byte :=
  ([97, 98, 99, 100, 101, 102, 103, 104, 105].flatMap fun c => [c, 32]) ++ List.replicate 32 120

def tenWordsAnswers : List Answers :=
  shellAnswers 0 :: ((List.range 9).flatMap fun k => [shellAnswers 0, shellAnswers (k + 1)]) ++
    List.replicate 33 (shellAnswers 0)

/-- The terminator of the tenth word overwrites the letter of the first one. -/
theorem kssplit_loses_first :
    ¬ ∀ source c xs before start st, Started source xs before start →
      Run (splitStep source c) (fun st a => granted source c st a = true) start st →
        st.phase = .returned → SplitLaw c xs (pushed start st) := by
  intro claim
  have result : (exec (splitStep 0xC0600010 32) (granted 0xC0600010 32) (shellCall tenWords)
      tenWordsAnswers).map
        (fun st =>
          (st.phase, (([32] : List Byte).intercalate (pushed (shellCall tenWords) st)).head?)) =
          some (.returned, some 0) := by decide +kernel
  obtain ⟨st, eq, facts⟩ := Option.map_eq_some_iff.mp result
  obtain ⟨ended, first⟩ := Prod.mk.inj facts
  have nulFree : ∀ c ∈ tenWords, c ≠ 0 := by decide
  have law := claim _ _ _ _ _ st (shellCall_started nulFree (by decide)) (Run.of_exec eq) ended
  rw [law.whole (by decide) (by decide)] at first
  exact absurd first (by decide)

end OhMyOs.Libs.StringSplit
