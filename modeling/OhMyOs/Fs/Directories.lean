/- GID: OhMyOs/Fs/Directories
   generality: I
   digest: The directories of fs/fs.c in memory, and the tree that they form. -/

import OhMyOs.Include.IntrusiveList

set_option autoImplicit false
set_option relaxedAutoImplicit false

namespace OhMyOs.Fs.Directories

open OhMyOs.Lib.Ring OhMyOs.Include.IntrusiveList

/-! ### The code -/

abbrev Name := List Char

/-- A pointer is a number. The `dir_list` and `file_list` of a directory are the heads of that
number, and `node` is the node of that number. The last two fields say which pointers kmalloc has
given out, and the `dir` of each thread. -/
structure FsState where
  dirs : Links Nat Nat
  files : Links Nat Nat
  name : Nat → Name
  parent : Nat → Option Nat
  root : Nat
  proc : Nat
  currentDir : Nat
  live : Nat → Bool
  threadDir : Nat → Option Nat

/-- The loop of `dir_find_dir`; without a result it ran out of fuel, or `container_of` was taken of
another list's head. -/
def dirFindLoop (s : FsState) (dir : Nat) (name : Name) :
    Nat → Cell Nat Nat → Option (Option Nat)
  | 0, _ => none
  | fuel + 1, node =>
    if node = .head dir then some none
    else
      (containerOf node).bind fun d =>
        if name = s.name d then some (some d) else dirFindLoop s dir name fuel (s.dirs.next node)

def dirFindDir (s : FsState) (dir : Nat) (name : Name) (fuel : Nat) : Option (Option Nat) :=
  dirFindLoop s dir name fuel (s.dirs.next (.head dir))

/-- `f` is what kmalloc returns. -/
def createFile (s : FsState) (parent f : Nat) : FsState :=
  { s with
    files := listInsert s.files (.head parent) (.node f)
    live := Function.update s.live f true }

def removeFile (s : FsState) (file : Nat) : FsState :=
  { s with
    files := listRemove s.files (.node file)
    live := Function.update s.live file false }

/-- `d` is what kmalloc returns. -/
def createDirectory (s : FsState) (name : Name) (parent : Option Nat) (d : Nat) : FsState :=
  let dirs := listInit s.dirs (.head d)
  { s with
    name := Function.update s.name d name
    parent := Function.update s.parent d parent
    files := listInit s.files (.head d)
    dirs := parent.elim dirs fun p => listInsert dirs (.head p) (.node d)
    live := Function.update s.live d true }

/-- The first loop of `remove_directory`, which reads `next` from the file it has just freed. -/
def removeFiles (dir : Nat) : Nat → FsState → Cell Nat Nat → Option FsState
  | 0, _, _ => none
  | fuel + 1, s, node =>
    if node = .head dir then some s
    else
      (containerOf node).bind fun file =>
        removeFiles dir fuel (removeFile s file) ((removeFile s file).files.next node)

mutual

def removeDirectory : Nat → FsState → Nat → Option FsState
  | 0, _, _ => none
  | fuel + 1, s, dir => do
    let s ← removeFiles dir fuel s (s.files.next (.head dir))
    let s ← removeDirs dir fuel s (s.dirs.next (.head dir))
    return { s with
      dirs := listRemove s.dirs (.node dir)
      live := Function.update s.live dir false }

def removeDirs (dir : Nat) : Nat → FsState → Cell Nat Nat → Option FsState
  | 0, _, _ => none
  | fuel + 1, s, node =>
    if node = .head dir then some s
    else
      (containerOf node).bind fun d =>
        (removeDirectory fuel s d).bind fun s => removeDirs dir fuel s (s.dirs.next node)

end

/-- `fs_init` when its four allocations succeed, and `current_dir = root` of the shell's start. -/
def fsInit (s : FsState) (root bin proc sys : Nat) : FsState :=
  let s := createDirectory s ['/'] none root
  let s := createDirectory s ['b', 'i', 'n'] (some root) bin
  let s := createDirectory s ['p', 'r', 'o', 'c'] (some root) proc
  let s := createDirectory s ['s', 'y', 's'] (some root) sys
  { s with root := root, proc := proc, currentDir := root }

/-! ### The tree -/

inductive Reach (f : Nat → List Nat) (root : Nat) : Nat → Prop
  | root : Reach f root root
  | child {p c : Nat} : Reach f root p → c ∈ f p → Reach f root c

/-- `D` are the directories, `f` and `g` what their two lists hold. -/
structure Tree (s : FsState) (root : Nat) (D : Set Nat) (f g : Nat → List Nat) : Prop where
  dirs : Rings s.dirs D f
  files : Rings s.files D g
  child : ∀ d ∈ D, ∀ c ∈ f d, c ∈ D ∧ s.parent c = some d
  up : ∀ d ∈ D, ∀ p, s.parent d = some p → p ∈ D ∧ d ∈ f p
  reach : ∀ d ∈ D, Reach f root d
  root : root ∈ D
  live : ∀ d ∈ D, s.live d = true
  file : ∀ d ∈ D, ∀ x ∈ g d, s.live x = true ∧ x ∉ D

section
variable {s : FsState} {root : Nat} {D : Set Nat} {f g : Nat → List Nat} {d x : Nat}

theorem Tree.not_mem_of_free (tree : Tree s root D f g) (free : s.live d = false) : d ∉ D := by
  intro mem
  rw [tree.live d mem] at free
  cases free

private theorem Tree.file_of_free (tree : Tree s root D f g) (free : s.live x = false) :
    ∀ j ∈ D, x ∉ g j := by
  intro j hj mem
  rw [(tree.file j hj x mem).1] at free
  cases free

private theorem Tree.mem_of_reach (tree : Tree s root D f g) (reach : Reach f root d) : d ∈ D := by
  induction reach with
  | root => exact tree.root
  | child _ mem ih => exact (tree.child _ ih _ mem).1

theorem Tree.induct {P : Nat → Prop} (tree : Tree s root D f g) (start : P root)
    (next : ∀ p ∈ D, P p → ∀ c ∈ f p, P c) (hd : d ∈ D) : P d := by
  have all : ∀ j, Reach f root j → P j := by
    intro j reach
    induction reach with
    | root => exact start
    | child above mem ih => exact next _ (tree.mem_of_reach above) ih _ mem
  exact all d (tree.reach d hd)

theorem Tree.exists_parent (tree : Tree s root D f g) (hd : d ∈ D) (notRoot : d ≠ root) :
    ∃ p ∈ D, d ∈ f p := by
  cases tree.reach d hd with
  | root => exact absurd rfl notRoot
  | child above mem => exact ⟨_, tree.mem_of_reach above, mem⟩

theorem rootDirectory_tree (s : FsState) (name : Name) (root : Nat) :
    Tree (createDirectory s name none root) root (insert root ∅) (fun _ => []) fun _ => [] := by
  have nothing : ∀ l : Links Nat Nat, Rings l ∅ fun _ => ([] : List Nat) :=
    fun l => ⟨nofun, nofun, nofun⟩
  have only : ∀ j ∈ insert root (∅ : Set Nat), j = root := fun j hj => hj.resolve_right nofun
  refine
    { dirs := listInit_rings_empty (nothing s.dirs) root nofun
      files := listInit_rings_empty (nothing s.files) root nofun
      child := fun _ _ _ mem => nomatch mem
      up := ?_
      reach := ?_
      root := Set.mem_insert ..
      live := ?_
      file := fun _ _ _ mem => nomatch mem }
  · intro j hj p above
    obtain rfl := only j hj
    change Function.update s.parent j none j = some p at above
    rw [Function.update_self] at above
    cases above
  · intro j hj
    obtain rfl := only j hj
    exact .root
  · intro j hj
    obtain rfl := only j hj
    exact Function.update_self ..

def grown (f : Nat → List Nat) (p d : Nat) : Nat → List Nat :=
  Function.update (Function.update f d []) p (d :: f p)

theorem grown_new {p : Nat} (differ : d ≠ p) : grown f p d d = [] := by
  rw [grown, Function.update_of_ne differ, Function.update_self]

theorem grown_other {p j : Nat} (notParent : j ≠ p) (notNew : j ≠ d) : grown f p d j = f j := by
  rw [grown, Function.update_of_ne notParent, Function.update_of_ne notNew]

theorem mem_grown {p j c : Nat} (new : d ∉ D) (hj : j ∈ D) :
    c ∈ grown f p d j ↔ (j = p ∧ c = d) ∨ c ∈ f j := by
  have notNew : j ≠ d := by
    rintro rfl
    exact new hj
  by_cases same : j = p
  · subst same
    simp [grown]
  · rw [grown_other same notNew]
    simp [same]

private theorem Tree.grown_dirs (tree : Tree s root D f g) {p : Nat} (hp : p ∈ D) (new : d ∉ D) :
    Rings (listInsert (listInit s.dirs (.head d)) (.head p) (.node d)) (insert d D)
      (grown f p d) := by
  have opened := listInit_rings tree.dirs d new
  have fresh : ∀ j ∈ insert d D, d ∉ Function.update f d [] j := by
    intro j hj mem
    by_cases same : j = d
    · rw [same, Function.update_self] at mem
      cases mem
    · rw [Function.update_of_ne same] at mem
      exact new (tree.child j (hj.resolve_left same) d mem).1
  have linked := listInsert_rings opened (Set.mem_insert_of_mem d hp) fresh
  have differ : p ≠ d := by
    rintro rfl
    exact new hp
  rwa [Function.update_of_ne differ] at linked

private theorem Tree.grown_reach (tree : Tree s root D f g) {p : Nat} (hp : p ∈ D) (new : d ∉ D) :
    ∀ j ∈ insert d D, Reach (grown f p d) root j := by
  have old : ∀ j ∈ D, Reach (grown f p d) root j := by
    intro j hj
    apply tree.induct .root _ hj
    intro q hq reach c mem
    exact .child reach ((mem_grown new hq).mpr (.inr mem))
  rintro j (rfl | hj)
  · exact .child (old p hp) ((mem_grown new hp).mpr (.inl ⟨rfl, rfl⟩))
  · exact old j hj

theorem createDirectory_tree (tree : Tree s root D f g) {p : Nat} (hp : p ∈ D) (name : Name)
    (free : s.live d = false) :
    Tree (createDirectory s name (some p) d) root (insert d D) (grown f p d)
      (Function.update g d []) := by
  have new : d ∉ D := tree.not_mem_of_free free
  have differ : p ≠ d := by
    rintro rfl
    exact new hp
  have apart : ∀ j ∈ D, j ≠ d := by
    rintro j hj rfl
    exact new hj
  have none : ∀ c, c ∉ grown f p d d := by
    intro c
    rw [grown_new (Ne.symm differ)]
    exact List.not_mem_nil
  have parent : ∀ j ∈ D, Function.update s.parent d (some p) j = s.parent j :=
    fun j hj => Function.update_of_ne (apart j hj) _ _
  refine
    { dirs := tree.grown_dirs hp new
      files := listInit_rings tree.files d new
      child := ?_
      up := ?_
      reach := tree.grown_reach hp new
      root := Set.mem_insert_of_mem d tree.root
      live := ?_
      file := ?_ }
  · intro j hj c mem
    show c ∈ insert d D ∧ Function.update s.parent d (some p) c = some j
    rcases hj with rfl | hj
    · exact absurd mem (none c)
    · rcases (mem_grown new hj).mp mem with ⟨rfl, rfl⟩ | mem
      · exact ⟨Set.mem_insert .., Function.update_self ..⟩
      · obtain ⟨inside, above⟩ := tree.child j hj c mem
        exact ⟨Set.mem_insert_of_mem d inside, (parent c inside).trans above⟩
  · intro j hj q above
    change Function.update s.parent d (some p) j = some q at above
    rcases hj with rfl | hj
    · rw [Function.update_self] at above
      obtain rfl := Option.some.inj above
      exact ⟨Set.mem_insert_of_mem _ hp, (mem_grown new hp).mpr (.inl ⟨rfl, rfl⟩)⟩
    · rw [parent j hj] at above
      obtain ⟨inside, mem⟩ := tree.up j hj q above
      exact ⟨Set.mem_insert_of_mem d inside, (mem_grown new inside).mpr (.inr mem)⟩
  · intro j hj
    show Function.update s.live d true j = true
    rcases hj with rfl | hj
    · exact Function.update_self ..
    · rw [Function.update_of_ne (apart j hj)]
      exact tree.live j hj
  · intro j hj y mem
    show Function.update s.live d true y = true ∧ y ∉ insert d D
    rcases hj with rfl | hj
    · rw [Function.update_self] at mem
      cases mem
    · rw [Function.update_of_ne (apart j hj)] at mem
      obtain ⟨used, outside⟩ := tree.file j hj y mem
      have other : y ≠ d := by
        rintro rfl
        rw [used] at free
        cases free
      rw [Function.update_of_ne other]
      exact ⟨used, fun inside => inside.elim other outside⟩

theorem createFile_tree (tree : Tree s root D f g) (hd : d ∈ D) (free : s.live x = false) :
    Tree (createFile s d x) root D f (Function.update g d (x :: g d)) := by
  have outside : x ∉ D := tree.not_mem_of_free free
  have stays : ∀ y, s.live y = true → Function.update s.live x true y = true := by
    intro y used
    by_cases same : y = x
    · rw [same, Function.update_self]
    · rw [Function.update_of_ne same, used]
  refine
    { dirs := tree.dirs
      files := listInsert_rings tree.files hd (tree.file_of_free free)
      child := tree.child
      up := tree.up
      reach := tree.reach
      root := tree.root
      live := fun j hj => stays j (tree.live j hj)
      file := ?_ }
  intro j hj y mem
  show Function.update s.live x true y = true ∧ y ∉ D
  rcases mem_insert_iff.mp mem with ⟨_, rfl⟩ | mem
  · exact ⟨Function.update_self .., outside⟩
  · obtain ⟨used, other⟩ := tree.file j hj y mem
    exact ⟨stays y used, other⟩

/-! ### Removing -/

theorem listRemove_first {l : Links Nat Nat} {xs : List Nat} (rings : Rings l D g) (hd : d ∈ D)
    (first : g d = x :: xs) :
    (listRemove l (.node x)).next (.node x) = (listRemove l (.node x)).next (.head d) := by
  have back : l.prev (.node x) = .head d := rings.prev_first hd first
  rw [listRemove_eq]
  simp [unlink, back]

theorem removeFile_first (rings : Rings s.files D g) (hd : d ∈ D) {xs : List Nat}
    (list : g d = x :: xs) :
    s.files.next (.head d) = .node x ∧ Rings (removeFile s x).files D (Function.update g d xs) ∧
      (removeFile s x).files.next (.node x) = (removeFile s x).files.next (.head d) := by
  have mem : x ∈ g d := by
    rw [list]
    exact List.mem_cons_self
  have removed : Rings (removeFile s x).files D (Function.update g d ((g d).erase x)) :=
    listRemove_rings rings hd mem
  rw [list, List.erase_cons_head] at removed
  exact ⟨listNext_cons rings hd list, removed, listRemove_first rings hd list⟩

theorem removeFiles_spec (hd : d ∈ D) {xs : List Nat} (rings : Rings s.files D g)
    (list : g d = xs) :
    ∃ files live,
      (∀ fuel, xs.length < fuel → removeFiles d fuel s (s.files.next (.head d)) =
        some { s with files := files, live := live }) ∧
      Rings files D (Function.update g d []) ∧ ∀ y, live y = (s.live y && decide (y ∉ xs)) := by
  induction xs generalizing s g with
  | nil =>
    have closed : s.files.next (.head d) = .head d := (rings.empty_iff hd).mpr list
    refine ⟨s.files, s.live, fun fuel enough => ?_, ?_, by simp⟩
    · obtain ⟨fuel, rfl⟩ := Nat.exists_eq_succ_of_ne_zero (Nat.ne_zero_of_lt enough)
      rw [removeFiles, if_pos closed]
    · rw [← list, Function.update_eq_self]
      exact rings
  | cons x xs ih =>
    obtain ⟨first, removed, next⟩ := removeFile_first rings hd list
    obtain ⟨files, live, eq, after, others⟩ := ih removed (Function.update_self ..)
    rw [Function.update_idem] at after
    refine ⟨files, live, fun fuel enough => ?_, after, fun y => ?_⟩
    · obtain ⟨fuel, rfl⟩ := Nat.exists_eq_succ_of_ne_zero (Nat.ne_zero_of_lt enough)
      rw [removeFiles, first, if_neg nofun]
      show removeFiles d fuel (removeFile s x) ((removeFile s x).files.next (.node x)) = _
      rw [next, eq fuel (Nat.lt_of_succ_lt_succ enough)]
      rfl
    · rw [others y]
      show (Function.update s.live x false y && _) = _
      by_cases same : y = x
      · simp [same]
      · rw [Function.update_of_ne same]
        simp [same]

theorem removeDirectory_spec (tree : Tree s root D f g) (hd : d ∈ D) (leaf : f d = []) {fuel : Nat}
    (enough : (g d).length + 1 < fuel) :
    ∃ files live, removeDirectory fuel s d =
        some { s with
          files := files
          dirs := listRemove s.dirs (.node d)
          live := Function.update live d false } ∧
      Rings files D (Function.update g d []) ∧ ∀ y, y ∉ g d → live y = s.live y := by
  obtain ⟨fuel, rfl⟩ := Nat.exists_eq_succ_of_ne_zero (Nat.ne_zero_of_lt enough)
  obtain ⟨files, live, returns, after, others⟩ := removeFiles_spec hd tree.files rfl
  have eq := returns fuel (Nat.lt_of_succ_lt_succ enough)
  refine ⟨files, live, ?_, after, fun y away => by simp [others y, away]⟩
  obtain ⟨more, rfl⟩ : ∃ more, fuel = more + 1 :=
    Nat.exists_eq_succ_of_ne_zero (by omega)
  have closed : s.dirs.next (.head d) = .head d := (tree.dirs.empty_iff hd).mpr leaf
  have below : removeDirs d (more + 1) { s with files := files, live := live }
      (s.dirs.next (.head d)) = some { s with files := files, live := live } := by
    rw [removeDirs, if_pos closed]
  rw [removeDirectory, eq]
  simp only [Option.bind_eq_bind, Option.bind_some, below]
  rfl

theorem Tree.prune (tree : Tree s root D f g) {p : Nat} (hd : d ∈ D) (leaf : f d = [])
    (above : s.parent d = some p) (notRoot : d ≠ root) {files : Links Nat Nat} {live : Nat → Bool}
    (filesAfter : Rings files D (Function.update g d []))
    (others : ∀ y, y ∉ g d → live y = s.live y) :
    Tree { s with
      files := files
      dirs := listRemove s.dirs (.node d)
      live := Function.update live d false } root (D \ {d})
      (Function.update f p ((f p).erase d)) (Function.update g d []) := by
  obtain ⟨hp, mem⟩ := tree.up d hd p above
  have removed := listRemove_rings tree.dirs hp mem
  have lists : ∀ j ∈ D, ∀ c, c ∈ Function.update f p ((f p).erase d) j ↔ c ∈ f j ∧ c ≠ d :=
    fun j hj c => mem_erase_iff tree.dirs hp mem hj
  have alive : ∀ y, s.live y = true → y ≠ d → y ∉ g d →
      Function.update live d false y = true := by
    intro y used differ away
    rw [Function.update_of_ne differ, others y away, used]
  have reachKept : ∀ j ∈ D, j ≠ d → Reach (Function.update f p ((f p).erase d)) root j := by
    intro j hj
    apply tree.induct (fun _ => .root) _ hj
    intro q hq reach c member differ
    -- Nothing is reached through the directory that goes.
    have notThrough : q ≠ d := by
      rintro rfl
      rw [leaf] at member
      cases member
    exact .child (reach notThrough) ((lists q hq c).mpr ⟨member, differ⟩)
  refine
    { dirs := removed.restrict fun _ mem => mem.1
      files := filesAfter.restrict fun _ mem => mem.1
      child := ?_
      up := ?_
      reach := fun j hj => reachKept j hj.1 hj.2
      root := ⟨tree.root, Ne.symm notRoot⟩
      live := ?_
      file := ?_ }
  · intro j hj c member
    obtain ⟨old, differ⟩ := (lists j hj.1 c).mp member
    obtain ⟨inside, up⟩ := tree.child j hj.1 c old
    exact ⟨⟨inside, differ⟩, up⟩
  · intro j hj q up
    obtain ⟨inside, old⟩ := tree.up j hj.1 q up
    have differ : q ≠ d := by
      rintro rfl
      rw [leaf] at old
      cases old
    exact ⟨⟨inside, differ⟩, (lists q inside j).mpr ⟨old, hj.2⟩⟩
  · intro j hj
    exact alive j (tree.live j hj.1) hj.2 fun file => (tree.file d hd j file).2 hj.1
  · intro j hj y file
    rw [Function.update_of_ne hj.2] at file
    obtain ⟨used, outside⟩ := tree.file j hj.1 y file
    have differ : y ≠ d := by
      rintro rfl
      exact outside hd
    have away : y ∉ g d := tree.files.disjoint j hj.1 d hd hj.2 y file
    exact ⟨alive y used differ away, fun inside => outside inside.1⟩

private theorem dirFindLoop_mem {name : Name} {fuel c : Nat} {cell : Cell Nat Nat} {ys : List Nat}
    (seg : Seg s.dirs cell ys (.head d))
    (found : dirFindLoop s d name fuel (s.dirs.next cell) = some (some c)) : c ∈ ys := by
  induction ys generalizing fuel cell with
  | nil =>
    cases fuel with
    | zero => cases found
    | succ fuel =>
      rw [dirFindLoop, if_pos seg.1] at found
      cases found
  | cons y ys ih =>
    cases fuel with
    | zero => cases found
    | succ fuel =>
      obtain ⟨next, _, rest⟩ := seg
      rw [next, dirFindLoop, if_neg nofun] at found
      change (if name = s.name y then some (some y)
        else dirFindLoop s d name fuel (s.dirs.next (.node y))) = some (some c) at found
      split at found
      · obtain rfl := Option.some.inj (Option.some.inj found)
        exact List.mem_cons_self
      · exact List.mem_cons_of_mem y (ih rest found)

theorem dirFindDir_mem (tree : Tree s root D f g) (hd : d ∈ D) {name : Name} {fuel c : Nat}
    (found : dirFindDir s d name fuel = some (some c)) : c ∈ f d :=
  dirFindLoop_mem (tree.dirs.ring d hd) found

theorem dirFindLoop_returns {name : Name} {fuel : Nat} {cell : Cell Nat Nat} {ys : List Nat}
    (seg : Seg s.dirs cell ys (.head d)) (enough : ys.length < fuel) :
    ∃ result, dirFindLoop s d name fuel (s.dirs.next cell) = some result := by
  induction ys generalizing fuel cell with
  | nil =>
    obtain ⟨fuel, rfl⟩ := Nat.exists_eq_succ_of_ne_zero (Nat.ne_zero_of_lt enough)
    exact ⟨none, by rw [dirFindLoop, if_pos seg.1]⟩
  | cons y ys ih =>
    obtain ⟨fuel, rfl⟩ := Nat.exists_eq_succ_of_ne_zero (Nat.ne_zero_of_lt enough)
    obtain ⟨next, _, rest⟩ := seg
    rw [next, dirFindLoop, if_neg nofun]
    show ∃ result, (if name = s.name y then some (some y)
      else dirFindLoop s d name fuel (s.dirs.next (.node y))) = some result
    split
    · exact ⟨_, rfl⟩
    · exact ih rest (Nat.lt_of_succ_lt_succ enough)

end

end OhMyOs.Fs.Directories
