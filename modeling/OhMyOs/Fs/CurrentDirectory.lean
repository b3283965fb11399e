/- GID: OhMyOs/Fs/CurrentDirectory
   generality: I
   digest: The shell's current directory while threads come and go. -/

import OhMyOs.Fs.Directories
import OhMyOs.Lib.Runs

set_option autoImplicit false
set_option relaxedAutoImplicit false

namespace OhMyOs.Fs.CurrentDirectory

open OhMyOs.Lib.Ring OhMyOs.Lib.Runs OhMyOs.Fs.Directories

/-! ### The code -/

/-- The size of the argument vector and the string at its index 1, which is read for every size but
1 and those above 2. -/
structure ArgVec where
  size : Nat
  second : Name

def doCd (s : FsState) (vec : ArgVec) (fuel : Nat) : Option FsState :=
  if vec.size > 2 then some s
  else if vec.size = 1 then some { s with currentDir := s.root }
  else if vec.second = ['.', '.'] then
    some ((s.parent s.currentDir).elim s fun p => { s with currentDir := p })
  else if vec.second = ['.'] then some s
  else if vec.second = ['~'] then some { s with currentDir := s.root }
  else
    (dirFindDir s s.currentDir vec.second fuel).map fun dir =>
      dir.elim s fun d => { s with currentDir := d }

/-- `str` says that the string for the name was allocated, and `name` is what it holds; `dir` and
`file` are what kmalloc returns. -/
def createThreadProcfs (s : FsState) (t : Nat) (name : Name) (str : Bool) (dir file : Option Nat) :
    FsState :=
  if str then
    match dir with
    | none => s
    | some d =>
      let s := createDirectory s name (some s.proc) d
      let s := file.elim s fun f => createFile s d f
      { s with threadDir := Function.update s.threadDir t (some d) }
  else s

def removeThreadProcfs (s : FsState) (t fuel : Nat) : Option FsState :=
  (s.threadDir t).bind fun d =>
    (removeDirectory fuel s d).map fun s =>
      { s with threadDir := Function.update s.threadDir t none }

/-! ### Runs -/

inductive FsOp
  | cd (vec : ArgVec) (fuel : Nat)
  | create (t : Nat) (name : Name) (str : Bool) (dir file : Option Nat)
  | exit (t fuel : Nat)

def fsOp (s : FsState) : FsOp → Option FsState
  | .cd vec fuel => doCd s vec fuel
  | .create t name str dir file => some (createThreadProcfs s t name str dir file)
  | .exit t fuel => removeThreadProcfs s t fuel

def allowed (s : FsState) : FsOp → Bool
  | .create t _ _ dir file =>
    s.threadDir t = none && dir.all (fun d => !s.live d) && file.all (fun f => !s.live f) &&
      (dir.isNone || dir ≠ file)
  | .cd _ _ | .exit _ _ => true

/-- The thread that exits is not the one whose directory the shell is in. -/
def spares (s : FsState) : FsOp → Bool
  | .exit t _ => s.threadDir t ≠ some s.currentDir
  | .cd _ _ | .create _ _ _ _ _ => true

inductive Reachable (s : FsState) : Nat → Prop
  | root : Reachable s s.root
  | child {p c : Nat} {xs : List Nat} : Reachable s p → Seg s.dirs (.head p) xs (.head p) →
      c ∈ xs → Reachable s c

def CurrentLive (s : FsState) : Prop :=
  Reachable s s.currentDir ∧ s.live s.currentDir = true

structure Started (s : FsState) : Prop where
  boot : ∃ before root bin proc sys, s = fsInit before root bin proc sys ∧
    [root, bin, proc, sys].Nodup ∧ (∀ x, before.live x = false) ∧
      ∀ t, before.threadDir t = none

/-! ### The invariant -/

/-- The directories form a tree, the shell is in one of them, and those of the threads are leaves
below `proc`. -/
structure Living (s : FsState) (D : Set Nat) (f g : Nat → List Nat) : Prop where
  tree : Tree s s.root D f g
  current : s.currentDir ∈ D
  proc : s.proc ∈ D
  procParent : s.parent s.proc = some s.root
  rootParent : s.parent s.root = none
  thread : ∀ t d, s.threadDir t = some d → d ∈ D ∧ s.parent d = some s.proc ∧ f d = []
  own : ∀ t t' d, s.threadDir t = some d → s.threadDir t' = some d → t = t'

section
variable {s u : FsState} {D : Set Nat} {f g : Nat → List Nat} {t d : Nat}

private theorem Living.currentLive (inv : Living s D f g) : CurrentLive s := by
  refine ⟨?_, inv.tree.live _ inv.current⟩
  apply inv.tree.induct .root _ inv.current
  intro p hp reachable c mem
  exact .child reachable (inv.tree.dirs.ring p hp) mem

private theorem Started.living (started : Started s) : ∃ D f g, Living s D f g := by
  obtain ⟨before, root, bin, proc, sys, rfl, nodup, free, noThread⟩ := started.boot
  simp only [List.nodup_cons, List.mem_cons, List.not_mem_nil, not_or, or_false] at nodup
  obtain ⟨⟨rb, rp, rs⟩, ⟨bp, bs⟩, ps, -⟩ := nodup
  have one := rootDirectory_tree before ['/'] root
  have two := createDirectory_tree one one.root ['b', 'i', 'n']
    (show Function.update before.live root true bin = false by
      rw [Function.update_of_ne (Ne.symm rb), free])
  have three := createDirectory_tree two two.root ['p', 'r', 'o', 'c']
    (show Function.update (Function.update before.live root true) bin true proc = false by
      rw [Function.update_of_ne (Ne.symm bp), Function.update_of_ne (Ne.symm rp), free])
  have four := createDirectory_tree three three.root ['s', 'y', 's']
    (show Function.update (Function.update (Function.update before.live root true) bin true) proc
        true sys = false by
      rw [Function.update_of_ne (Ne.symm ps), Function.update_of_ne (Ne.symm bs),
        Function.update_of_ne (Ne.symm rs), free])
  refine ⟨_, _, _, { four with }, four.root, ?_, ?_, ?_, ?_, ?_⟩
  · exact Set.mem_insert_of_mem _ (Set.mem_insert ..)
  · show Function.update (Function.update (Function.update (Function.update before.parent root
      none) bin (some root)) proc (some root)) sys (some root) proc = some root
    rw [Function.update_of_ne ps, Function.update_self]
  · show Function.update (Function.update (Function.update (Function.update before.parent root
      none) bin (some root)) proc (some root)) sys (some root) root = none
    rw [Function.update_of_ne rs, Function.update_of_ne rp, Function.update_of_ne rb,
      Function.update_self]
  · intro t d has
    change before.threadDir t = some d at has
    rw [noThread] at has
    cases has
  · intro t t' d has
    change before.threadDir t = some d at has
    rw [noThread] at has
    cases has

private theorem Living.goto (inv : Living s D f g) (mem : d ∈ D) :
    Living { s with currentDir := d } D f g :=
  { inv with tree := { inv.tree with }, current := mem }

private theorem doCd_living (inv : Living s D f g) {vec : ArgVec} {fuel : Nat}
    (step : doCd s vec fuel = some u) : Living u D f g := by
  unfold doCd at step
  split at step
  · obtain rfl := Option.some.inj step
    exact inv
  split at step
  · obtain rfl := Option.some.inj step
    exact inv.goto inv.tree.root
  split at step
  · obtain rfl := Option.some.inj step
    cases above : s.parent s.currentDir with
    | none => exact inv
    | some p => exact inv.goto (inv.tree.up _ inv.current p above).1
  split at step
  · obtain rfl := Option.some.inj step
    exact inv
  split at step
  · obtain rfl := Option.some.inj step
    exact inv.goto inv.tree.root
  · obtain ⟨dir, found, rfl⟩ := Option.map_eq_some_iff.mp step
    cases dir with
    | none => exact inv
    | some c => exact inv.goto (inv.tree.child _ inv.current c
        (dirFindDir_mem inv.tree inv.current found)).1

private theorem doCd_returns (inv : Living s D f g) (vec : ArgVec) {fuel : Nat}
    (enough : (f s.currentDir).length < fuel) : ∃ u, doCd s vec fuel = some u := by
  obtain ⟨dir, found⟩ : ∃ dir, dirFindDir s s.currentDir vec.second fuel = some dir :=
    dirFindLoop_returns (inv.tree.dirs.ring _ inv.current) enough
  unfold doCd
  rw [found]
  repeat' split
  all_goals exact ⟨_, rfl⟩

private theorem Living.thread_ne (inv : Living s D f g) (has : s.threadDir t = some d) :
    d ≠ s.root ∧ d ≠ s.proc := by
  obtain ⟨_, above, _⟩ := inv.thread t d has
  constructor
  · rintro rfl
    rw [inv.rootParent] at above
    cases above
  · rintro rfl
    have same := Option.some.inj (above.symm.trans inv.procParent)
    have loops := inv.procParent
    rw [same, inv.rootParent] at loops
    cases loops

private theorem Living.addThread (inv : Living s D f g) (name : Name) (new : s.threadDir t = none)
    (free : s.live d = false) :
    Living { createDirectory s name (some s.proc) d with
      threadDir := Function.update s.threadDir t (some d) } (insert d D) (grown f s.proc d)
      (Function.update g d []) := by
  have fresh : d ∉ D := inv.tree.not_mem_of_free free
  have apart : ∀ j ∈ D, j ≠ d := by
    rintro j hj rfl
    exact fresh hj
  have parent : ∀ j ∈ D, Function.update s.parent d (some s.proc) j = s.parent j :=
    fun j hj => Function.update_of_ne (apart j hj) _ _
  have made := createDirectory_tree inv.tree inv.proc name free
  have owner : ∀ t' e, Function.update s.threadDir t (some d) t' = some e →
      (t' = t ∧ e = d) ∨ (t' ≠ t ∧ s.threadDir t' = some e) := by
    intro t' e has
    by_cases same : t' = t
    · rw [same, Function.update_self] at has
      exact .inl ⟨same, (Option.some.inj has).symm⟩
    · rw [Function.update_of_ne same] at has
      exact .inr ⟨same, has⟩
  refine
    { tree := { made with }
      current := Set.mem_insert_of_mem d inv.current
      proc := Set.mem_insert_of_mem d inv.proc
      procParent := (parent _ inv.proc).trans inv.procParent
      rootParent := (parent _ inv.tree.root).trans inv.rootParent
      thread := ?_
      own := ?_ }
  · intro t' e has
    rcases owner t' e has with ⟨_, rfl⟩ | ⟨_, old⟩
    · exact ⟨Set.mem_insert .., Function.update_self .., grown_new (Ne.symm (apart _ inv.proc))⟩
    · obtain ⟨inside, above, leaf⟩ := inv.thread t' e old
      refine ⟨Set.mem_insert_of_mem d inside, (parent e inside).trans above, ?_⟩
      rw [grown_other (inv.thread_ne old).2 (apart e inside), leaf]
  · intro t₁ t₂ e has has'
    rcases owner t₁ e has with ⟨rfl, rfl⟩ | ⟨_, old⟩
    · rcases owner t₂ _ has' with ⟨rfl, _⟩ | ⟨_, old'⟩
      · rfl
      · exact absurd (inv.thread t₂ _ old').1 fresh
    · rcases owner t₂ e has' with ⟨_, rfl⟩ | ⟨_, old'⟩
      · exact absurd (inv.thread t₁ _ old).1 fresh
      · exact inv.own t₁ t₂ e old old'

private theorem createThreadProcfs_living (inv : Living s D f g) {name : Name} {str : Bool}
    {dir file : Option Nat} (ok : allowed s (.create t name str dir file) = true) :
    ∃ D f g, Living (createThreadProcfs s t name str dir file) D f g := by
  simp only [allowed, Bool.and_eq_true, decide_eq_true_eq] at ok
  obtain ⟨⟨⟨new, dirFree⟩, fileFree⟩, differ⟩ := ok
  unfold createThreadProcfs
  split
  · cases dir with
    | none => exact ⟨D, f, g, inv⟩
    | some d =>
      have free : s.live d = false := by simpa using dirFree
      have added := inv.addThread name new free
      cases file with
      | none => exact ⟨_, _, _, added⟩
      | some x =>
        have other : x ≠ d := by
          rintro rfl
          simp at differ
        have unused : Function.update s.live d true x = false := by
          rw [Function.update_of_ne other]
          simpa using fileFree
        have filed := createFile_tree (x := x) added.tree (Set.mem_insert d D) unused
        exact ⟨_, _, _, { added with tree := { filed with } }⟩
  · exact ⟨D, f, g, inv⟩

private theorem removeThreadProcfs_returns (inv : Living s D f g) (has : s.threadDir t = some d)
    {fuel : Nat} (enough : (g d).length + 1 < fuel) :
    ∃ files live, removeThreadProcfs s t fuel = some { s with
        files := files
        dirs := OhMyOs.Include.IntrusiveList.listRemove s.dirs (.node d)
        live := Function.update live d false
        threadDir := Function.update s.threadDir t none } ∧
      Rings files D (Function.update g d []) ∧ ∀ y, y ∉ g d → live y = s.live y := by
  obtain ⟨inside, _, leaf⟩ := inv.thread t d has
  obtain ⟨files, live, eq, after, others⟩ := removeDirectory_spec inv.tree inside leaf enough
  refine ⟨files, live, ?_, after, others⟩
  rw [removeThreadProcfs, has, Option.bind_some, eq]
  rfl

private theorem Living.dropThread (inv : Living s D f g) (has : s.threadDir t = some d)
    (elsewhere : s.currentDir ≠ d) {files : Links Nat Nat} {live : Nat → Bool}
    (filesAfter : Rings files D (Function.update g d []))
    (others : ∀ y, y ∉ g d → live y = s.live y) :
    Living { s with
      files := files
      dirs := OhMyOs.Include.IntrusiveList.listRemove s.dirs (.node d)
      live := Function.update live d false
      threadDir := Function.update s.threadDir t none } (D \ {d})
      (Function.update f s.proc ((f s.proc).erase d)) (Function.update g d []) := by
  obtain ⟨inside, above, leaf⟩ := inv.thread t d has
  obtain ⟨notRoot, notProc⟩ := inv.thread_ne has
  have pruned := inv.tree.prune inside leaf above notRoot filesAfter others
  have owner : ∀ t' e, Function.update s.threadDir t none t' = some e →
      t' ≠ t ∧ s.threadDir t' = some e := by
    intro t' e has'
    have differ : t' ≠ t := by
      rintro rfl
      rw [Function.update_self] at has'
      cases has'
    rw [Function.update_of_ne differ] at has'
    exact ⟨differ, has'⟩
  refine
    { tree := { pruned with }
      current := ⟨inv.current, elsewhere⟩
      proc := ⟨inv.proc, Ne.symm notProc⟩
      procParent := inv.procParent
      rootParent := inv.rootParent
      thread := ?_
      own := fun t₁ t₂ e has₁ has₂ => inv.own t₁ t₂ e (owner t₁ e has₁).2 (owner t₂ e has₂).2 }
  intro t' e has'
  obtain ⟨differ, old⟩ := owner t' e has'
  obtain ⟨inside', above', leaf'⟩ := inv.thread t' e old
  refine ⟨⟨inside', ?_⟩, above', ?_⟩
  · rintro rfl
    exact differ (inv.own t' t _ old has)
  · rw [Function.update_of_ne (inv.thread_ne old).2, leaf']

private theorem removeFiles_some {fuel : Nat} {xs : List Nat} (inside : d ∈ D)
    (rings : Rings s.files D g) (list : g d = xs)
    (returned : removeFiles d fuel s (s.files.next (.head d)) = some u) : xs.length < fuel := by
  induction xs generalizing s g fuel with
  | nil =>
    cases fuel with
    | zero => cases returned
    | succ fuel => exact Nat.succ_pos fuel
  | cons x xs ih =>
    cases fuel with
    | zero => cases returned
    | succ fuel =>
      obtain ⟨first, removed, next⟩ := removeFile_first rings inside list
      rw [removeFiles, first, if_neg (by simp)] at returned
      change removeFiles d fuel (removeFile s x) ((removeFile s x).files.next (.node x)) =
        some u at returned
      rw [next] at returned
      exact Nat.succ_lt_succ (ih (s := removeFile s x) removed (Function.update_self ..) returned)

private theorem removeThreadProcfs_living (inv : Living s D f g) {fuel : Nat}
    (ok : spares s (.exit t fuel) = true) (step : removeThreadProcfs s t fuel = some u) :
    ∃ D f g, Living u D f g := by
  have elsewhere : s.threadDir t ≠ some s.currentDir := of_decide_eq_true ok
  cases has : s.threadDir t with
  | none =>
    rw [removeThreadProcfs, has] at step
    cases step
  | some d =>
    obtain ⟨inside, _, _⟩ := inv.thread t d has
    have enough : (g d).length + 1 < fuel := by
      rw [removeThreadProcfs, has, Option.bind_some] at step
      obtain ⟨v, removed, _⟩ := Option.map_eq_some_iff.mp step
      cases fuel with
      | zero => cases removed
      | succ fuel =>
        rw [removeDirectory] at removed
        obtain ⟨w, files, _⟩ := Option.bind_eq_some_iff.mp removed
        exact Nat.succ_lt_succ (removeFiles_some inside inv.tree.files rfl files)
    obtain ⟨files, live, eq, after, others⟩ := removeThreadProcfs_returns inv has enough
    obtain rfl := Option.some.inj (eq.symm.trans step)
    have apart : s.currentDir ≠ d := by
      rintro rfl
      exact elsewhere has
    exact ⟨_, _, _, inv.dropThread has apart after others⟩

private theorem fsOp_living {op : FsOp} (inv : Living s D f g) (may : allowed s op = true)
    (ok : spares s op = true) (step : fsOp s op = some u) : ∃ D f g, Living u D f g := by
  cases op with
  | cd vec fuel => exact ⟨D, f, g, doCd_living inv step⟩
  | create t name str dir file =>
    obtain rfl := Option.some.inj step
    exact createThreadProcfs_living inv may
  | exit t fuel => exact removeThreadProcfs_living inv ok step

end

/-- While no thread exits whose directory the shell is in, the current directory stays in the tree;
and the exit of such a thread frees it. -/
theorem current_run_live {s t : FsState} (start : Started s)
    (run : Run fsOp (fun s op => (allowed s op && spares s op) = true) s t) :
    CurrentLive t ∧ ∀ thread, t.threadDir thread = some t.currentDir →
      ∃ need, ∀ fuel, need < fuel →
        ∃ u, fsOp t (.exit thread fuel) = some u ∧ ¬ CurrentLive u := by
  have inv : ∃ D f g, Living t D f g := by
    apply run.invariant start.living
    intro s op u before guard step
    obtain ⟨D, f, g, inv⟩ := before
    obtain ⟨may, ok⟩ := Bool.and_eq_true_iff.mp guard
    exact fsOp_living inv may ok step
  obtain ⟨D, f, g, inv⟩ := inv
  refine ⟨inv.currentLive, fun thread has => ⟨(g t.currentDir).length + 1, fun fuel enough => ?_⟩⟩
  obtain ⟨files, live, eq, _, _⟩ := removeThreadProcfs_returns inv has enough
  refine ⟨_, eq, ?_⟩
  rintro ⟨_, alive⟩
  change Function.update live t.currentDir false t.currentDir = true at alive
  rw [Function.update_self] at alive
  cases alive

def blank : FsState :=
  { dirs := ⟨id, id⟩
    files := ⟨id, id⟩
    name := fun _ => []
    parent := fun _ => none
    root := 0
    proc := 0
    currentDir := 0
    live := fun _ => false
    threadDir := fun _ => none }

def bootFs : FsState := fsInit blank 1 2 3 4

private theorem bootFs_started : Started bootFs :=
  ⟨blank, 1, 2, 3, 4, rfl, by decide, fun _ => rfl, fun _ => rfl⟩

def enterThread : List FsOp :=
  [.create 7 ['0'] true (some 10) (some 11), .create 8 ['1'] true (some 12) (some 13),
    .cd ⟨2, ['p', 'r', 'o', 'c']⟩ 9, .cd ⟨2, ['0']⟩ 9]

/-- The other thread exits, and the shell goes up. -/
theorem current_run_live_other : ∃ t,
    Run fsOp (fun s op => (allowed s op && spares s op) = true) bootFs t ∧ t.currentDir = 3 ∧
      t.live 12 = false ∧ CurrentLive t := by
  have ran : (exec fsOp (fun s op => allowed s op && spares s op) bootFs
      (enterThread ++ [.exit 8 9, .cd ⟨2, ['.', '.']⟩ 9])).map
        (fun t => (t.currentDir, t.live 12)) = some (3, false) := by decide +kernel
  obtain ⟨t, done, eq⟩ := Option.map_eq_some_iff.mp ran
  have run := Run.of_exec done
  exact ⟨t, run, congrArg Prod.fst eq, congrArg Prod.snd eq,
    (current_run_live bootFs_started run).1⟩

/-- The thread whose directory the shell is in exits. -/
theorem current_run_dangles : ∃ t,
    Run fsOp (fun s op => allowed s op = true) bootFs t ∧ t.currentDir = 10 ∧
      t.live 10 = false ∧ ¬ CurrentLive t := by
  have ran : (exec fsOp allowed bootFs (enterThread ++ [.exit 7 9])).map
      (fun t => (t.currentDir, t.live 10)) = some (10, false) := by decide +kernel
  obtain ⟨t, done, eq⟩ := Option.map_eq_some_iff.mp ran
  have here : t.currentDir = 10 := congrArg Prod.fst eq
  have freed : t.live 10 = false := congrArg Prod.snd eq
  refine ⟨t, Run.of_exec done, here, freed, ?_⟩
  rintro ⟨_, alive⟩
  rw [here, freed] at alive
  cases alive

end OhMyOs.Fs.CurrentDirectory
