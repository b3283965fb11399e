/- GID: OhMyOs/Fs/DirectoryRemoval
   generality: I
   digest: remove_directory of fs/fs.c on whole trees: what it frees, what it leaves, and what it
   reads after it is freed. -/

import OhMyOs.Fs.CurrentDirectory
import OhMyOs.Lib.AccessLog

set_option autoImplicit false
set_option relaxedAutoImplicit false

namespace OhMyOs.Fs.DirectoryRemoval

open OhMyOs.Lib.Ring OhMyOs.Lib.AccessLog OhMyOs.Include.IntrusiveList OhMyOs.Fs.Directories

/-! ### The code, with the objects that it reads and frees -/

abbrev Log := List (Event Nat)

def owner : Cell Nat Nat → Nat
  | .head d => d
  | .node x => x

/-- `list_remove(&x->node); kfree(x);`: both pointers of the node are read twice. -/
def removeEvents (x : Nat) : Log := [.read x, .read x, .read x, .read x, .free x]

def removeFilesLog (dir : Nat) : Nat → FsState → Cell Nat Nat → Option (FsState × Log)
  | 0, _, _ => none
  | fuel + 1, s, node =>
    if node = .head dir then some (s, [])
    else
      (containerOf node).bind fun file =>
        (removeFilesLog dir fuel (removeFile s file) ((removeFile s file).files.next node)).map
          fun r => (r.1, removeEvents file ++ .read (owner node) :: r.2)

mutual

def removeDirectoryLog : Nat → FsState → Nat → Option (FsState × Log)
  | 0, _, _ => none
  | fuel + 1, s, dir => do
    let (s, files) ← removeFilesLog dir fuel s (s.files.next (.head dir))
    let (s, dirs) ← removeDirsLog dir fuel s (s.dirs.next (.head dir))
    return ({ s with
        dirs := listRemove s.dirs (.node dir)
        live := Function.update s.live dir false },
      .read dir :: files ++ .read dir :: dirs ++ removeEvents dir)

def removeDirsLog (dir : Nat) : Nat → FsState → Cell Nat Nat → Option (FsState × Log)
  | 0, _, _ => none
  | fuel + 1, s, node =>
    if node = .head dir then some (s, [])
    else
      (containerOf node).bind fun d =>
        (removeDirectoryLog fuel s d).bind fun r =>
          (removeDirsLog dir fuel r.1 (r.1.dirs.next node)).map fun q =>
            (q.1, r.2 ++ .read (owner node) :: q.2)

end

/-! ### The log changes nothing -/

section
variable (fuel : Nat) (s : FsState)

private theorem removeFilesLog_fst (dir : Nat) (node : Cell Nat Nat) :
    (removeFilesLog dir fuel s node).map Prod.fst = removeFiles dir fuel s node := by
  induction fuel generalizing s node with
  | zero => rfl
  | succ fuel ih =>
    rw [removeFilesLog, removeFiles]
    split_ifs with last
    · rfl
    · cases containerOf node with
      | none => rfl
      | some file =>
        rw [Option.bind_some, Option.bind_some, ← ih, Option.map_map]
        rfl

private theorem removeLog_fst :
    (∀ s d, (removeDirectoryLog fuel s d).map Prod.fst = removeDirectory fuel s d) ∧
      ∀ s dir node, (removeDirsLog dir fuel s node).map Prod.fst = removeDirs dir fuel s node := by
  induction fuel with
  | zero => exact ⟨fun _ _ => rfl, fun _ _ _ => rfl⟩
  | succ fuel ih =>
    constructor
    · intro s d
      rw [removeDirectoryLog, removeDirectory, ← removeFilesLog_fst]
      cases removeFilesLog d fuel s (s.files.next (.head d)) with
      | none => rfl
      | some r =>
        simp only [Option.bind_eq_bind, Option.bind_some, Option.map_some]
        rw [← ih.2]
        cases removeDirsLog d fuel r.1 (r.1.dirs.next (.head d)) with
        | none => rfl
        | some q => rfl
    · intro s dir node
      rw [removeDirsLog, removeDirs]
      split_ifs with last
      · rfl
      · cases containerOf node with
        | none => rfl
        | some d =>
          simp only [Option.bind_some]
          rw [← ih.1]
          cases removeDirectoryLog fuel s d with
          | none => rfl
          | some r =>
            simp only [Option.bind_some, Option.map_some]
            rw [← ih.2, Option.map_map]
            rfl

end

/-! ### The files of one directory -/

def filesLog (xs : List Nat) : Log := xs.flatMap fun x => removeEvents x ++ [.read x]

@[simp] theorem freed_removeEvents (x : Nat) : freed (removeEvents x) = [x] := rfl

private theorem filesLog_cons (x : Nat) (xs : List Nat) :
    filesLog (x :: xs) = removeEvents x ++ .read x :: filesLog xs := by
  simp [filesLog]

@[simp] theorem freed_filesLog (xs : List Nat) : freed (filesLog xs) = xs := by
  induction xs with
  | nil => rfl
  | cons x xs ih => rw [filesLog_cons, freed_append, freed_removeEvents, freed_read, ih]; rfl

private theorem stale_filesLog {xs : List Nat} (some : xs ≠ []) : Stale (filesLog xs) := by
  cases xs with
  | nil => exact absurd rfl some
  | cons x xs =>
    rw [filesLog_cons]
    exact stale_read_after (by simp)

section
variable {s s' s'' : FsState} {D : Set Nat} {f g : Nat → List Nat} {d p : Nat}

private theorem removeFilesLog_eq (hd : d ∈ D) {xs : List Nat} {fuel : Nat}
    (enough : xs.length < fuel)
    (rings : Rings s.files D g) (list : g d = xs) :
    removeFilesLog d fuel s (s.files.next (.head d)) =
      (removeFiles d fuel s (s.files.next (.head d))).map fun s' => (s', filesLog xs) := by
  induction xs generalizing s g fuel with
  | nil =>
    obtain ⟨fuel, rfl⟩ := Nat.exists_eq_succ_of_ne_zero (Nat.ne_zero_of_lt enough)
    have closed : s.files.next (.head d) = .head d := (rings.empty_iff hd).mpr list
    rw [removeFilesLog, removeFiles, if_pos closed, if_pos closed]
    rfl
  | cons x xs ih =>
    obtain ⟨fuel, rfl⟩ := Nat.exists_eq_succ_of_ne_zero (Nat.ne_zero_of_lt enough)
    obtain ⟨first, removed, next⟩ := removeFile_first rings hd list
    have rest := ih (Nat.lt_of_succ_lt_succ enough) removed (Function.update_self ..)
    rw [removeFilesLog, removeFiles, first, if_neg (by simp), if_neg (by simp)]
    simp only [containerOf, Option.bind_some, next, rest, Option.map_map, filesLog_cons]
    rfl

private theorem removeFilesLog_spec (hd : d ∈ D) (rings : Rings s.files D g) :
    ∃ files live,
      (∀ fuel, (g d).length < fuel → removeFilesLog d fuel s (s.files.next (.head d)) =
        some ({ s with files := files, live := live }, filesLog (g d))) ∧
      Rings files D (Function.update g d []) ∧
      ∀ y, live y = (s.live y && decide (y ∉ g d)) := by
  obtain ⟨files, live, eq, after, exact'⟩ := removeFiles_spec hd rings rfl
  refine ⟨files, live, fun fuel enough => ?_, after, exact'⟩
  rw [removeFilesLog_eq hd enough rings rfl, eq fuel enough]
  rfl

/-! ### Wiping a part of the tree -/

def Ranked (D : Set Nat) (f : Nat → List Nat) (rank : Nat → Nat) : Prop :=
  ∀ p ∈ D, ∀ c ∈ f p, c ∈ D ∧ rank p < rank c

/-- The directories `dead`, which are `roots` and all below them, are off every list and have empty
lists; with their files they are what the log frees. Freed directories keep their place in `D`, as
their memory keeps its contents. -/
structure Wiped (D : Set Nat) (f g : Nat → List Nat) (s s' : FsState) (roots dead : List Nat)
    (log : Log) : Prop where
  dirs : Rings s'.dirs D fun x => (f x).filter (· ∉ dead)
  files : Rings s'.files D fun x => if x ∈ dead then [] else g x
  rest : s' = { s with dirs := s'.dirs, files := s'.files, live := s'.live }
  live : ∀ y, s'.live y = (s.live y && decide (y ∉ freed log))
  frees : (freed log).Perm (dead.flatMap fun x => x :: g x)
  nodup : dead.Nodup
  within : ∀ x ∈ dead, x ∈ D
  top : ∀ r ∈ roots, r ∈ dead
  closed : ∀ x ∈ dead, ∀ c ∈ f x, c ∈ dead
  rooted : ∀ x ∈ dead, x ∈ roots ∨ ∃ q ∈ dead, x ∈ f q

variable {roots roots' dead dead' : List Nat} {log log' : Log} {rank : Nat → Nat}

private theorem Ranked.filter (ranked : Ranked D f rank) (keep : Nat → Bool) :
    Ranked D (fun x => (f x).filter keep) rank :=
  fun p hp c mem => ranked p hp c (List.mem_of_mem_filter mem)

private theorem Wiped.rank_le (wiped : Wiped D f g s s' roots dead log) (ranked : Ranked D f rank)
    (low : Nat) (least : ∀ r ∈ roots, low ≤ rank r) : ∀ x ∈ dead, low ≤ rank x := by
  intro x
  induction h : rank x using Nat.strong_induction_on generalizing x with
  | _ n ih =>
    intro member
    subst h
    rcases wiped.rooted x member with root | ⟨q, inside, child⟩
    · exact least x root
    · have higher := (ranked q (wiped.within q inside) x child).2
      have := ih (rank q) higher q rfl inside
      omega

private theorem Wiped.mem_freed (wiped : Wiped D f g s s' roots dead log) {x : Nat}
    (member : x ∈ dead) :
    x ∈ freed log :=
  wiped.frees.mem_iff.mpr (List.mem_flatMap.mpr ⟨x, member, List.mem_cons_self⟩)

private theorem wiped_nil (dirs : Rings s.dirs D f) (files : Rings s.files D g) :
    Wiped D f g s s [] [] [] where
  dirs := by simpa using dirs
  files := by simpa using files
  rest := rfl
  live := by simp
  frees := .nil
  nodup := .nil
  within := nofun
  top := nofun
  closed := nofun
  rooted := nofun

private theorem Wiped.trans (first : Wiped D f g s s' roots dead log)
    (second : Wiped D (fun x => (f x).filter (· ∉ dead)) (fun x => if x ∈ dead then [] else g x)
      s' s'' roots' dead' log') {all : List Nat} {whole : Log}
    (parts : freed whole = freed log ++ freed log')
    (top : ∀ r ∈ all, r ∈ dead ∨ r ∈ roots') (left : ∀ r ∈ roots, r ∈ all)
    (right : ∀ r ∈ roots', r ∈ all ∧ r ∉ dead) :
    Wiped D f g s s'' all (dead ++ dead') whole := by
  have fresh : ∀ x ∈ dead', x ∉ dead := by
    intro x member
    rcases second.rooted x member with root | ⟨q, -, child⟩
    · exact (right x root).2
    · exact of_decide_eq_true (List.mem_filter.mp child).2
  refine
    { dirs := second.dirs.congr fun x _ => ?_
      files := second.files.congr fun x _ => ?_
      rest := ?_
      live := ?_
      frees := ?_
      nodup := ?_
      within := ?_
      top := ?_
      closed := ?_
      rooted := ?_ }
  · rw [List.filter_filter]
    simp [Bool.and_comm]
  · by_cases old : x ∈ dead
    · simp [old]
    · simp [old]
  · rw [second.rest, first.rest]
  · intro y
    rw [second.live, first.live, parts]
    simp [Bool.and_assoc]
  · rw [parts, List.flatMap_append]
    refine first.frees.append (second.frees.trans ?_)
    refine .of_eq (List.flatMap_congr fun x member => ?_)
    rw [if_neg (fresh x member)]
  · exact List.nodup_append'.mpr ⟨first.nodup, second.nodup, fun x old new => fresh x new old⟩
  · intro x member
    exact (List.mem_append.mp member).elim (first.within x) (second.within x)
  · intro r member
    rcases top r member with old | new
    · exact List.mem_append_left _ old
    · exact List.mem_append_right _ (second.top r new)
  · intro x member c child
    rcases List.mem_append.mp member with old | new
    · exact List.mem_append_left _ (first.closed x old c child)
    · by_cases gone : c ∈ dead
      · exact List.mem_append_left _ gone
      · have kept : c ∈ (f x).filter (· ∉ dead) := List.mem_filter.mpr ⟨child, decide_eq_true gone⟩
        exact List.mem_append_right _ (second.closed x new c kept)
  · intro x member
    rcases List.mem_append.mp member with old | new
    · rcases first.rooted x old with root | ⟨q, inside, child⟩
      · exact .inl (left x root)
      · exact .inr ⟨q, List.mem_append_left _ inside, child⟩
    · rcases second.rooted x new with root | ⟨q, inside, child⟩
      · exact .inl (right x root).1
      · exact .inr ⟨q, List.mem_append_right _ inside, List.mem_of_mem_filter child⟩

private theorem Wiped.addTop {files : Links Nat Nat} {live : Nat → Bool}
    (wiped : Wiped D f (Function.update g d []) { s with files := files, live := live } s' (f d)
      dead log) (hd : d ∈ D) (hp : p ∈ D) (child : d ∈ f p) (fresh : d ∉ dead)
    (before : ∀ y, live y = (s.live y && decide (y ∉ g d))) {whole : Log}
    (parts : freed whole = g d ++ (freed log ++ [d])) :
    Wiped D f g s
      { s' with dirs := listRemove s'.dirs (.node d), live := Function.update s'.live d false }
      [d] (dead ++ [d]) whole := by
  have onList : d ∈ (f p).filter (· ∉ dead) := List.mem_filter.mpr ⟨child, decide_eq_true fresh⟩
  have others : ∀ x ∈ dead, Function.update g d [] x = g x := by
    intro x member
    refine Function.update_of_ne ?_ _ _
    rintro rfl
    exact fresh member
  refine
    { dirs := (listRemove_filter_rings wiped.dirs hp onList).congr fun x _ => ?_
      files := wiped.files.congr fun x _ => ?_
      rest := ?_
      live := ?_
      frees := ?_
      nodup := ?_
      within := ?_
      top := ?_
      closed := ?_
      rooted := ?_ }
  · rw [List.filter_filter]
    simp [Bool.and_comm]
  · by_cases same : x = d
    · simp [same]
    · simp [same]
  · rw [wiped.rest]
  · intro y
    rw [parts]
    by_cases same : y = d
    · simp [same]
    · show Function.update s'.live d false y = _
      rw [Function.update_of_ne same, wiped.live]
      simp [before, same, Bool.and_assoc]
  · rw [parts, List.flatMap_append, List.flatMap_singleton]
    have below : (freed log).Perm (dead.flatMap fun x => x :: g x) :=
      wiped.frees.trans (.of_eq (List.flatMap_congr fun x member => by rw [others x member]))
    have last : (freed log ++ [d]) ++ g d = freed log ++ d :: g d := by simp
    exact List.perm_append_comm.trans (last ▸ below.append_right _)
  · exact List.nodup_append'.mpr ⟨wiped.nodup, List.nodup_singleton d, by simpa using fresh⟩
  · intro x member
    rcases List.mem_append.mp member with inside | last
    · exact wiped.within x inside
    · rwa [List.mem_singleton.mp last]
  · intro r only
    exact List.mem_append_right _ only
  · intro x member c mem
    rcases List.mem_append.mp member with inside | last
    · exact List.mem_append_left _ (wiped.closed x inside c mem)
    · rw [List.mem_singleton.mp last] at mem
      exact List.mem_append_left _ (wiped.top c mem)
  · intro x member
    rcases List.mem_append.mp member with inside | last
    · rcases wiped.rooted x inside with child | ⟨q, among, child⟩
      · exact .inr ⟨d, by simp, child⟩
      · exact .inr ⟨q, List.mem_append_left _ among, child⟩
    · exact .inl last

/-! ### The recursion -/

/-- What a call for `d`, which is on the list of `p`, does: it wipes `d` and all below. The last two
facts are for the loop that the call is made from, and for its own two loops. -/
structure Removed (D : Set Nat) (f g : Nat → List Nat) (s : FsState) (p d : Nat) (s' : FsState)
    (dead : List Nat) (log : Log) : Prop where
  wiped : Wiped D f g s s' [d] dead log
  next : ∀ xs, f p = d :: xs → s'.dirs.next (.node d) = s'.dirs.next (.head p)
  stale : Stale log ↔ f d ≠ [] ∨ g d ≠ []

def Removes (D : Set Nat) (rank : Nat → Nat) (d : Nat) : Prop :=
  ∀ s f g, Rings s.dirs D f → Rings s.files D g → Ranked D f rank → ∀ p ∈ D, d ∈ f p →
    ∃ enough s' dead log, (∀ fuel, enough ≤ fuel → removeDirectoryLog fuel s d = some (s', log)) ∧
      Removed D f g s p d s' dead log

private theorem removeDirsLog_wiped (hd : d ∈ D)
    (below : ∀ c ∈ D, rank d < rank c → Removes D rank c) (n : Nat)
    (dirs : Rings s.dirs D f) (files : Rings s.files D g) (ranked : Ranked D f rank)
    (short : (f d).length ≤ n) :
    ∃ enough s' dead log,
      (∀ fuel, enough ≤ fuel →
        removeDirsLog d fuel s (s.dirs.next (.head d)) = some (s', log)) ∧
      Wiped D f g s s' (f d) dead log ∧ (f d ≠ [] → Stale log) ∧ (f d = [] → log = []) := by
  induction n generalizing s f g with
  | zero =>
    have empty : f d = [] := List.length_eq_zero_iff.mp (Nat.le_zero.mp short)
    have closed : s.dirs.next (.head d) = .head d := (dirs.empty_iff hd).mpr empty
    refine ⟨1, s, [], [], fun fuel enough => ?_, ?_, absurd empty, fun _ => rfl⟩
    · obtain ⟨fuel, rfl⟩ := Nat.exists_eq_add_of_le' enough
      rw [removeDirsLog, if_pos closed]
    · rw [empty]
      exact wiped_nil dirs files
  | succ n ih =>
    cases list : f d with
    | nil => exact list ▸ ih dirs files ranked (by simp [list])
    | cons c cs =>
      have child : c ∈ f d := by simp [list]
      obtain ⟨hc, higher⟩ := ranked d hd c child
      obtain ⟨enough, s₁, dead, log, call, removed⟩ :=
        below c hc higher s f g dirs files ranked d hd child
      have gone : c ∈ dead := removed.wiped.top c (List.mem_singleton_self c)
      have fewer : ((f d).filter (· ∉ dead)).length ≤ n := by
        rw [list, List.filter_cons_of_neg (by simp [gone])]
        have := List.length_filter_le (fun x => decide (x ∉ dead)) cs
        rw [list, List.length_cons] at short
        omega
      obtain ⟨enough', s₂, dead', log', loop, wiped, -, -⟩ :=
        ih removed.wiped.dirs removed.wiped.files (ranked.filter _) fewer
      refine ⟨max enough enough' + 1, s₂, dead ++ dead', log ++ .read c :: log', ?_, ?_, ?_, nofun⟩
      · intro fuel much
        obtain ⟨fuel, rfl⟩ : ∃ k, fuel = k + 1 := ⟨fuel - 1, by omega⟩
        have first : s.dirs.next (.head d) = .node c := listNext_cons dirs hd list
        rw [removeDirsLog, first, if_neg (by simp)]
        simp only [containerOf, Option.bind_some, call fuel (by omega), removed.next cs list,
          loop fuel (by omega), Option.map_some]
        rfl
      · refine removed.wiped.trans wiped (by simp) ?_ ?_ ?_
        · intro r member
          by_cases dying : r ∈ dead
          · exact .inl dying
          · exact .inr (List.mem_filter.mpr ⟨list ▸ member, decide_eq_true dying⟩)
        · intro r only
          rw [List.mem_singleton.mp only]
          exact List.mem_cons_self
        · intro r kept
          obtain ⟨member, apart⟩ := List.mem_filter.mp kept
          exact ⟨list ▸ member, of_decide_eq_true apart⟩
      · exact fun _ => stale_read_after (removed.wiped.mem_freed gone)

private theorem removes_of_below (hd : d ∈ D)
    (below : ∀ c ∈ D, rank d < rank c → Removes D rank c) :
    Removes D rank d := by
  intro s f g dirs files ranked p hp child
  obtain ⟨files₁, live₁, filesLoop, files', live'⟩ := removeFilesLog_spec hd files
  obtain ⟨enough, s₂, dead, log, dirsLoop, wiped, stale, quiet⟩ := removeDirsLog_wiped
    (s := { s with files := files₁, live := live₁ }) hd below _ dirs files' ranked le_rfl
  have fresh : d ∉ dead := by
    intro member
    have above := wiped.rank_le ranked (rank d + 1) (fun r mem => (ranked d hd r mem).2) d member
    omega
  refine ⟨max enough ((g d).length + 1) + 1,
    { s₂ with dirs := listRemove s₂.dirs (.node d), live := Function.update s₂.live d false },
    dead ++ [d], .read d :: filesLog (g d) ++ .read d :: log ++ removeEvents d, ?_, ?_⟩
  · intro fuel much
    obtain ⟨fuel, rfl⟩ : ∃ k, fuel = k + 1 := ⟨fuel - 1, by omega⟩
    rw [removeDirectoryLog, filesLoop fuel (by omega)]
    simp only [Option.bind_eq_bind, Option.bind_some, dirsLoop fuel (by omega)]
    rfl
  · refine ⟨?_, ?_, ?_⟩
    · exact wiped.addTop hd hp child fresh live' (by simp)
    · intro xs first
      have stillFirst : (f p).filter (· ∉ dead) = d :: xs.filter (· ∉ dead) := by
        rw [first, List.filter_cons_of_pos (by simp [fresh])]
      exact listRemove_first wiped.dirs hp stillFirst
    · constructor
      · intro found
        by_contra none
        rw [not_or, not_not, not_not] at none
        obtain ⟨noDirs, noFiles⟩ := none
        rw [noFiles, quiet noDirs] at found
        exact not_stale_of_free_last
          [.read d, .read d, .read d, .read d, .read d, .read d] rfl found
      · rintro (someDirs | someFiles)
        · have around :=
            (stale someDirs).append (.read d :: filesLog (g d) ++ [.read d]) (removeEvents d)
          simpa using around
        · have around :=
            (stale_filesLog someFiles).append [.read d] (.read d :: log ++ removeEvents d)
          simpa using around

private theorem removes_all {bound : Nat} (bounded : ∀ x ∈ D, rank x < bound) :
    ∀ d ∈ D, Removes D rank d := by
  intro d
  induction h : bound - rank d using Nat.strong_induction_on generalizing d with
  | _ n ih =>
    intro hd
    refine removes_of_below hd fun c hc higher => ih (bound - rank c) ?_ c rfl hc
    have := bounded c hc
    omega

end

/-! ### Trees that are built -/

/-- The trees that `create_directory` and `create_file` build from a root, with their
directories; kmalloc returns memory that is not in use. -/
inductive Built (root : Nat) : FsState → Set Nat → Prop
  | root {s : FsState} (name : Name) (free : s.live root = false) :
      Built root (createDirectory s name none root) (insert root ∅)
  | dir {s : FsState} {D : Set Nat} {p d : Nat} (name : Name) (built : Built root s D) (hp : p ∈ D)
      (free : s.live d = false) : Built root (createDirectory s name (some p) d) (insert d D)
  | file {s : FsState} {D : Set Nat} {p x : Nat} (built : Built root s D) (hp : p ∈ D)
      (free : s.live x = false) : Built root (createFile s p x) D

section
variable {s s' : FsState} {root d p : Nat} {D : Set Nat} {f g : Nat → List Nat}
  {dead : List Nat} {log : Log} {rank : Nat → Nat}

private theorem Built.tree (built : Built root s D) : ∃ f g rank bound,
    Tree s root D f g ∧ Ranked D f rank ∧ ∀ x ∈ D, rank x < bound := by
  induction built with
  | root name free =>
    exact ⟨_, _, fun _ => 0, 1, rootDirectory_tree _ name root, fun _ _ _ mem => (nomatch mem),
      fun _ _ => Nat.one_pos⟩
  | @dir s D p d name built hp free ih =>
    obtain ⟨f, g, rank, bound, tree, ranked, bounded⟩ := ih
    have new : d ∉ D := tree.not_mem_of_free free
    have grownTree := createDirectory_tree tree hp name free
    have apart : ∀ x ∈ D, x ≠ d := by
      rintro x hx rfl
      exact new hx
    have old : ∀ x ∈ D, Function.update rank d bound x = rank x :=
      fun x hx => Function.update_of_ne (apart x hx) _ _
    refine ⟨_, _, Function.update rank d bound, bound + 1, grownTree, ?_, ?_⟩
    · intro q hq c mem
      refine ⟨(grownTree.child q hq c mem).1, ?_⟩
      rcases hq with rfl | hq
      · rw [grown_new (Ne.symm (apart p hp))] at mem
        cases mem
      · rw [old q hq]
        rcases (mem_grown new hq).mp mem with ⟨rfl, rfl⟩ | mem
        · rw [Function.update_self]
          exact bounded q hq
        · obtain ⟨hc, higher⟩ := ranked q hq c mem
          rwa [old c hc]
    · rintro x (rfl | hx)
      · rw [Function.update_self]
        exact Nat.lt_succ_self bound
      · rw [old x hx]
        exact Nat.lt_succ_of_lt (bounded x hx)
  | @file s D p x built hp free ih =>
    obtain ⟨f, g, rank, bound, tree, ranked, bounded⟩ := ih
    exact ⟨_, _, rank, bound, createFile_tree tree hp free, ranked, bounded⟩

private theorem Wiped.mem_dead_iff (wiped : Wiped D f g s s' [d] dead log)
    (ranked : Ranked D f rank)
    {x : Nat} : x ∈ dead ↔ Reach f d x := by
  constructor
  · induction h : rank x using Nat.strong_induction_on generalizing x with
    | _ n ih =>
      intro member
      subst h
      rcases wiped.rooted x member with root | ⟨q, inside, child⟩
      · rw [List.mem_singleton.mp root]
        exact .root
      · have higher := (ranked q (wiped.within q inside) x child).2
        exact .child (ih (rank q) higher rfl inside) child
  · intro reach
    induction reach with
    | root => exact wiped.top d (List.mem_singleton_self d)
    | child _ mem ih => exact wiped.closed _ ih _ mem

/-- The directory goes with all that is below it, and nothing else: each object is freed once, the
lists of the directories that stay are as before but for that of the parent, and so is the rest. -/
structure TornDown (s : FsState) (D : Set Nat) (f g : Nat → List Nat) (p d : Nat) (s' : FsState)
    (log : Log) : Prop where
  once : (freed log).Nodup
  subtree : ∀ x, x ∈ freed log ↔ ∃ e, Reach f d e ∧ (x = e ∨ x ∈ g e)
  dirs : Rings s'.dirs {x ∈ D | ¬ Reach f d x} (Function.update f p ((f p).erase d))
  files : Rings s'.files {x ∈ D | ¬ Reach f d x} g
  live : ∀ x, s'.live x = (s.live x && decide (x ∉ freed log))
  rest : s' = { s with dirs := s'.dirs, files := s'.files, live := s'.live }

private theorem Wiped.freed_nodup {roots : List Nat} (wiped : Wiped D f g s s' roots dead log)
    (tree : Tree s root D f g) : (freed log).Nodup := by
  refine wiped.frees.nodup_iff.mpr (List.nodup_flatMap.mpr ⟨fun x member => ?_, ?_⟩)
  · have hx := wiped.within x member
    exact List.nodup_cons.mpr ⟨fun own => (tree.file x hx x own).2 hx, tree.files.nodup x hx⟩
  · refine wiped.nodup.imp_of_mem fun {x y} inX inY differ => ?_
    have hx := wiped.within x inX
    have hy := wiped.within y inY
    intro z left right
    rcases List.mem_cons.mp left with rfl | fileX
    · rcases List.mem_cons.mp right with rfl | fileY
      · exact differ rfl
      · exact (tree.file y hy z fileY).2 hx
    · rcases List.mem_cons.mp right with rfl | fileY
      · exact (tree.file x hx z fileX).2 hy
      · exact tree.files.disjoint x hx y hy differ z fileX fileY

private theorem Wiped.tornDown (wiped : Wiped D f g s s' [d] dead log) (tree : Tree s root D f g)
    (ranked : Ranked D f rank) (hp : p ∈ D) (child : d ∈ f p) : TornDown s D f g p d s' log := by
  have dead_iff : ∀ x, x ∈ dead ↔ Reach f d x := fun x => wiped.mem_dead_iff ranked
  have stays : ∀ x ∈ {x ∈ D | ¬ Reach f d x}, x ∈ D ∧ x ∉ dead := by
    intro x hx
    exact ⟨hx.1, fun member => hx.2 ((dead_iff x).mp member)⟩
  -- Of the lists that stay, only that of the parent loses something.
  have only : ∀ x ∈ D, x ∉ dead → ∀ c ∈ f x, c ∈ dead → x = p ∧ c = d := by
    intro x hx alive c mem dying
    rcases wiped.rooted c dying with root | ⟨q, inside, child'⟩
    · obtain rfl := List.mem_singleton.mp root
      refine ⟨?_, rfl⟩
      by_contra differ
      exact tree.dirs.disjoint x hx p hp differ c mem child
    · have differ : x ≠ q := by
        rintro rfl
        exact alive inside
      exact absurd child' (tree.dirs.disjoint x hx q (wiped.within q inside) differ c mem)
  refine
    { once := wiped.freed_nodup tree
      subtree := fun x => ?_
      dirs := (wiped.dirs.restrict fun x hx => hx.1).congr fun x hx => ?_
      files := (wiped.files.restrict fun x hx => hx.1).congr fun x hx => if_neg (stays x hx).2
      live := wiped.live
      rest := wiped.rest }
  · rw [wiped.frees.mem_iff, List.mem_flatMap]
    simp only [dead_iff, List.mem_cons]
  · obtain ⟨inside, alive⟩ := stays x hx
    by_cases same : x = p
    · subst same
      rw [Function.update_self, (tree.dirs.nodup x inside).erase_eq_filter]
      refine List.filter_congr fun c mem => ?_
      have gone : c ∈ dead ↔ c = d := by
        refine ⟨fun dying => (only x inside alive c mem dying).2, ?_⟩
        rintro rfl
        exact wiped.top c (List.mem_singleton_self c)
      simp [gone, bne, beq_eq_decide]
    · rw [Function.update_of_ne same]
      refine List.filter_eq_self.mpr fun c mem => decide_eq_true fun dying => ?_
      exact same (only x inside alive c mem dying).1

/-- For every tree that is built and every directory but the root: with enough fuel the call
returns, and tears down exactly what is below the directory. It reads an object that it has freed
exactly if the directory has a file or a directory in it. -/
theorem removeDirectory_subtree (built : Built root s D) (hd : d ∈ D) (notRoot : d ≠ root) :
    ∃ f g p, Rings s.dirs D f ∧ Rings s.files D g ∧ s.parent d = some p ∧ d ∈ f p ∧
      ∃ enough s' log,
        (∀ fuel, enough ≤ fuel → removeDirectory fuel s d = some s' ∧
          removeDirectoryLog fuel s d = some (s', log)) ∧
        TornDown s D f g p d s' log ∧ (¬ Stale log ↔ f d = [] ∧ g d = []) := by
  obtain ⟨f, g, rank, bound, tree, ranked, bounded⟩ := built.tree
  obtain ⟨p, hp, child⟩ := tree.exists_parent hd notRoot
  obtain ⟨enough, s', dead, log, call, removed⟩ :=
    removes_all bounded d hd s f g tree.dirs tree.files ranked p hp child
  refine ⟨f, g, p, tree.dirs, tree.files, (tree.child p hp d child).2, child, enough, s', log,
    fun fuel much => ?_, ?_, ?_⟩
  · have returned := call fuel much
    refine ⟨?_, returned⟩
    rw [← (removeLog_fst fuel).1, returned]
    rfl
  · exact removed.wiped.tornDown tree ranked hp child
  · rw [removed.stale, not_or, not_not, not_not]

end

def nested : FsState :=
  let s := createDirectory CurrentDirectory.blank ['/'] none 1
  let s := createDirectory s ['a'] (some 1) 2
  let s := createDirectory s ['b'] (some 2) 3
  createFile s 3 4

def nestedDirs : Set Nat := insert 3 (insert 2 (insert 1 ∅))

private theorem nested_built : Built 1 nested nestedDirs :=
  .file (.dir ['b'] (.dir ['a'] (.root ['/'] rfl) (.inl rfl) rfl) (.inl rfl) rfl) (.inl rfl) rfl

theorem removeDirectory_subtree_nested : ∃ f g p enough s' log,
    removeDirectoryLog enough nested 2 = some (s', log) ∧
      TornDown nested nestedDirs f g p 2 s' log := by
  obtain ⟨f, g, p, -, -, -, -, enough, s', log, returns, torn, -⟩ :=
    removeDirectory_subtree nested_built (d := 2) (.inr (.inl rfl)) (by decide)
  exact ⟨f, g, p, enough, s', log, (returns enough le_rfl).2, torn⟩

/-- The file is freed, and then its `next` is read. -/
theorem removeDirectory_reads_freed : ∃ s' log,
    Built 1 nested nestedDirs ∧ 2 ∈ nestedDirs ∧
      removeDirectoryLog 9 nested 2 = some (s', log) ∧ Stale log := by
  have logged : (removeDirectoryLog 9 nested 2).map Prod.snd =
      some (([.read 2, .read 2, .read 3] ++ removeEvents 4) ++
        .read 4 :: (.read 3 :: removeEvents 3 ++ .read 3 :: removeEvents 2)) := by
    decide +kernel
  obtain ⟨⟨s', log⟩, done, rfl⟩ := Option.map_eq_some_iff.mp logged
  exact ⟨s', _, nested_built, .inr (.inl rfl), done, stale_read_after (by decide)⟩

end OhMyOs.Fs.DirectoryRemoval
