/- GID: OhMyOs/Mm/VmallocPages
   generality: I
   digest: __vmalloc of mm/vmalloc.c, and what it gives back when memory runs out. -/

import OhMyOs.Mm.MemorySlots
import OhMyOs.Mm.Slab
import OhMyOs.Mm.StartPaging
import OhMyOs.Mm.VmallocFrees

set_option autoImplicit false
set_option relaxedAutoImplicit false

namespace OhMyOs.Mm.VmallocPages

open OhMyOs.Include.Constants
open OhMyOs.Lib.Outcome OhMyOs.Lib.Runs
open OhMyOs.Include.Bitops OhMyOs.Include.Memory OhMyOs.Include.Log2
open OhMyOs.Libs.RedBlackTree (RbTree Ptr Fresh Holds covers contents intervalOf rbTreeRemove)
open OhMyOs.Mm.MemorySlots (roundUpPage)
open OhMyOs.Mm.PageTable (Mem)
open OhMyOs.Mm.Slab (kmemCacheMaxSize)
open OhMyOs.Mm.StartPaging (mapVmArea)
open OhMyOs.Mm.Vmalloc OhMyOs.Mm.VmallocSafety OhMyOs.Mm.VmallocRuns OhMyOs.Mm.VmallocExact
open OhMyOs.Mm.VmallocFrees

/-! ### The code -/

inductive PagesFault
  | area (fault : Vmalloc.Fault)
  | nullPage
  | doubleFree
  | wildFree
  | endless
  | warning

/-- The areas with their `pages` and `nr_pages` fields, the page tables, the page pointers that
memory holds (`none` is NULL), the live page arrays, and the free pages. -/
structure PagesState where
  vm : VmState
  areaPages : Nat → Nat
  areaNrPages : Nat → Nat
  tables : Mem
  slot : Nat → Option Nat
  arrays : List Nat
  free : List Nat

/-- What the calls get: the uninitialised pointer of `alloc_vma`, memory for the rest of the area,
for the tree node and for the page array, the page that `alloc_page` chooses among the free ones
for a mask, and those it returns for page tables. -/
structure PagesEnv where
  garbage : Option Nat
  vmaBuddy : Option Nat
  newNode : Ptr
  array : Option Nat
  pick : Nat → List Nat → Option Nat
  table : Mem → Word

def allocPage (env : PagesEnv) (gfpMask : Nat) (s : PagesState) : PagesState × Option Nat :=
  match env.pick gfpMask s.free with
  | none => (s, none)
  | some page => ({ s with free := s.free.erase page }, some page)

def freePages (s : PagesState) : Option Nat → Except PagesFault PagesState
  | none => .error .nullPage
  | some page =>
    if page ∈ s.free then .error .doubleFree else .ok { s with free := page :: s.free }

def kfreeArray (s : PagesState) (array : Nat) : Except PagesFault PagesState :=
  if array ∈ s.arrays then .ok { s with arrays := s.arrays.erase array } else .error .wildFree

def slotAddr (pages i : Nat) : Nat := pages + 4 * i

/-- The loop that fills the array, for the last `n` pages. It stops at the first NULL, and returns
how far it got. -/
def fillPages (env : PagesEnv) (gfpMask pages : Nat) :
    Nat → Nat → PagesState → PagesState × Nat × Bool
  | 0, i, s => (s, i, true)
  | n + 1, i, s =>
    let (s, page) := allocPage env gfpMask s
    let s := { s with slot := Function.update s.slot (slotAddr pages i) page }
    if page.isNone then (s, i, false) else fillPages env gfpMask pages n (i + 1) s

/-- `while (i--) free_pages(pages[i]);` -/
def unwindPages (pages : Nat) : Nat → PagesState → Except PagesFault PagesState
  | 0, s => .ok s
  | i + 1, s => do
    let s ← freePages s (s.slot (slotAddr pages i))
    unwindPages pages i s

def mapPages (env : PagesEnv) (pgdir : Word) (s : PagesState) (vma pages nrPages : Nat) :
    Except PagesFault PagesState :=
  match (List.range nrPages).mapM fun i => s.slot (slotAddr pages i) with
  | none => .error .nullPage
  | some list =>
    match mapVmArea env.table pgdir s.tables (s.vm.area vma).start list with
    | none => .error .endless
    | some tables =>
      .ok { s with
        tables := tables
        areaPages := Function.update s.areaPages vma pages
        areaNrPages := Function.update s.areaNrPages vma nrPages }

def releaseVma (s : PagesState) (vma : Nat) : Except PagesFault PagesState := do
  let vm ← (freeVma s.vm (some vma)).mapError .area
  return { s with vm := vm }

/-- The labels `err_free_pages` and `err_free_vma`; the first one uses the field of the area. -/
def errFreePages (s : PagesState) (vma i : Nat) : Except PagesFault PagesState := do
  let s ← unwindPages (s.areaPages vma) i s
  let s ← kfreeArray s (s.areaPages vma)
  releaseVma s vma

/-- `WARN_ON` prints the number of its line as if it were a string, and reading that faults. -/
def warnOn (cond : Bool) : Except PagesFault Unit := if cond then .error .warning else .ok ()

/-- The function `__vmalloc`. Without memory for the array `kmalloc` returns NULL only if the array
is too large for the caches: `kmem_cache_alloc` follows the NULL page. -/
def vmallocGfp (env : PagesEnv) (pgdir : Word) (s : PagesState) (gfpMask size : Nat) :
    Except PagesFault (PagesState × Option Nat) := do
  warnOn (size < pageSize)
  let size := roundUpPage size
  let (vm, vma) ← (allocVma s.vm size env.garbage env.vmaBuddy env.newNode).mapError .area
  let s := { s with vm := vm }
  match vma with
  | none => return (s, none)
  | some vma =>
    let nrPages := size >>> pageShift
    match env.array with
    | none =>
      if 4 * nrPages ≤ kmemCacheMaxSize then .error .nullPage
      else
        let s ← releaseVma s vma
        return (s, none)
    | some pages =>
      match fillPages env gfpMask pages nrPages 0 { s with arrays := pages :: s.arrays } with
      | (s, _, true) =>
        let s ← mapPages env pgdir s vma pages nrPages
        return (s, some (s.vm.area vma).start)
      | (s, i, false) =>
        let s ← errFreePages s vma i
        return (s, none)

/-! ### Giving an area back -/

variable {s s' : VmState} {used : List Nat} {rest : Option Nat} {f : Nat → List Nat} {len vma : Nat}
  {garbage vmaBuddy : Option Nat} {newNode : Ptr}

def SameNodes (s s' : VmState) : Prop :=
  ∃ tree tree' nodes, s.vmaTree = some tree ∧ s'.vmaTree = some tree' ∧ Holds tree nodes ∧
    Holds tree' nodes

structure Undone (s s' : VmState) : Prop where
  heap : s'.heap = s.heap
  area : ∀ u ∈ s.heap, s'.area u = s.area u
  nodes : SameNodes s s'

private theorem treeUpTo_missing {tree : RbTree Nat} {nodes} {limit : Nat} (upTo : TreeUpTo s limit)
    (treeEq : s.vmaTree = some tree) (holds : Holds tree nodes) :
    ∀ u ∈ nodes, covers limit u = false := by
  intro u member
  have stored : intervalOf u.2 ∈ contents tree := by
    rw [holds.contents_eq]
    exact ⟨u, member, rfl⟩
  have inside := upTo tree treeEq _ stored
  simp only [intervalOf] at inside
  simp only [covers, Bool.decide_and, Bool.and_eq_false_iff, decide_eq_false_iff_not]
  omega

private theorem freeVma_undoes {i buddy : Nat} (held : TreeHeld s)
    (packed : Packed s used (some vma) f)
    (upTo : TreeUpTo s (s.area vma).start) (small : i ≤ maxVmaOrder) (mem : vma ∈ f i)
    (free : (s.area vma).free = true) (fresh : buddy ∉ s.heap) (freshNode : Fresh s.vmaTree newNode)
    (long : len + pageSize ≤ vmaLength s vma) (order : splitOrder s vma len ≤ maxVmaOrder)
    (take : takeVma (splitState s vma buddy len) vma newNode = .ok s') :
    ∃ s3, freeVma s'.spinUnlock (some vma) = .ok s3 ∧ Undone s s3 := by
  obtain ⟨new, differ⟩ := packed.fresh fresh
  obtain ⟨low, upwards, high, length⟩ := packed.last
  have page : 0 < pageSize := by decide
  obtain ⟨f', packed'⟩ :=
    packed.split small mem fresh ((Nat.le_add_right _ _).trans long) order take
  obtain ⟨area, -, -, heap⟩ := takeVma_ok take
  obtain ⟨tree, nodes, treeEq, holds⟩ := held
  have vmaCut := splitState_vma s len differ
  have vmaArea : s'.area vma = ⟨(s.area vma).start, (s.area vma).start + len, false⟩ := by
    rw [area, Function.update_self, vmaCut]
  have buddyArea : s'.area buddy = splitRest s vma len := by
    rw [area, Function.update_of_ne differ.symm, Splits.area_buddy]
  -- the tree
  obtain ⟨r, inserted, way⟩ :=
    takeVma_inserted (s := splitState s vma buddy len) treeEq holds freshNode take
  rw [vmaCut] at way
  obtain ⟨t, ret, removed, holds'⟩ :=
    holds.remove_inserted (treeUpTo_missing upTo treeEq holds) way
  -- the lists
  have member : vma ∈ used ++ [vma] := by simp
  have ringed := (packed'.frame true (some t)).ring
  have split : used ++ [vma] ++ (some buddy).toList = used ++ vma :: buddy :: [] := by simp
  have next := (ringed.neighbours (Set.mem_univ ()) split).1
  have found : neighbour { s' with vmaLock := true, vmaTree := some t } .next vma = some buddy := by
    rw [neighbour, vmaNext, next]
    rfl
  have absorbed := absorb_last (packed'.frame true (some t)) member found
    (by rw [buddyArea, splitRest]) (2 ^ 32)
  have below : (s'.spinUnlock.area vma).stop < vmallocEnd := by
    rw [VmState.spinUnlock, vmaArea]
    simp only
    omega
  have removed' : rbTreeRemove s'.spinUnlock.vmaTree
      (s'.spinUnlock.area vma).start = .ok (some t, ret) := by
    rw [VmState.spinUnlock, vmaArea, inserted]
    exact removed
  refine ⟨_, freeVma_eq rfl (packed'.frame false _) member below removed' absorbed, ?_, ?_, ?_⟩
  · show s'.heap.erase buddy = s.heap
    rw [heap]
    exact List.erase_cons_head ..
  · intro u owned
    have second : u ≠ buddy := fun eq => fresh (eq ▸ owned)
    by_cases first : u = vma
    · subst first
      simp [VmState.setArea, VmState.spinUnlock, absorbOne, extend, vmaArea, buddyArea, splitRest,
        ← free]
    · simp [VmState.setArea, VmState.spinUnlock, absorbOne, extend, first, area,
        Splits.area_other first second]
  · exact ⟨tree, t, nodes, treeEq, rfl, holds, holds'⟩

private theorem freeVma_allocated {s' : VmState} (idle : Idle s) (packed : Packed s used rest f)
    (upTo : ∀ r, rest = some r → TreeUpTo s (s.area r).start)
    (ok : vmOk s (.alloc len garbage vmaBuddy newNode)) (found : (chosenVma s len).isSome = true)
    (done : allocVma s len garbage vmaBuddy newNode = .ok (s', some vma))
    (below : (s'.area vma).stop ≠ vmallocEnd) :
    ∃ s3, freeVma s' (some vma) = .ok s3 ∧ Undone s s3 := by
  obtain ⟨-, fresh, freshNode⟩ := ok
  obtain ⟨-, null⟩ | ⟨u, i, s2, rfl, same, rfl, small, mem, free, -, way⟩ :=
    packed.alloc_cases idle.unlocked fresh done
  · cases null found
  obtain rfl := Option.some.inj same
  obtain ⟨buddy, rfl, long, order, take⟩ | take := way
  · have held : TreeHeld { s with vmaLock := true } := idle.tree
    have before : TreeUpTo { s with vmaLock := true } (s.area vma).start := upTo vma rfl
    obtain ⟨s3, freed, undone⟩ := freeVma_undoes held (packed.frame true s.vmaTree) before small mem
      free (fresh buddy rfl) freshNode long order take
    exact ⟨s3, freed, undone.heap, undone.area, undone.nodes⟩
  · obtain ⟨area, -⟩ := takeVma_ok take
    refine absurd ?_ below
    rw [VmState.spinUnlock, area, Function.update_self]
    exact packed.last.2.2.1

/-! ### Filling the array and emptying it -/

variable {env : PagesEnv} {gfpMask pages : Nat} {p0 p p' : PagesState}

/-- The first `i` entries of the array are the pages taken since the state `p0`; nothing else has
changed. -/
structure Filled (p0 : PagesState) (pages i : Nat) (p : PagesState) : Prop where
  vm : p.vm = p0.vm
  areaPages : p.areaPages = p0.areaPages
  tables : p.tables = p0.tables
  arrays : p.arrays = p0.arrays
  got : ∃ got : List Nat, got.length = i ∧ (∀ k < i, p.slot (slotAddr pages k) = got[k]?) ∧
    (got ++ p.free).Perm p0.free

private theorem filled_start (p0 : PagesState) (pages : Nat) : Filled p0 pages 0 p0 :=
  ⟨rfl, rfl, rfl, rfl, [], rfl, by simp, .refl _⟩

private theorem slotAddr_ne {i k : Nat} (lt : k < i) : slotAddr pages k ≠ slotAddr pages i := by
  unfold slotAddr
  omega

private theorem Filled.next {i page : Nat} (filled : Filled p0 pages i p) (free : page ∈ p.free) :
    Filled p0 pages (i + 1)
      { p with
        free := p.free.erase page
        slot := Function.update p.slot (slotAddr pages i) (some page) } := by
  obtain ⟨vm, areaPages, tables, arrays, got, rfl, entries, perm⟩ := filled
  refine ⟨vm, areaPages, tables, arrays, got ++ [page], by simp, fun k lt => ?_, ?_⟩
  · rcases Nat.lt_succ_iff_lt_or_eq.mp lt with before | rfl
    · rw [List.getElem?_append_left before, ← entries k before]
      exact Function.update_of_ne (slotAddr_ne before) ..
    · simp
  · have back : (page :: p.free.erase page).Perm p.free := (List.perm_cons_erase free).symm
    simpa using (back.append_left got).trans perm

private theorem Filled.frame {i j : Nat} {page : Option Nat} (filled : Filled p0 pages i p)
    (le : i ≤ j) :
    Filled p0 pages i { p with slot := Function.update p.slot (slotAddr pages j) page } := by
  obtain ⟨vm, areaPages, tables, arrays, got, length, entries, perm⟩ := filled
  refine ⟨vm, areaPages, tables, arrays, got, length, fun k lt => ?_, perm⟩
  rw [← entries k lt]
  exact Function.update_of_ne (slotAddr_ne (lt.trans_le le)) ..

private theorem fillPages_filled
    (sound : ∀ mask list page, env.pick mask list = some page → page ∈ list)
    (gfpMask n : Nat) {i : Nat} (filled : Filled p0 pages i p) :
    Filled p0 pages (fillPages env gfpMask pages n i p).2.1 (fillPages env gfpMask pages n i p).1 ∧
      ((fillPages env gfpMask pages n i p).2.2 = true →
        (fillPages env gfpMask pages n i p).2.1 = i + n) := by
  induction n generalizing i p with
  | zero => exact ⟨filled, fun _ => rfl⟩
  | succ n ih =>
    rw [fillPages, allocPage]
    cases choice : env.pick gfpMask p.free with
    | none => exact ⟨filled.frame (Nat.le_refl i), fun full => by cases full⟩
    | some page =>
      obtain ⟨last, whole⟩ := ih (filled.next (sound _ _ _ choice))
      refine ⟨last, fun full => ?_⟩
      have reached := whole full
      simp only [Option.isNone_some, Bool.false_eq_true, if_false] at reached ⊢
      omega

private theorem unwindPages_filled (nodup : p0.free.Nodup) (i : Nat)
    (filled : Filled p0 pages i p) :
    ∃ p', unwindPages pages i p = .ok p' ∧ Filled p0 pages 0 p' := by
  induction i generalizing p with
  | zero => exact ⟨p, rfl, filled⟩
  | succ i ih =>
    obtain ⟨vm, areaPages, tables, arrays, got, length, entries, perm⟩ := filled
    obtain ⟨init, page, rfl⟩ : ∃ init page, got = init ++ [page] := by
      rcases List.eq_nil_or_concat got with rfl | ⟨init, page, rfl⟩
      · cases length
      · exact ⟨init, page, List.concat_eq_append⟩
    obtain rfl : init.length = i := by simpa using length
    have entry : p.slot (slotAddr pages init.length) = some page := by
      rw [entries _ (Nat.lt_succ_self _)]
      simp
    have taken : page ∉ p.free := by
      have all := perm.nodup_iff.mpr nodup
      rw [List.append_assoc, List.nodup_append] at all
      have tail := all.2.1
      rw [List.singleton_append, List.nodup_cons] at tail
      exact tail.1
    have step : freePages p (some page) = .ok { p with free := page :: p.free } := if_neg taken
    obtain ⟨p', rest, done⟩ := ih (p := { p with free := page :: p.free })
      ⟨vm, areaPages, tables, arrays, init, rfl, fun k lt => by
        rw [entries k (lt.trans (Nat.lt_succ_self _)), List.getElem?_append_left lt], by
        simpa using perm⟩
    refine ⟨p', ?_, done⟩
    rw [unwindPages, entry, step, ok_bind, rest]

/-! ### All or nothing -/

structure EnvOk (env : PagesEnv) (p : PagesState) : Prop where
  vmaBuddy : ∀ u, env.vmaBuddy = some u → u ∉ p.vm.heap
  newNode : Fresh p.vm.vmaTree env.newNode
  array : ∀ a, env.array = some a → a ∉ p.arrays
  pick : ∀ mask list page, env.pick mask list = some page → page ∈ list
  nodup : p.free.Nodup

def Allocated (s : VmState) (u start stop : Nat) : Prop :=
  u ∈ s.heap ∧ (s.area u).free = false ∧ (s.area u).start = start ∧ (s.area u).stop = stop

/-- The same pages are free, the same heap blocks live (arrays, structs and tree nodes), and the
same areas allocated. -/
structure AsBefore (p p' : PagesState) : Prop where
  pages : ∀ page, page ∈ p'.free ↔ page ∈ p.free
  arrays : ∀ a, a ∈ p'.arrays ↔ a ∈ p.arrays
  structs : ∀ u, u ∈ p'.vm.heap ↔ u ∈ p.vm.heap
  nodes : SameNodes p.vm p'.vm
  areas : ∀ u start stop, Allocated p'.vm u start stop ↔ Allocated p.vm u start stop

def GivesBack (env : PagesEnv) (pgdir : Word) (p : PagesState) (gfpMask size : Nat) : Prop :=
  ∃ p', vmallocGfp env pgdir p gfpMask size = .ok (p', none) ∧ AsBefore p p'

def supplied (env : PagesEnv) (gfpMask : Nat) : Nat → List Nat → Bool
  | 0, _ => true
  | n + 1, free =>
    match env.pick gfpMask free with
    | none => false
    | some page => supplied env gfpMask n (free.erase page)

/-- There is no memory for the array, or not for all of its pages. -/
def RunsOut (env : PagesEnv) (p : PagesState) (gfpMask size : Nat) : Prop :=
  env.array = none ∨ supplied env gfpMask (roundUpPage size >>> pageShift) p.free = false

private theorem fillPages_full (n : Nat) {i : Nat} :
    (fillPages env gfpMask pages n i p).2.2 = supplied env gfpMask n p.free := by
  induction n generalizing i p with
  | zero => rfl
  | succ n ih =>
    rw [fillPages, allocPage, supplied]
    cases env.pick gfpMask p.free with
    | none => rfl
    | some page =>
      simp only [Option.isNone_some, Bool.false_eq_true, if_false]
      rw [ih]

private theorem Undone.asBefore (undone : Undone p.vm p'.vm)
    (pages : ∀ page, page ∈ p'.free ↔ page ∈ p.free)
    (arrays : ∀ a, a ∈ p'.arrays ↔ a ∈ p.arrays) : AsBefore p p' := by
  refine ⟨pages, arrays, fun u => by rw [undone.heap], undone.nodes, fun u start stop => ?_⟩
  unfold Allocated
  rw [undone.heap]
  refine and_congr_right fun owned => ?_
  rw [undone.area u owned]

private theorem unwindPages_arrays {pages i : Nat} {p p' : PagesState}
    (done : unwindPages pages i p = .ok p') :
    p'.arrays = p.arrays ∧ p'.vm = p.vm ∧ p'.areaPages = p.areaPages := by
  induction i generalizing p with
  | zero =>
    cases done
    exact ⟨rfl, rfl, rfl⟩
  | succ i ih =>
    obtain ⟨p1, freed, done⟩ := bind_eq_ok done
    have kept : p1.arrays = p.arrays ∧ p1.vm = p.vm ∧ p1.areaPages = p.areaPages := by
      cases entry : p.slot (slotAddr pages i) with
      | none =>
        rw [entry] at freed
        cases freed
      | some page =>
        rw [entry, freePages] at freed
        split_ifs at freed
        cases freed
        exact ⟨rfl, rfl, rfl⟩
    obtain ⟨arrays, vm, areaPages⟩ := ih done
    exact ⟨arrays.trans kept.1, vm.trans kept.2.1, areaPages.trans kept.2.2⟩

private theorem releaseVma_end {vma : Nat} (last : (p.vm.area vma).stop = vmallocEnd) :
    releaseVma p vma = .error (.area .assertion) := by
  rw [releaseVma, freeVma_end last]
  rfl

private theorem releaseVma_ok {vma : Nat} (freed : freeVma p.vm (some vma) = .ok s) :
    releaseVma p vma = .ok { p with vm := s } := by
  rw [releaseVma, freed]
  rfl

private theorem errFreePages_leaks {vma i : Nat} (differ : p.areaPages vma ≠ pages)
    (live : pages ∈ p.arrays) (done : errFreePages p vma i = .ok p') : pages ∈ p'.arrays := by
  obtain ⟨p1, unwound, done⟩ := bind_eq_ok done
  obtain ⟨p2, freed, done⟩ := bind_eq_ok done
  obtain ⟨s3, -, done⟩ := bind_eq_ok done
  cases done
  obtain ⟨arrays, -, areaPages⟩ := unwindPages_arrays unwound
  rw [kfreeArray] at freed
  split_ifs at freed
  cases freed
  show pages ∈ p1.arrays.erase (p1.areaPages vma)
  rw [arrays, areaPages]
  exact (List.mem_erase_of_ne differ.symm).mpr live

private theorem errFreePages_filled {vma i : Nat} {others : List Nat}
    (same : p.areaPages vma = pages)
    (array : p0.arrays = pages :: others) (nodup : p0.free.Nodup)
    (filled : Filled p0 pages i p) :
    ∃ p1, errFreePages p vma i = releaseVma p1 vma ∧ p1.vm = p0.vm ∧ p1.arrays = others ∧
      p1.free.Perm p0.free := by
  obtain ⟨p1, unwound, vm, areaPages, -, arrays, got, length, -, perm⟩ :=
    unwindPages_filled nodup i filled
  obtain rfl := List.length_eq_zero_iff.mp length
  have field : p1.areaPages vma = pages := by
    rw [(unwindPages_arrays unwound).2.2, same]
  have freed : kfreeArray p1 pages = .ok { p1 with arrays := others } := by
    rw [kfreeArray, arrays, array, if_pos List.mem_cons_self, List.erase_cons_head]
  refine ⟨{ p1 with arrays := others }, ?_, vm, rfl, perm⟩
  rw [errFreePages, same, unwound, ok_bind, field, freed, ok_bind]

section
variable {vm : VmState} {size : Nat}

theorem vmallocGfp_warns (pgdir : Word) (small : size < pageSize) :
    vmallocGfp env pgdir p gfpMask size = .error .warning := by
  rw [vmallocGfp, warnOn, if_pos (decide_eq_true small)]
  rfl

private theorem warnOn_page (page : pageSize ≤ size) : warnOn (decide (size < pageSize)) = .ok () :=
  if_neg (by simpa using page)

private theorem vmallocGfp_noArray (pgdir : Word) (page : pageSize ≤ size)
    (area : allocVma p.vm (roundUpPage size) env.garbage env.vmaBuddy env.newNode =
      .ok (vm, some vma)) (array : env.array = none) :
    vmallocGfp env pgdir p gfpMask size =
      if 4 * (roundUpPage size >>> pageShift) ≤ kmemCacheMaxSize then .error .nullPage
      else releaseVma { p with vm := vm } vma >>= fun p => .ok (p, none) := by
  rw [vmallocGfp, warnOn_page page, ok_bind]
  simp only [area, mapError_ok, ok_bind, array]
  rfl

def arrayState (p : PagesState) (vm : VmState) (pages : Nat) : PagesState :=
  { p with vm := vm, arrays := pages :: p.arrays }

private theorem vmallocGfp_array (pgdir : Word) (page : pageSize ≤ size)
    (area : allocVma p.vm (roundUpPage size) env.garbage env.vmaBuddy env.newNode =
      .ok (vm, some vma)) (array : env.array = some pages) :
    vmallocGfp env pgdir p gfpMask size =
      match fillPages env gfpMask pages (roundUpPage size >>> pageShift) 0
        (arrayState p vm pages) with
      | (s, _, true) => mapPages env pgdir s vma pages (roundUpPage size >>> pageShift) >>= fun s =>
          .ok (s, some (s.vm.area vma).start)
      | (s, i, false) => errFreePages s vma i >>= fun s => .ok (s, none) := by
  rw [vmallocGfp, warnOn_page page, ok_bind]
  simp only [area, mapError_ok, ok_bind, array]
  rfl

private theorem vmallocGfp_noPages (pgdir : Word) (page : pageSize ≤ size)
    (area : allocVma p.vm (roundUpPage size) env.garbage env.vmaBuddy env.newNode =
      .ok (vm, some vma)) (array : env.array = some pages)
    (sound : ∀ mask list page, env.pick mask list = some page → page ∈ list)
    (missing : supplied env gfpMask (roundUpPage size >>> pageShift) p.free = false) :
    ∃ p2 i, Filled (arrayState p vm pages) pages i p2 ∧
      vmallocGfp env pgdir p gfpMask size =
        (errFreePages p2 vma i >>= fun p => .ok (p, none)) := by
  obtain ⟨filled, -⟩ := fillPages_filled sound gfpMask (roundUpPage size >>> pageShift)
    (filled_start (arrayState p vm pages) pages)
  have part : (fillPages env gfpMask pages (roundUpPage size >>> pageShift) 0
      (arrayState p vm pages)).2.2 = false :=
    (fillPages_full _).trans missing
  refine ⟨_, _, filled, ?_⟩
  rw [vmallocGfp_array pgdir page area array]
  generalize fillPages env gfpMask pages (roundUpPage size >>> pageShift) 0
    (arrayState p vm pages) = out at part ⊢
  obtain ⟨p2, i, full⟩ := out
  obtain rfl : full = false := part
  rfl

end

/-- The area does not end where the range ends, and either the array is too large for the caches
and could not be allocated or the uninitialised field of the area is the array. -/
def Recovers (env : PagesEnv) (p : PagesState) (vm : VmState) (vma size : Nat) : Prop :=
  (vm.area vma).stop ≠ vmallocEnd ∧
    (env.array = none ∧ kmemCacheMaxSize < 4 * (roundUpPage size >>> pageShift) ∨
      env.array = some (p.areaPages vma))

section
variable {vm : VmState} {vma gfpMask size : Nat}
  (undo : (vm.area vma).stop ≠ vmallocEnd →
    ∃ s3, freeVma vm (some vma) = .ok s3 ∧ Undone p.vm s3)
include undo

private theorem releaseVma_asBefore_iff (p1 : PagesState) (sameVm : p1.vm = vm)
    (arrays : p1.arrays = p.arrays) (free : p1.free.Perm p.free) :
    (∃ p', (releaseVma p1 vma >>= fun p => .ok (p, none)) = Except.ok (p', (none : Option Nat)) ∧
      AsBefore p p') ↔ (vm.area vma).stop ≠ vmallocEnd := by
  by_cases last : (vm.area vma).stop = vmallocEnd
  · rw [releaseVma_end (sameVm ▸ last)]
    refine iff_of_false ?_ fun other => other last
    rintro ⟨p', done, -⟩
    cases done
  · obtain ⟨s3, freed, undone⟩ := undo last
    refine iff_of_true ⟨{ p1 with vm := s3 }, ?_, ?_⟩ last
    · rw [releaseVma_ok (sameVm ▸ freed), ok_bind]
    · exact undone.asBefore (fun _ => free.mem_iff) fun _ => by rw [arrays]

private theorem givesBack_noArray_iff (pgdir : Word) (page : pageSize ≤ size)
    (area : allocVma p.vm (roundUpPage size) env.garbage env.vmaBuddy env.newNode =
      .ok (vm, some vma)) (array : env.array = none) :
    GivesBack env pgdir p gfpMask size ↔ Recovers env p vm vma size := by
  rw [GivesBack, vmallocGfp_noArray pgdir page area array, Recovers]
  split_ifs with small
  · refine iff_of_false ?_ ?_
    · rintro ⟨p', done, -⟩
      cases done
    · rintro ⟨-, ⟨-, large⟩ | field⟩
      · omega
      · rw [array] at field
        cases field
  · rw [releaseVma_asBefore_iff undo { p with vm := vm } rfl rfl (.refl _)]
    simp [array, Nat.lt_of_not_le small]

private theorem givesBack_noPages_iff {pages : Nat} (pgdir : Word) (page : pageSize ≤ size)
    (ok : EnvOk env p)
    (area : allocVma p.vm (roundUpPage size) env.garbage env.vmaBuddy env.newNode =
      .ok (vm, some vma)) (array : env.array = some pages)
    (missing : supplied env gfpMask (roundUpPage size >>> pageShift) p.free = false) :
    GivesBack env pgdir p gfpMask size ↔ Recovers env p vm vma size := by
  obtain ⟨p2, i, filled, call⟩ := vmallocGfp_noPages pgdir page area array ok.pick missing
  rw [GivesBack, call, Recovers]
  have field : p2.areaPages vma = p.areaPages vma := congrFun filled.areaPages vma
  by_cases same : p.areaPages vma = pages
  · have nodup : (arrayState p vm pages).free.Nodup := ok.nodup
    have arrays : (arrayState p vm pages).arrays = pages :: p.arrays := rfl
    obtain ⟨p3, rest, sameVm, arrays, free⟩ :=
      errFreePages_filled (field.trans same) arrays nodup filled
    rw [rest, releaseVma_asBefore_iff undo p3 sameVm arrays free]
    simp [same, array]
  · refine iff_of_false ?_ ?_
    · rintro ⟨p', done, asBefore⟩
      obtain ⟨p3, freed, done⟩ := bind_eq_ok done
      cases done
      have live : pages ∈ p2.arrays := by
        rw [filled.arrays]
        exact List.mem_cons_self
      have leaked := errFreePages_leaks (by rwa [field]) live freed
      exact ok.array pages array ((asBefore.arrays pages).mp leaked)
    · rintro ⟨-, ⟨absent, -⟩ | eq⟩
      · rw [array] at absent
        cases absent
      · rw [array] at eq
        exact same (Option.some.inj eq).symm

end

theorem givesBack_iff_recovers {before booted : VmState} {first vma : Nat} {t : AllocRun}
    {vm : VmState} {gfpMask size : Nat} (pgdir : Word)
    (boot : vmallocInit before (some first) true = .ok booted)
    (run : Run allocStep allocOk ⟨booted, []⟩ t) (state : p.vm = t.state) (ok : EnvOk env p)
    (found : (chosenVma p.vm (roundUpPage size)).isSome = true)
    (area : allocVma p.vm (roundUpPage size) env.garbage env.vmaBuddy env.newNode =
      .ok (vm, some vma))
    (fails : RunsOut env p gfpMask size) (page : pageSize ≤ size) :
    GivesBack env pgdir p gfpMask size ↔ Recovers env p vm vma size := by
  obtain ⟨idle, used, rest, f, packed, restOk, -⟩ :=
    run_inv (P := fun _ => True) boot trivial (fun _ _ ok => ⟨ok, fun _ _ => trivial⟩) run
  rw [← state] at idle packed restOk
  have word : roundUpPage size < 2 ^ 32 :=
    Nat.lt_of_le_of_lt (roundDown_le _ _) (Nat.mod_lt _ (by decide))
  have undo :=
    freeVma_allocated idle packed (fun r same => (restOk r same).1)
      ⟨word, ok.vmaBuddy, ok.newNode⟩ found area
  cases array : env.array with
  | none => exact givesBack_noArray_iff undo pgdir page area array
  | some pages =>
    have missing := fails.resolve_left (by simp [array])
    exact givesBack_noPages_iff undo pgdir page ok area array missing

/-- `__vmalloc` after any run of `alloc_vma`, when memory runs out after an area was found: the call
gives everything back if and only if the size is a page or more and the area allows it. -/
theorem vmallocGfp_givesBack_iff {before booted : VmState} {first vma : Nat} {t : AllocRun}
    {vm : VmState} {pgdir : Word} {gfpMask size : Nat}
    (boot : vmallocInit before (some first) true = .ok booted)
    (run : Run allocStep allocOk ⟨booted, []⟩ t) (state : p.vm = t.state) (ok : EnvOk env p)
    (found : (chosenVma p.vm (roundUpPage size)).isSome = true)
    (area : allocVma p.vm (roundUpPage size) env.garbage env.vmaBuddy env.newNode =
      .ok (vm, some vma))
    (fails : RunsOut env p gfpMask size) :
    GivesBack env pgdir p gfpMask size ↔ pageSize ≤ size ∧ Recovers env p vm vma size := by
  by_cases page : pageSize ≤ size
  · rw [givesBack_iff_recovers pgdir boot run state ok found area fails page, and_iff_right page]
  · refine iff_of_false ?_ fun both => page both.1
    rintro ⟨p', done, -⟩
    rw [vmallocGfp_warns pgdir (Nat.lt_of_not_le page)] at done
    cases done

/-- After `vmalloc_init`, with one page free; every `pages` field holds `field`, and memory holds
page 7 there. -/
def bootedPages (field : Nat) : PagesState where
  vm := initial blank 100
  areaPages := fun _ => field
  areaNrPages := fun _ => 0
  tables := fun _ _ => 0
  slot := fun addr => if addr = field then some 7 else none
  arrays := [field]
  free := [1]

def bootedEnv (array : Option Nat) : PagesEnv where
  garbage := none
  vmaBuddy := some 200
  newNode := some 5
  array := array
  pick := fun _ list => list.head?
  table := fun _ => 0

theorem bootedEnv_ok {field : Nat} {array : Option Nat} (fresh : array ≠ some field) :
    EnvOk (bootedEnv array) (bootedPages field) := by
  refine ⟨fun u eq => ?_, fun tree a treeEq _ => ?_, fun a eq => ?_, fun _ list page eq => ?_, ?_⟩
  · rw [← Option.some.inj eq]
    simp [bootedPages, initial, blank]
  · rw [← Option.some.inj treeEq]
  · intro live
    rw [List.mem_singleton.mp live] at eq
    exact fresh eq
  · exact List.mem_of_head? eq
  · exact List.nodup_singleton 1

/-- No memory for an array of 257 pages, which is too large for the caches. -/
theorem vmallocGfp_givesBack_iff_noArray :
    GivesBack (bootedEnv none) 0x1000 (bootedPages 500) 2 0x101000 := by
  have call :
      (allocVma (initial blank 100) (roundUpPage 0x101000) none (some 200) (some 5)).toOption.map
      (fun r => (r.2, (r.1.area 100).stop)) = some (some 100, 0x102000) := by decide +kernel
  obtain ⟨⟨vm, result⟩, done, eq⟩ := Option.map_eq_some_iff.mp call
  obtain ⟨rfl, stop⟩ := Prod.mk.inj eq
  refine (vmallocGfp_givesBack_iff (vmallocInit_eq blank 100) .refl rfl (bootedEnv_ok (by simp))
    (by decide +kernel) (of_toOption done) (.inl rfl)).mpr ⟨by decide, ?_, .inl ⟨rfl, by decide⟩⟩
  rw [stop]
  decide

/-- No memory for the second page, and the `pages` field of the area still points to the array of
another one: its page 7 and its array 500 are freed, page 1 and the array 300 are lost. -/
theorem vmallocGfp_frees_others :
    EnvOk (bootedEnv (some 300)) (bootedPages 500) ∧
      RunsOut (bootedEnv (some 300)) (bootedPages 500) 2 8192 ∧
        ∃ p', vmallocGfp (bootedEnv (some 300)) 0x1000 (bootedPages 500) 2 8192 = .ok (p', none) ∧
          p'.free = [7] ∧ p'.arrays = [300] ∧ (bootedPages 500).free = [1] ∧
            (bootedPages 500).arrays = [500] := by
  have call : (vmallocGfp (bootedEnv (some 300)) 0x1000 (bootedPages 500) 2 8192).toOption.map
      (fun r => (r.2, r.1.free, r.1.arrays)) = some (none, [7], [300]) := by decide +kernel
  obtain ⟨⟨p', result⟩, done, eq⟩ := Option.map_eq_some_iff.mp call
  obtain ⟨rfl, eq⟩ := Prod.mk.inj eq
  obtain ⟨free, arrays⟩ := Prod.mk.inj eq
  exact ⟨bootedEnv_ok (by decide), .inr (by decide +kernel), p', of_toOption done,
    free, arrays, rfl,
    rfl⟩

end OhMyOs.Mm.VmallocPages
