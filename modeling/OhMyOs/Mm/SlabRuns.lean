/- GID: OhMyOs/Mm/SlabRuns
   generality: I
   digest: Runs of the slab allocator: when live objects are disjoint, and a run where they are
   not. -/

import OhMyOs.Lib.Runs
import OhMyOs.Mm.SlabSafety

set_option autoImplicit false
set_option relaxedAutoImplicit false

namespace OhMyOs.Mm.SlabRuns

open OhMyOs.Lib.Ring OhMyOs.Lib.Runs OhMyOs.Include.IntrusiveList OhMyOs.Include.Bitops
open OhMyOs.Include.Memory
open OhMyOs.Mm.PageAllocator (pageHighmem pageSlab)
open OhMyOs.Mm.Slab OhMyOs.Mm.SlabSafety

variable {s : SlabState} {live : List (Nat × Nat)} {on : Nat → Nat → Prop} {used : Nat → List Nat}
  {f : SlabList × Nat → List Nat} {cache page : Nat}

/-! ### The calls -/

private theorem allocBlock_inv (objs : Objects s live on used) (lists : Lists s on f)
    (known : cache < 8)
    (mine : page ∈ f (.slabsPartial, cache)) (byte : (s.pages page).active < 256) :
    ∃ used' f',
      Objects (allocBlock s cache page).1 ((cache, (allocBlock s cache page).2) :: live) on
        used' ∧ Lists (allocBlock s cache page).1 on f' ∧
          (allocBlock s cache page).1.locked = s.locked := by
  have here : on cache page := (lists.mem_iff cache known page).mpr (.inr mine)
  have ok := objs.ok cache page here
  have room := lists.room cache known page mine
  obtain ⟨idx, index, taken⟩ := objs.take here (lt_min room byte)
  rw [allocBlock_eq (objs.sizes cache known) ok.sMem (ok.total ▸ room) index]
  generalize eq : (s.setPage page fun p => { p with active := (p.active + 1) % 2 ^ 16 }) = t
    at taken ⊢
  have other : ∀ q, q ≠ page → (t.pages q).active = (s.pages q).active := fun q differ => by
    simp [← eq, SlabState.setPage, Function.update_of_ne differ]
  have links : t.links = s.links := eq ▸ rfl
  have locks : t.locked = s.locked := eq ▸ rfl
  by_cases full : (t.pages page).active = (t.pages page).total
  · rw [if_pos full, links]
    let moved :=
      listInsert (listRemove s.links (.node page)) (.head (.slabsFull, cache)) (.node page)
    have lists' : ∃ f', Lists { t with links := moved } on f' ∧ FullFrom page f f' :=
      lists.fill known mine rfl other
    obtain ⟨f', lists', -⟩ := lists'
    exact ⟨_, f', taken.congr rfl rfl rfl rfl, lists', locks⟩
  · rw [if_neg full]
    refine ⟨_, f, taken, lists.keep links other ?_, locks⟩
    intro c known' member
    obtain rfl := objs.unique here ((lists.mem_iff c known' page).mpr (.inr member))
    have total := (taken.ok cache page here).total
    have active : (t.pages page).active = ((s.pages page).active + 1) % 2 ^ 16 := by
      simp [← eq, SlabState.setPage]
    show (t.pages page).active < slotTotal cache
    omega

private theorem freeBlock_inv (objs : Objects s live on used) (lists : Lists s on f) {idx : Nat}
    (here : on cache page) (inUse : idx ∈ used page) :
    ∃ on' used' f', Objects (freeBlock s cache page (slotAddr cache page idx))
        (live.erase (cache, slotAddr cache page idx)) on' used' ∧
          Lists (freeBlock s cache page (slotAddr cache page idx)) on' f' ∧
            (freeBlock s cache page (slotAddr cache page idx)).locked = s.locked := by
  have known := objs.known cache page here
  have ok := objs.ok cache page here
  have positive : 0 < (used page).length := List.length_pos_of_mem inUse
  have active := ok.active
  have count := ok.slots.length_eq
  rw [List.length_append, List.length_range] at count
  have byteCount : slotCount cache ≤ 256 := Nat.min_le_right ..
  have given := objs.give here inUse
  rw [freeBlock_eq (objs.sizes cache known) ok.sMem ok.freelist known ok.linear
    (ok.slots.used_lt inUse) (by omega) (by omega)]
  generalize eq : ({ s.setPage page fun p => { p with active := p.active - 1 } with
    mem := Function.update s.mem (arrayAddr cache page + ((s.pages page).active - 1))
      (BitVec.ofNat 8 idx) } : SlabState) = t at given ⊢
  have now : (t.pages page).active = (s.pages page).active - 1 := by
    simp [← eq, SlabState.setPage]
  have other : ∀ q, q ≠ page → (t.pages q).active = (s.pages q).active := fun q differ => by
    simp [← eq, SlabState.setPage, Function.update_of_ne differ]
  have links : t.links = s.links := eq ▸ rfl
  have locks : t.locked = s.locked := eq ▸ rfl
  by_cases empty : (t.pages page).active = 0
  · rw [if_pos empty, links]
    have noSlot : Function.update used page ((used page).erase idx) page = [] := by
      rw [Function.update_self]
      refine List.eq_nil_of_length_eq_zero ?_
      rw [List.length_erase_of_mem inUse]
      omega
    have relinked : Objects { t with links := listRemove s.links (.node page) } _ on _ :=
      given.congr rfl rfl rfl rfl
    have unlisted : ∃ f', Lists
        (slabPageDeinit { t with links := listRemove s.links (.node page) } page)
        (fun c q => on c q ∧ q ≠ page) f' ∧ FullFrom page f f' := by
      refine lists.drop known here rfl fun q differ => ?_
      simpa [slabPageDeinit, SlabState.setPage, Function.update_of_ne differ] using other q differ
    obtain ⟨f', unlisted, -⟩ := unlisted
    exact ⟨_, _, f', relinked.drop noSlot, unlisted, locks⟩
  · rw [if_neg empty]
    refine ⟨_, _, f, given, lists.keep links other ?_, locks⟩
    intro c known' member
    have room := lists.room c known' page member
    omega

/-! ### Runs -/

structure SlabRun where
  state : SlabState
  live : List (Nat × Nat)

/-- A call, or a store by the owner of an object; `newPage` and `vmap` are what the page
allocator and the mapping of a highmem page return if they are called. -/
inductive SlabOp
  | alloc (cache : Nat) (newPage : Option Nat) (vmap : Nat)
  | free (cache obj : Nat)
  | write (cache obj offset : Nat) (byte : BitVec 8)

def slabStep (r : SlabRun) : SlabOp → Option SlabRun
  | .alloc cache newPage vmap =>
    if cache < 8 then
      (kmemCacheAlloc r.state cache newPage vmap).map fun (s, obj) =>
        ⟨s, if obj = 0 then r.live else (cache, obj) :: r.live⟩
    else none
  | .free cache obj =>
    if (cache, obj) ∈ r.live then
      (kmemCacheFree r.state cache obj).map fun s => ⟨s, r.live.erase (cache, obj)⟩
    else none
  | .write cache obj offset byte =>
    if (cache, obj) ∈ r.live ∧ offset < objSize cache then
      some ⟨{ r.state with mem := Function.update r.state.mem (obj + offset) byte }, r.live⟩
    else none

/-- A page for GFP_NORMAL lies in the linear mapping and is not in use by a cache. -/
def freshPage (r : SlabRun) : SlabOp → Bool
  | .alloc _ (some page) _ => page < linearPages ∧
      testBit pageHighmem (r.state.pages page).flags = false ∧ (r.state.pages page).slabCache = none
  | _ => true

theorem freshPage_some {r : SlabRun} {cache page vmap : Nat}
    (fresh : freshPage r (.alloc cache (some page) vmap) = true) :
    page < linearPages ∧ testBit pageHighmem (r.state.pages page).flags = false ∧
      (r.state.pages page).slabCache = none :=
  of_decide_eq_true fresh

/-- The page an object is taken from has fewer objects than a byte has values. -/
def slotsFitByte (r : SlabRun) : SlabOp → Bool
  | .alloc cache _ _ =>
    match containerOf (listNext r.state.links (.head (.slabsPartial, cache))) with
    | some page => (r.state.pages page).active < 256
    | none => true
  | _ => true

/-- The caches right after `kmalloc_init`, whatever memory, page structs and link fields held
before; assertions count from here. -/
def slabBoot (s : SlabState) : SlabRun := ⟨kmallocInit { s with bugs := 0 }, []⟩

def NoSlabs (s : SlabState) : Prop := ∀ page, (s.pages page).slabCache = none

def Apart (o o' : Nat × Nat) : Prop :=
  o.2 + objSize o.1 ≤ o'.2 ∨ o'.2 + objSize o'.1 ≤ o.2

/-- Live objects are disjoint, lie in the object area of their page, and touch no index array. -/
structure SlabSafe (r : SlabRun) : Prop where
  apart : r.live.Pairwise Apart
  inside : ∀ o ∈ r.live, (r.state.pages (virtToPage o.2)).sMem ≤ o.2 ∧
    o.2 + objSize o.1 ≤ (r.state.pages (virtToPage o.2)).freelist
  arrays : ∀ o ∈ r.live, ∀ page, (r.state.pages page).slabCache ≠ none →
    o.2 + objSize o.1 ≤ (r.state.pages page).freelist ∨
      (r.state.pages page).sMem + pageSize ≤ o.2

structure SlabInv (r : SlabRun) : Prop where
  unlocked : ∀ cache < 8, r.state.locked cache = false
  slabs : ∃ on used f, Objects r.state r.live on used ∧ Lists r.state on f

private theorem obj_bounds (objs : Objects s live on used) {idx : Nat} (here : on cache page)
    (slot : idx ∈ used page) : kernelVirtBase ≤ pageToVirt page ∧
      pageToVirt page ≤ slotAddr cache page idx ∧
        slotAddr cache page idx + objSize cache ≤ arrayAddr cache page ∧
          arrayAddr cache page ≤ pageToVirt page + pageSize := by
  have ok := objs.ok _ _ here
  refine ⟨?_, ?_, slotAddr_bound (objs.known _ _ here) (ok.slots.used_lt slot) page, ?_⟩
  · rw [pageToVirt_eq ok.linear]
    omega
  · unfold slotAddr
    omega
  · unfold arrayAddr
    omega

private theorem obj_ne_zero (objs : Objects s live on used) {obj : Nat}
    (member : (cache, obj) ∈ live) :
    obj ≠ 0 := by
  obtain ⟨q, here, i, slot, rfl⟩ := (objs.live_iff _ _).mp member
  have bounds := obj_bounds objs here slot
  unfold kernelVirtBase at bounds
  omega

private theorem SlabInv.safe {r : SlabRun} (inv : SlabInv r) : SlabSafe r := by
  obtain ⟨-, on, used, f, objs, -⟩ := inv
  refine ⟨?_, ?_, ?_⟩
  · refine objs.nodup.imp_of_mem ?_
    rintro ⟨c, o⟩ ⟨c', o'⟩ left right differ
    obtain ⟨q, here, i, slot, rfl⟩ := (objs.live_iff _ _).mp left
    obtain ⟨q', there, i', slot', rfl⟩ := (objs.live_iff _ _).mp right
    have bounds := obj_bounds objs here slot
    have bounds' := obj_bounds objs there slot'
    unfold Apart
    by_cases same : q = q'
    · subst same
      obtain rfl := objs.unique here there
      have : i ≠ i' := fun eq => differ (by rw [eq])
      rcases Nat.lt_or_gt_of_ne this with less | greater
      · exact .inl (slotAddr_apart less)
      · exact .inr (slotAddr_apart greater)
    · have pages := pageToVirt_apart (objs.ok _ _ here).linear (objs.ok _ _ there).linear same
      simp only
      omega
  · rintro ⟨c, o⟩ member
    obtain ⟨q, here, i, slot, rfl⟩ := (objs.live_iff _ _).mp member
    have ok := objs.ok _ _ here
    have bounds := obj_bounds objs here slot
    have back := slotAddr_page (objs.known _ _ here) ok.linear (ok.slots.used_lt slot)
    simp only [back, ok.sMem, ok.freelist]
    exact ⟨bounds.2.1, bounds.2.2.1⟩
  · rintro ⟨c, o⟩ member q' owned
    obtain ⟨q, here, i, slot, rfl⟩ := (objs.live_iff _ _).mp member
    obtain ⟨c', there⟩ := objs.owned q' owned
    have bounds := obj_bounds objs here slot
    have ok' := objs.ok _ _ there
    simp only [ok'.sMem, ok'.freelist]
    by_cases same : q = q'
    · subst same
      obtain rfl := objs.unique here there
      exact .inl bounds.2.2.1
    · have pages := pageToVirt_apart (objs.ok _ _ here).linear ok'.linear same
      have small := (geometry (objs.known _ _ there)).2.2.2.2.2.1
      unfold arrayAddr at bounds ⊢
      omega

private theorem SlabInv.release {s' : SlabState} (unlocked : ∀ c < 8, s.locked c = false)
    (locks : s'.locked = Function.update s.locked cache true) (objs : Objects s' live on used)
    (lists : Lists s' on f) : SlabInv ⟨s'.spinUnlock cache, live⟩ := by
  exact ⟨unlocked_release unlocked locks, on, used, f, objs.congr rfl rfl rfl rfl,
    lists.congr rfl fun _ => rfl⟩

private theorem kmemCacheAlloc_inv {r : SlabRun} {newPage : Option Nat} {vmap obj : Nat}
    (inv : SlabInv r)
    (known : cache < 8) (fresh : freshPage r (.alloc cache newPage vmap) = true)
    (fits : slotsFitByte r (.alloc cache newPage vmap) = true)
    (call : kmemCacheAlloc r.state cache newPage vmap = some (s, obj)) :
    SlabInv ⟨s, (cache, obj) :: r.live⟩ := by
  obtain ⟨unlocked, on, used, f, objs, lists⟩ := inv
  have objs1 : Objects (lockCache r.state cache) r.live on used := objs.congr rfl rfl rfl rfl
  have lists1 : Lists (lockCache r.state cache) on f := lists.congr rfl fun _ => rfl
  have page : ∀ page, newPage = some page → page < linearPages ∧
      testBit pageHighmem (r.state.pages page).flags = false ∧
        (r.state.pages page).slabCache = none := by
    rintro page rfl
    exact freshPage_some fresh
  obtain ⟨page', t, rfl, rfl, ⟨rfl, rfl⟩ | ⟨mine, rfl, next⟩⟩ :=
    kmemCacheAlloc_cases lists known (unlocked cache known) (objs.sizes cache known)
      (fun q given => ⟨(page q given).1, (page q given).2.1⟩) call
  · obtain ⟨linear, lowmem, unowned⟩ := page page' rfl
    have notOn : ∀ c, ¬ on c page' := fun c there => by
      rw [(objs.ok c page' there).owner] at unowned
      exact Option.some_ne_none c unowned
    have objs2 : Objects (joined r.state cache page') r.live _ _ :=
      (objs1.open known linear lowmem unowned).congr rfl rfl rfl rfl
    have empty : ((joined r.state cache page').pages page').active = 0 := by simp [joined, opened]
    obtain ⟨f2, lists2, mine, -⟩ := lists.join known notOn
    obtain ⟨used3, f3, objs3, lists3, locks⟩ := allocBlock_inv objs2 lists2 known mine (by omega)
    exact SlabInv.release unlocked locks objs3 lists3
  · have byte : (r.state.pages page').active < 256 := by
      simpa [slotsFitByte, next, containerOf] using fits
    obtain ⟨used3, f3, objs3, lists3, locks⟩ := allocBlock_inv objs1 lists1 known mine byte
    exact SlabInv.release unlocked locks objs3 lists3

private theorem kmemCacheFree_inv {r : SlabRun} {obj : Nat} (inv : SlabInv r)
    (member : (cache, obj) ∈ r.live) (call : kmemCacheFree r.state cache obj = some s) :
    SlabInv ⟨s, r.live.erase (cache, obj)⟩ := by
  obtain ⟨unlocked, on, used, f, objs, lists⟩ := inv
  obtain ⟨page, here, idx, slot, rfl⟩ := (objs.live_iff _ _).mp member
  have known := objs.known _ _ here
  have ok := objs.ok _ _ here
  have objs1 : Objects (lockCache r.state cache) r.live on used := objs.congr rfl rfl rfl rfl
  have lists1 : Lists (lockCache r.state cache) on f := lists.congr rfl fun _ => rfl
  rw [kmemCacheFree_eq known ok.linear (ok.slots.used_lt slot) ok.owner ok.lowmem
    (unlocked cache known)] at call
  obtain rfl := Option.some.inj call
  obtain ⟨on', used', f', objs', lists', locks⟩ := freeBlock_inv objs1 lists1 here slot
  exact SlabInv.release unlocked locks objs' lists'

private theorem slabStep_inv {r t : SlabRun} {op : SlabOp} (inv : SlabInv r)
    (ok : freshPage r op = true ∧ slotsFitByte r op = true) (step : slabStep r op = some t) :
    SlabInv t := by
  cases op with
  | alloc cache newPage vmap =>
    simp only [slabStep] at step
    split_ifs at step with known
    obtain ⟨⟨s, obj⟩, call, rfl⟩ := Option.map_eq_some_iff.mp step
    have next := kmemCacheAlloc_inv inv known ok.1 ok.2 call
    obtain ⟨on, used, f, objs, -⟩ := next.slabs
    simpa [obj_ne_zero objs List.mem_cons_self] using next
  | free cache obj =>
    simp only [slabStep] at step
    split_ifs at step with member
    obtain ⟨s, call, rfl⟩ := Option.map_eq_some_iff.mp step
    exact kmemCacheFree_inv inv member call
  | write cache obj offset byte =>
    simp only [slabStep] at step
    split_ifs at step with mine
    obtain rfl := Option.some.inj step
    obtain ⟨unlocked, on, used, f, objs, lists⟩ := inv
    exact ⟨unlocked, on, used, f, objs.write mine.1 mine.2 byte, lists.congr rfl fun _ => rfl⟩

structure Created (s s' : SlabState) (n : Nat) : Prop where
  pages : s'.pages = s.pages
  bugs : s'.bugs = s.bugs
  sizes : ∀ c < n, s'.size c = objSize c
  unlocked : ∀ c < n, s'.locked c = false
  rings : Rings s'.links {k | k.2 < n} fun _ => []

private theorem Created.next {s' : SlabState} {n : Nat} (created : Created s s' n) (known : n < 8) :
    Created s (kmemCacheCreate s' n (minSize <<< n)).1 (n + 1) := by
  have fits : ¬ minSize <<< n > pageSize := Nat.not_lt.mpr (geometry known).2.1
  have full := listInit_rings_empty created.rings (.slabsFull, n) (by simp)
  have both := listInit_rings_empty full (.slabsPartial, n) (by simp)
  have same : insert (SlabList.slabsPartial, n) (insert (SlabList.slabsFull, n)
      {k : SlabList × Nat | k.2 < n}) = {k | k.2 < n + 1} := by
    ext ⟨kind, c⟩
    simp only [Set.mem_insert_iff, Prod.mk.injEq, Set.mem_ofPred_eq]
    cases kind <;> simp <;> omega
  rw [same] at both
  rw [kmemCacheCreate, if_neg fits]
  refine ⟨created.pages, created.bugs, fun c less => ?_, fun c less => ?_, both⟩
  · by_cases last : c = n
    · simp [last, objSize]
    · simp only [Function.update_of_ne last]
      exact created.sizes c (by omega)
  · by_cases last : c = n
    · simp [last]
    · simp only [Function.update_of_ne last]
      exact created.unlocked c (by omega)

theorem kmallocInit_created (s : SlabState) : Created s (kmallocInit s) 8 := by
  have loop : ∀ n ≤ 8, Created s ((List.range n).foldl
      (fun s i => (kmemCacheCreate s i (minSize <<< i)).1) s) n := by
    intro n
    induction n with
    | zero =>
      intro _
      exact ⟨rfl, rfl, by simp, by simp, by simp, by simp, by simp⟩
    | succ n ih =>
      intro bound
      rw [List.range_succ, List.foldl_append]
      exact (ih (by omega)).next (by omega)
  exact loop 8 (Nat.le_refl 8)

private theorem slabBoot_inv (clean : NoSlabs s) : SlabInv (slabBoot s) := by
  have created := kmallocInit_created { s with bugs := 0 }
  refine ⟨created.unlocked, fun _ _ => False, fun _ => [], fun _ => [], ?_, created.rings, ?_, ?_⟩
  · refine ⟨by simp, created.sizes, by simp, fun page owned => ?_, .nil, by simp [slabBoot],
      created.bugs⟩
    rw [slabBoot, created.pages] at owned
    exact absurd (clean page) owned
  · simp
  · simp

/-- From `kmalloc_init` on, while no object is taken from a page on which 256 objects or more are
in use, live objects are disjoint from each other and from the index arrays, and no assertion
fails. -/
theorem slab_run_safe (s : SlabState) (clean : NoSlabs s) (t : SlabRun)
    (run : Run slabStep (fun r op => freshPage r op = true ∧ slotsFitByte r op = true)
      (slabBoot s) t) : SlabSafe t ∧ t.state.bugs = 0 := by
  have inv : SlabInv t := run.invariant (slabBoot_inv clean) fun _ _ _ inv ok step =>
    slabStep_inv inv ok step
  obtain ⟨on, used, f, objs, -⟩ := inv.slabs
  exact ⟨inv.safe, objs.quiet⟩

def blank : SlabState where
  pages := fun _ => ⟨0, 0, 0, 0, 0, none⟩
  size := fun _ => 0
  links := ⟨id, id⟩
  locked := fun _ => false
  mem := fun _ => 0
  bugs := 0

def sampleOps : List SlabOp :=
  [.alloc 0 (some 0x100) 0, .alloc 0 none 0, .write 0 0xC0100008 7 0xFF, .free 0 0xC0100000,
    .alloc 7 (some 0x101) 0, .alloc 0 none 0]

/-- Two objects of 8 bytes on one page, one of them freed and handed out again, and an object
of 1024 bytes on another page. -/
theorem slab_run_safe_sample :
    ∃ t, exec slabStep (fun r op => freshPage r op && slotsFitByte r op)
      (slabBoot blank) sampleOps =
      some t ∧ t.live.length = 3 ∧ SlabSafe t ∧ t.state.bugs = 0 := by
  have three : (exec slabStep (fun r op => freshPage r op && slotsFitByte r op) (slabBoot blank)
      sampleOps).map (fun t => t.live.length) = some 3 := by decide +kernel
  obtain ⟨t, eq, count⟩ := Option.map_eq_some_iff.mp three
  have run : Run slabStep (fun r op => freshPage r op = true ∧ slotsFitByte r op = true)
      (slabBoot blank) t := (Run.of_exec eq).mono fun _ _ ok => by simpa using ok
  exact ⟨t, eq, count, slab_run_safe blank (fun _ => rfl) t run⟩

/-- The 8-byte cache allocates from page 0x100, which has `n` objects in use and an index array
as `slab_page_init` left it. -/
structure Filling (s : SlabState) (n : Nat) : Prop where
  unlocked : s.locked 0 = false
  size : s.size 0 = 8
  first : listNext s.links (.head (.slabsPartial, 0)) = .node 0x100
  sMem : (s.pages 0x100).sMem = 0xC0100000
  active : (s.pages 0x100).active = n
  total : (s.pages 0x100).total = 448
  bytes : ∀ i < 448, s.mem ((s.pages 0x100).freelist + i) = BitVec.ofNat 8 i

private theorem Filling.start (unlocked : s.locked 0 = false) (size : s.size 0 = objSize 0)
    (empty : listEmpty s.links (.head (.slabsPartial, 0)) = true)
    (lowmem : testBit pageHighmem (s.pages 0x100).flags = false) (live : List (Nat × Nat)) :
    ∃ s', slabStep ⟨s, live⟩ (.alloc 0 (some 0x100) 0) = some ⟨s', (0, 0xC0100000) :: live⟩ ∧
      Filling s' 1 := by
  let s1 : SlabState := { s with locked := Function.update s.locked 0 true }
  have init : slabPageInit s1 0 0x100 0 = (opened s1 0 0x100, 0) :=
    slabPageInit_eq size (by decide) lowmem
  have address : pageToVirt 0x100 = 0xC0100000 := by decide
  have total : slotTotal 0 = 448 := by decide
  have array : ∀ i < 448, (opened s1 0 0x100).mem (arrayAddr 0 0x100 + i) = BitVec.ofNat 8 i := by
    intro i less
    have inside : i < arrayBytes 0 := Nat.lt_trans less (by decide)
    simp only [opened]
    rw [fillFreelist_apply, if_pos (by omega), Nat.add_sub_cancel_left]
  have first : (opened s1 0 0x100).mem (arrayAddr 0 0x100) = 0 := array 0 (by omega)
  have page : (opened s1 0 0x100).pages 0x100 = ⟨setBit pageSlab (s.pages 0x100).flags, 0xC0100000,
      arrayAddr 0 0x100, 0, 448, some 0⟩ := by
    simp only [opened, Function.update_self, address, total]
    rfl
  refine ⟨{ opened s1 0 0x100 with
    links := listInsert s.links (.head (.slabsPartial, 0)) (.node 0x100)
    locked := Function.update s1.locked 0 false
    pages := Function.update (opened s1 0 0x100).pages 0x100
      { (opened s1 0 0x100).pages 0x100 with active := 1 } }, ?_, ?_⟩
  · have locked : s.spinLock 0 = some s1 := by simp [SlabState.spinLock, unlocked, s1]
    have same : listEmpty s1.links (.head (.slabsPartial, 0)) = true := empty
    have links : (opened s1 0 0x100).links = s.links := rfl
    have locks : (opened s1 0 0x100).locked = s1.locked := rfl
    simp [slabStep, kmemCacheAlloc, locked, same, init, allocBlock, SlabState.assert,
      SlabState.setPage, SlabState.spinUnlock, page, first, indexToObj, links, locks]
  · refine ⟨by simp, size,
      by simp [listNext, listInsert, Links.setNext, Links.setPrev], ?_, ?_, ?_, ?_⟩
    all_goals simp [page]
    exact array

private theorem Filling.alloc {n : Nat} (filling : Filling s n) (room : n + 1 < 448)
    (live : List (Nat × Nat)) :
    ∃ s', slabStep ⟨s, live⟩ (.alloc 0 none 0) =
        some ⟨s', (0, 0xC0100000 + 8 * (n % 256)) :: live⟩ ∧ Filling s' (n + 1) := by
  obtain ⟨unlocked, size, first, sMem, active, total, bytes⟩ := filling
  have index : (s.mem ((s.pages 0x100).freelist + n)).toNat = n % 256 := by
    rw [bytes n (by omega), BitVec.toNat_ofNat]
  have nonempty : listEmpty s.links (.head (.slabsPartial, 0)) = false := by
    have next : s.links.next (.head (.slabsPartial, 0)) = .node 0x100 := first
    simp [listEmpty, next]
  have less : n < 448 := by omega
  have short : (n + 1) % 65536 = n + 1 := by omega
  have notFull : n + 1 ≠ 448 := by omega
  refine ⟨{ s.setPage 0x100 fun p => { p with active := n + 1 } with
    locked := Function.update (Function.update s.locked 0 true) 0 false }, ?_, ?_⟩
  · simp [slabStep, kmemCacheAlloc, SlabState.spinLock, SlabState.spinUnlock, unlocked, nonempty,
      first, containerOf, allocBlock, SlabState.assert, active, total, less, index,
      SlabState.setPage, short, notFull, indexToObj, size, sMem]
  · refine ⟨by simp, size, first, ?_, ?_, ?_, by simpa [SlabState.setPage] using bytes⟩
    all_goals simp [SlabState.setPage, sMem, total]

private theorem Filling.run {n : Nat} (filling : Filling s 1) (room : n + 1 < 448)
    (live : List (Nat × Nat)) :
    ∃ t, Run slabStep (fun r op => freshPage r op = true) ⟨s, live⟩ t ∧ Filling t.state (n + 1) ∧
      live ⊆ t.live := by
  induction n with
  | zero => exact ⟨_, .refl, filling, List.Subset.refl _⟩
  | succ n ih =>
    obtain ⟨t, run, full, kept⟩ := ih (by omega)
    obtain ⟨s', step, next⟩ := full.alloc room t.live
    exact ⟨_, run.tail ⟨_, rfl, step⟩, next, fun o member => List.mem_cons_of_mem _ (kept member)⟩

/-- The 257th object of 8 bytes on a page is the first one again. -/
theorem slab_run_unsafe_byte_index :
    ¬ ∀ s, NoSlabs s → ∀ t, Run slabStep (fun r op => freshPage r op = true) (slabBoot s) t →
      SlabSafe t := by
  intro claim
  obtain ⟨s1, step, filling⟩ := Filling.start (s := (slabBoot blank).state) rfl rfl rfl rfl []
  obtain ⟨u, run, full, kept⟩ := filling.run (n := 255) (by omega) [(0, 0xC0100000)]
  obtain ⟨s', again, -⟩ := full.alloc (by omega) u.live
  have fresh : freshPage (slabBoot blank) (.alloc 0 (some 0x100) 0) = true := by decide
  have safe := claim blank (fun _ => rfl) _ ((run.head ⟨_, fresh, step⟩).tail ⟨_, rfl, again⟩)
  have old : (0, 0xC0100000) ∈ u.live := kept (by simp)
  have apart := (List.pairwise_cons.mp safe.apart).1 _ old
  simp [Apart, objSize, minSize] at apart

end OhMyOs.Mm.SlabRuns
