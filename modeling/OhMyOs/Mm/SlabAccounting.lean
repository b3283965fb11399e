/- GID: OhMyOs/Mm/SlabAccounting
   generality: I
   digest: Runs of the slab allocator: counts and lists agree, but for pages that were full once. -/

import OhMyOs.Mm.SlabCounts

set_option autoImplicit false
set_option relaxedAutoImplicit false

namespace OhMyOs.Mm.SlabAccounting

open OhMyOs.Lib.Ring OhMyOs.Lib.Runs OhMyOs.Include.IntrusiveList OhMyOs.Include.Bitops
open OhMyOs.Include.Memory
open OhMyOs.Mm.Slab OhMyOs.Mm.SlabSafety OhMyOs.Mm.SlabRuns OhMyOs.Mm.SlabCounts

variable {s : SlabState} {r r' : SlabRun} {objs : List (Nat × Nat)} {on : Nat → Nat → Prop}
  {f : SlabList × Nat → List Nat} {cache page obj : Nat} {strict : Prop}

/-! ### Invariant -/

def Filled (s : SlabState) (f : SlabList × Nat → List Nat) : Prop :=
  ∀ c < 8, ∀ q ∈ f (.slabsFull, c), (s.pages q).active = slotTotal c

/-- Between two calls no page of a cache is without objects. Under `strict` no full page has
lost an object either. -/
structure Books (strict : Prop) (r : SlabRun) : Prop where
  unlocked : ∀ c < 8, r.state.locked c = false
  quiet : r.state.bugs = 0
  pages : ∃ on f, Counted r.state r.live on ∧ Lists r.state on f ∧
    (∀ c q, on c q → 0 < (r.state.pages q).active) ∧ (strict → Filled r.state f)

private theorem Books.take (counted : Counted s objs on) (lists : Lists s on f) (known : cache < 8)
    (mine : page ∈ f (.slabsPartial, cache)) (quiet : s.bugs = 0)
    (unlocked : ∀ c < 8, c ≠ cache → s.locked c = false)
    (positive : ∀ c q, on c q → q ≠ page → 0 < (s.pages q).active)
    (filled : strict → ∀ c < 8, ∀ q ∈ f (.slabsFull, c), q ≠ page →
      (s.pages q).active = slotTotal c) :
    Books strict ⟨(allocBlock s cache page).1.spinUnlock cache,
      (cache, (allocBlock s cache page).2) :: objs⟩ := by
  obtain ⟨idx, f', slot, addr, counted', lists', locks, bugs, shift, full⟩ :=
    allocBlock_counted counted lists known mine
  have here : on cache page := (lists.mem_iff cache known page).mpr (.inr mine)
  rw [addr]
  refine ⟨?_, bugs.trans quiet, on, f', counted'.congr rfl rfl rfl,
    lists'.congr rfl fun _ => rfl, ?_, ?_⟩
  · intro c below
    simp only [SlabState.spinUnlock, locks]
    by_cases same : c = cache
    · rw [same, Function.update_self]
    · rw [Function.update_of_ne same, unlocked c below same]
  · intro c q there
    show 0 < ((allocBlock s cache page).1.pages q).active
    by_cases same : q = page
    · have back := slotAddr_page known (counted.ok cache page here).linear slot
      rw [same, (counted'.ok cache page here).active, countOn_cons, if_pos back]
      omega
    · rw [shift.others q same]
      exact positive c q there same
  · intro kept c below q member
    show ((allocBlock s cache page).1.pages q).active = slotTotal c
    by_cases same : q = page
    · subst same
      exact full c below member
    · rw [shift.others q same]
      exact filled kept c below q (shift.full c below q member same) same

private theorem Books.take_joined {vmap : Nat} (books : Books strict r) (known : cache < 8)
    (fresh : freshPage r (.alloc cache (some page) vmap) = true) :
    Books strict ⟨(allocBlock (joined r.state cache page) cache page).1.spinUnlock cache,
      (cache, (allocBlock (joined r.state cache page) cache page).2) :: r.live⟩ := by
  obtain ⟨unlocked, quiet, on, f, counted, lists, positive, filled⟩ := books
  obtain ⟨linear, lowmem, free⟩ := freshPage_some fresh
  obtain ⟨f2, lists2, mine, fullFrom⟩ := lists.join known (counted.not_on free)
  have locked : Counted (lockCache r.state cache) r.live on := counted.congr rfl rfl rfl
  have counted2 : Counted (joined r.state cache page) r.live _ :=
    (locked.open known linear lowmem (counted.not_slab free)).congr rfl rfl rfl
  have same : ∀ q, q ≠ page → (joined r.state cache page).pages q = r.state.pages q :=
    fun q differ => by simp [joined, opened, lockCache, Function.update_of_ne differ]
  refine Books.take counted2 lists2 known mine quiet ?_ ?_ ?_
  · intro c below differ
    simpa [joined, opened, lockCache, Function.update_of_ne differ] using unlocked c below
  · rintro c q (there | ⟨-, rfl⟩) differ
    · rw [same q differ]
      exact positive c q there
    · exact absurd rfl differ
  · intro kept c below q member differ
    rw [same q differ]
    exact filled kept c below q (fullFrom c below q member differ)

private theorem Books.alloc {newPage : Option Nat} {vmap : Nat} (books : Books strict r)
    (fresh : freshPage r (.alloc cache newPage vmap) = true)
    (step : slabStep r (.alloc cache newPage vmap) = some r') : Books strict r' := by
  obtain ⟨unlocked, quiet, on, f, counted, lists, positive, filled⟩ := books
  rw [slabStep] at step
  split_ifs at step with known
  obtain ⟨⟨s', obj⟩, call, rfl⟩ := Option.map_eq_some_iff.mp step
  have given : ∀ page, newPage = some page → page < linearPages ∧
      testBit PageAllocator.pageHighmem (r.state.pages page).flags = false := by
    rintro page rfl
    exact ⟨(freshPage_some fresh).1, (freshPage_some fresh).2.1⟩
  obtain ⟨page, t, rfl, rfl, new⟩ :=
    kmemCacheAlloc_cases lists known (unlocked cache known) (counted.sizes cache known) given call
  have books : Books strict ⟨(allocBlock t cache page).1.spinUnlock cache,
      (cache, (allocBlock t cache page).2) :: r.live⟩ := by
    obtain ⟨rfl, rfl⟩ | ⟨mine, rfl, -⟩ := new
    · exact Books.take_joined ⟨unlocked, quiet, on, f, counted, lists, positive, filled⟩ known fresh
    · have locked : Counted (lockCache r.state cache) r.live on := counted.congr rfl rfl rfl
      have lists1 : Lists (lockCache r.state cache) on f := lists.congr rfl fun _ => rfl
      refine Books.take locked lists1 known mine quiet ?_ (fun c q there _ => positive c q there)
        fun kept c below q member _ => filled kept c below q member
      intro c below differ
      simpa [lockCache, Function.update_of_ne differ] using unlocked c below
  obtain ⟨on', f', counted', -⟩ := books.pages
  have object : (allocBlock t cache page).2 ≠ 0 := counted'.obj_ne_zero List.mem_cons_self
  simpa only [if_neg object] using books

structure Freed (r r' : SlabRun) (cache obj : Nat) (on on' : Nat → Nat → Prop)
    (f f' : SlabList × Nat → List Nat) : Prop where
  step : slabStep r (.free cache obj) = some r'
  unlocked : ∀ c < 8, r'.state.locked c = false
  bugs : r'.state.bugs = r.state.bugs
  live : r'.live = r.live.erase (cache, obj)
  counted : Counted r'.state r'.live on'
  lists : Lists r'.state on' f'
  on_iff : ∀ c q, on' c q ↔
    on c q ∧ (q = virtToPage obj → 1 < (r.state.pages (virtToPage obj)).active)
  shift : Shift r.state r'.state f f' (virtToPage obj)
  keep : 1 < (r.state.pages (virtToPage obj)).active → f' = f

private theorem slabStep_free (unlocked : ∀ c < 8, r.state.locked c = false)
    (counted : Counted r.state r.live on) (lists : Lists r.state on f)
    (mem : (cache, obj) ∈ r.live) : ∃ r' on' f', Freed r r' cache obj on on' f f' := by
  obtain ⟨page, idx, here, slot, rfl⟩ := counted.placed cache obj mem
  have known := counted.known cache page here
  have ok := counted.ok cache page here
  have back := slotAddr_page known ok.linear slot
  have locked : Counted (lockCache r.state cache) r.live on := counted.congr rfl rfl rfl
  have lists1 : Lists (lockCache r.state cache) on f := lists.congr rfl fun _ => rfl
  obtain ⟨on', f', counted', lists', fewer, locks, bugs, shift, keep⟩ :=
    freeBlock_counted locked lists1 here slot mem
  refine ⟨⟨_, _⟩, on', f', ?_, unlocked_release unlocked locks, bugs, rfl,
    counted'.congr rfl rfl rfl, lists'.congr rfl fun _ => rfl, ?_, ?_, ?_⟩
  · rw [slabStep, if_pos mem,
      kmemCacheFree_eq known ok.linear slot ok.owner ok.lowmem (unlocked cache known)]
    rfl
  · rw [back]
    exact fewer
  · rw [back]
    exact ⟨shift.others, shift.full⟩
  · rw [back]
    exact keep

private theorem page_of_live (counted : Counted s objs on) (mem : (cache, obj) ∈ objs) :
    on cache (virtToPage obj) := by
  obtain ⟨page, idx, here, slot, rfl⟩ := counted.placed cache obj mem
  rwa [slotAddr_page (counted.known cache page here) (counted.ok cache page here).linear slot]

private theorem Books.free (books : Books strict r) (mem : (cache, obj) ∈ r.live)
    (room : strict → (r.state.pages (virtToPage obj)).active ≠
      (r.state.pages (virtToPage obj)).total) :
    ∃ r', slabStep r (.free cache obj) = some r' ∧ r'.live = r.live.erase (cache, obj) ∧
      Books strict r' := by
  obtain ⟨unlocked, quiet, on, f, counted, lists, positive, filled⟩ := books
  obtain ⟨r', on', f', freed⟩ := slabStep_free unlocked counted lists mem
  have here := page_of_live counted mem
  have ok := counted.ok cache _ here
  refine ⟨r', freed.step, freed.live, freed.unlocked,
    freed.bugs.trans quiet, on', f', freed.counted,
    freed.lists, ?_, ?_⟩
  · intro c q there
    obtain ⟨before, more⟩ := (freed.on_iff c q).mp there
    by_cases same : q = virtToPage obj
    · have left := more same
      rw [(freed.counted.ok c q there).active, freed.live,
        countOn_erase mem, if_pos same.symm, same,
        ← ok.active]
      omega
    · rw [freed.shift.others q same]
      exact positive c q before
  · intro kept c below q member
    by_cases same : q = virtToPage obj
    · -- the page was not full, and it is still on the list it was on
      obtain ⟨before, more⟩ :=
        (freed.on_iff c q).mp ((freed.lists.mem_iff c below q).mpr (.inl member))
      rw [freed.keep (more same)] at member
      subst same
      obtain rfl := counted.unique here before
      exact absurd ((filled kept cache below _ member).trans ok.total.symm) (room kept)
    · rw [freed.shift.others q same]
      exact filled kept c below q (freed.shift.full c below q member same)

private theorem Books.write {offset : Nat} {byte : BitVec 8} (books : Books strict r)
    (step : slabStep r (.write cache obj offset byte) = some r') : Books strict r' := by
  obtain ⟨unlocked, quiet, on, f, counted, lists, positive, filled⟩ := books
  rw [slabStep] at step
  split_ifs at step with ok
  obtain rfl := Option.some.inj step
  exact ⟨unlocked, quiet, on, f, counted.write ok.1 ok.2 byte, lists.congr rfl fun _ => rfl,
    positive, filled⟩

def freesPartial (r : SlabRun) : SlabOp → Bool
  | .free _ obj => (r.state.pages (virtToPage obj)).active ≠ (r.state.pages (virtToPage obj)).total
  | _ => true

private theorem Books.step {op : SlabOp} (books : Books strict r) (fresh : freshPage r op = true)
    (room : strict → freesPartial r op = true) (step : slabStep r op = some r') :
    Books strict r' := by
  cases op with
  | alloc cache newPage vmap => exact books.alloc fresh step
  | free cache obj =>
    have mem : (cache, obj) ∈ r.live := by
      by_contra missing
      rw [slabStep, if_neg missing] at step
      cases step
    obtain ⟨r1, done, -, books1⟩ := books.free mem fun kept => by
      simpa [freesPartial] using room kept
    obtain rfl := Option.some.inj (done.symm.trans step)
    exact books1
  | write cache obj offset byte => exact books.write step

private theorem slabBoot_books (clean : ∀ page, isSlab s page = false) (strict : Prop) :
    Books strict (slabBoot s) := by
  have created := kmallocInit_created { s with bugs := 0 }
  refine ⟨created.unlocked, created.bugs, fun _ _ => False, fun _ => [], ?_,
    ⟨created.rings, by simp, by simp⟩, by simp, fun _ => by simp [Filled]⟩
  refine ⟨by simp, created.sizes, by simp, ?_, by simp [slabBoot]⟩
  intro page slab
  rw [slabBoot, isSlab, created.pages] at slab
  exact absurd ((clean page).symm.trans slab) Bool.false_ne_true

/-! ### Runs -/

/-- A page that a cache uses: it carries PAGE_SLAB, and its struct names the cache. -/
def PageOf (s : SlabState) (cache page : Nat) : Prop :=
  isSlab s page = true ∧ (s.pages page).slabCache = some cache

private theorem pageOf_iff (counted : Counted s objs on) : PageOf s cache page ↔ on cache page := by
  constructor
  · rintro ⟨slab, owner⟩
    obtain ⟨c, there⟩ := counted.off page slab
    rw [(counted.ok c page there).owner] at owner
    exact Option.some.inj owner ▸ there
  · intro there
    exact ⟨(counted.ok cache page there).slab, (counted.ok cache page there).owner⟩

structure CacheAccounted (r : SlabRun) (f : SlabList × Nat → List Nat) (cache : Nat) : Prop where
  active : ∀ page, PageOf r.state cache page →
    (r.state.pages page).active = countOn r.live page ∧ 1 ≤ (r.state.pages page).active ∧
      (r.state.pages page).active ≤ (r.state.pages page).total
  listed : ∀ page, page ∈ f (.slabsPartial, cache) ++ f (.slabsFull, cache) ↔
    ∃ obj, (cache, obj) ∈ r.live ∧ virtToPage obj = page
  pages : ∀ page, page ∈ f (.slabsPartial, cache) ++ f (.slabsFull, cache) ↔
    PageOf r.state cache page
  once : (f (.slabsPartial, cache) ++ f (.slabsFull, cache)).Nodup

def SlabAccounted (r : SlabRun) : Prop :=
  ∃ f, Rings r.state.links {k | k.2 < 8} f ∧ ∀ cache < 8, CacheAccounted r f cache

private theorem Books.accounted (books : Books strict r) : SlabAccounted r := by
  obtain ⟨-, -, on, f, counted, lists, positive, -⟩ := books
  refine ⟨f, lists.rings, fun cache known => ?_⟩
  have both : ∀ page, page ∈ f (.slabsPartial, cache) ++ f (.slabsFull, cache) ↔ on cache page := by
    intro page
    rw [lists.mem_iff cache known, List.mem_append, or_comm]
  refine ⟨?_, ?_, ?_, ?_⟩
  · intro page mine
    have here := (pageOf_iff counted).mp mine
    have ok := counted.ok cache page here
    exact ⟨ok.active, positive cache page here, ok.total ▸ ok.bounded⟩
  · intro page
    rw [both]
    constructor
    · intro here
      have some' := positive cache page here
      rw [(counted.ok cache page here).active] at some'
      obtain ⟨⟨c, obj⟩, mem, same⟩ := List.countP_pos_iff.mp some'
      obtain rfl : virtToPage obj = page := by simpa using same
      obtain rfl := counted.unique here (page_of_live counted mem)
      exact ⟨obj, mem, rfl⟩
    · rintro ⟨obj, mem, rfl⟩
      exact page_of_live counted mem
  · intro page
    rw [both, pageOf_iff counted]
  · refine List.nodup_append.mpr ⟨lists.rings.nodup _ known, lists.rings.nodup _ known, ?_⟩
    rintro page left _ right rfl
    exact lists.rings.disjoint (.slabsPartial, cache) known (.slabsFull, cache) known (by simp) page
      left right

private theorem Books.alloc_returns {vmap : Nat} (books : Books strict r) (known : cache < 8)
    (fresh : freshPage r (.alloc cache (some page) vmap) = true) :
    ∃ r', slabStep r (.alloc cache (some page) vmap) = some r' := by
  obtain ⟨unlocked, -, on, f, counted, lists, -⟩ := books
  obtain ⟨linear, lowmem, -⟩ := freshPage_some fresh
  obtain ⟨result, call⟩ := (kmemCacheAlloc_returns_iff vmap lists known
    (unlocked cache known) (counted.sizes cache known)
    fun q same => Option.some.inj same ▸ ⟨linear, lowmem⟩).mpr (.inr rfl)
  simp only [slabStep, if_pos known, call]
  exact ⟨_, rfl⟩

private theorem Books.returns_iff (books : Books strict r) (mem : (cache, obj) ∈ r.live)
    (page : Nat) :
    kmemCacheFreeReturns r.state obj = some page ↔
      page = virtToPage obj ∧ countOn (r.live.erase (cache, obj)) page = 0 := by
  obtain ⟨-, -, on, f, counted, -⟩ := books
  have here := page_of_live counted mem
  have ok := counted.ok cache _ here
  have small := (geometry (counted.known cache _ here)).2.2.2.1
  have positive := countOn_pos mem
  dsimp only at positive
  have bounded := ok.bounded
  have last : ((r.state.pages (virtToPage obj)).active + (2 ^ 16 - 1)) % 2 ^ 16 = 0 ↔
      countOn (r.live.erase (cache, obj)) (virtToPage obj) = 0 := by
    rw [countOn_erase mem, if_pos rfl, ok.active]
    rw [ok.active] at bounded
    omega
  simp only [kmemCacheFreeReturns, freeBlockReturns, last]
  constructor
  · intro returned
    split_ifs at returned with empty
    obtain rfl := Option.some.inj returned
    exact ⟨rfl, empty⟩
  · rintro ⟨rfl, empty⟩
    rw [if_pos empty]

/-- From `kmalloc_init` on, whatever is allocated and freed, the counters and lists of every cache
agree with the objects in use, no assertion fails, every call returns, and a page goes back to
the page allocator with the last object on it. -/
theorem slab_run_accounted (s : SlabState) (clean : ∀ page, isSlab s page = false) (t : SlabRun)
    (run : Run slabStep (fun r op => freshPage r op = true) (slabBoot s) t) :
    SlabAccounted t ∧ t.state.bugs = 0 ∧
      (∀ cache page vmap, cache < 8 → freshPage t (.alloc cache (some page) vmap) = true →
        ∃ t', slabStep t (.alloc cache (some page) vmap) = some t') ∧
      ∀ cache obj, (cache, obj) ∈ t.live → ∃ t', slabStep t (.free cache obj) = some t' ∧
        t'.live = t.live.erase (cache, obj) ∧ ∀ page, kmemCacheFreeReturns t.state obj = some page ↔
          page = virtToPage obj ∧ countOn t'.live page = 0 := by
  have books : Books False t := run.invariant (slabBoot_books clean False)
    fun _ _ _ inv ok step => inv.step ok False.elim step
  refine ⟨books.accounted, books.quiet, fun cache page vmap known fresh =>
    books.alloc_returns known fresh, fun cache obj mem => ?_⟩
  obtain ⟨t', step, live, -⟩ := books.free mem False.elim
  refine ⟨t', step, live, fun page => ?_⟩
  rw [live]
  exact books.returns_iff mem page

/-- Two objects of 8 bytes on one page, one of them freed and handed out again, and an object of
1024 bytes on another page: the page of the large object goes back with it. -/
theorem slab_run_accounted_sample :
    ∃ t, exec slabStep freshPage (slabBoot blank) sampleOps = some t ∧ SlabAccounted t ∧
      (7, 0xC0101000) ∈ t.live ∧ kmemCacheFreeReturns t.state 0xC0101000 = some 0x101 ∧
        countOn (t.live.erase (7, 0xC0101000)) 0x101 = 0 := by
  have found : (exec slabStep freshPage (slabBoot blank) sampleOps).map
      (fun t => (decide ((7, 0xC0101000) ∈ t.live), kmemCacheFreeReturns t.state 0xC0101000)) =
        some (true, some 0x101) := by decide +kernel
  obtain ⟨t, eq, facts⟩ := Option.map_eq_some_iff.mp found
  obtain ⟨mem, returned⟩ := Prod.mk.inj facts
  obtain ⟨accounted, -, -, frees⟩ := slab_run_accounted blank blank_clean t (Run.of_exec eq)
  obtain ⟨t', -, live, returns⟩ := frees 7 0xC0101000 (by simpa using mem)
  exact ⟨t, eq, accounted, by simpa using mem, returned, live ▸ ((returns 0x101).mp returned).2⟩

/-! ### Pages that were full -/

/-- The lists tell full pages from partly used ones, and `kmem_cache_alloc` finds the list of
partly used pages empty, and takes a new page, only if all pages of the cache are full. -/
structure SlotsReusable (r : SlabRun) : Prop where
  lists : ∃ f, Rings r.state.links {k | k.2 < 8} f ∧ ∀ cache < 8, ∀ page,
    (page ∈ f (.slabsPartial, cache) ↔ PageOf r.state cache page ∧
      0 < (r.state.pages page).active ∧
        (r.state.pages page).active < (r.state.pages page).total) ∧
    (page ∈ f (.slabsFull, cache) ↔ PageOf r.state cache page ∧
      (r.state.pages page).active = (r.state.pages page).total)
  newPage : ∀ cache < 8, listEmpty r.state.links (.head (.slabsPartial, cache)) = true →
    ∀ page, PageOf r.state cache page → (r.state.pages page).active = (r.state.pages page).total

private theorem Books.reusable (books : Books True r) : SlotsReusable r := by
  obtain ⟨-, -, on, f, counted, lists, positive, filled⟩ := books
  have room : ∀ cache < 8, ∀ page ∈ f (.slabsPartial, cache),
      (r.state.pages page).active < (r.state.pages page).total := by
    intro cache known page member
    rw [(counted.ok cache page ((lists.mem_iff cache known page).mpr (.inr member))).total]
    exact lists.room cache known page member
  have full : ∀ cache < 8, ∀ page ∈ f (.slabsFull, cache),
      (r.state.pages page).active = (r.state.pages page).total := by
    intro cache known page member
    rw [(counted.ok cache page ((lists.mem_iff cache known page).mpr (.inl member))).total]
    exact filled trivial cache known page member
  refine ⟨⟨f, lists.rings, fun cache known page => ?_⟩, fun cache known empty page mine => ?_⟩
  · rw [pageOf_iff counted]
    have split := lists.mem_iff cache known page
    refine ⟨⟨?_, ?_⟩, ⟨?_, ?_⟩⟩
    · intro member
      have here := split.mpr (.inr member)
      exact ⟨here, positive cache page here, room cache known page member⟩
    · rintro ⟨here, -, less⟩
      refine (split.mp here).resolve_left fun member => ?_
      exact absurd (full cache known page member) less.ne
    · intro member
      exact ⟨split.mpr (.inl member), full cache known page member⟩
    · rintro ⟨here, eq⟩
      refine (split.mp here).resolve_right fun member => ?_
      exact absurd eq (room cache known page member).ne
  · have none := (listEmpty_iff lists.rings (i := (.slabsPartial, cache)) known).mp empty
    have here := (lists.mem_iff cache known page).mp ((pageOf_iff counted).mp mine)
    rw [none] at here
    exact full cache known page (here.resolve_right List.not_mem_nil)

private theorem one_lt_slotTotal (known : cache < 8) : 1 < slotTotal cache := by
  revert cache
  decide

private theorem Books.free_full (books : Books True r) (mem : (cache, obj) ∈ r.live)
    (full : (r.state.pages (virtToPage obj)).active = (r.state.pages (virtToPage obj)).total)
    (step : slabStep r (.free cache obj) = some r') : ¬ SlotsReusable r' := by
  rintro ⟨⟨g, rings, exact'⟩, -⟩
  obtain ⟨unlocked, -, on, f, counted, lists, -⟩ := books
  obtain ⟨r1, on', f', freed⟩ := slabStep_free unlocked counted lists mem
  obtain rfl := Option.some.inj (freed.step.symm.trans step)
  have here := page_of_live counted mem
  have known := counted.known cache _ here
  have ok := counted.ok cache _ here
  have many := one_lt_slotTotal known
  have more : 1 < (r.state.pages (virtToPage obj)).active := by rw [full, ok.total]; exact many
  have listed : virtToPage obj ∈ f (.slabsFull, cache) := by
    refine ((lists.mem_iff cache known _).mp here).resolve_right fun member => ?_
    have room := lists.room cache known _ member
    rw [full, ok.total] at room
    exact Nat.lt_irrefl _ room
  have same : g (.slabsFull, cache) = f (.slabsFull, cache) := by
    rw [← freed.keep more]
    exact rings.unique freed.lists.rings known
  have there : on' cache (virtToPage obj) := (freed.on_iff _ _).mpr ⟨here, fun _ => more⟩
  have ok' := freed.counted.ok cache _ there
  have still := ((exact' cache known (virtToPage obj)).2.mp (same ▸ listed)).2
  rw [ok'.total, ok'.active, freed.live, countOn_erase mem, if_pos rfl, ← ok.active] at still
  rw [ok.total] at full
  omega

/-- From `kmalloc_init` on, as long as no object is freed on a full page, the lists tell full
pages from partly used ones. The first such free ends that. -/
theorem slab_run_reusable (s : SlabState) (clean : ∀ page, isSlab s page = false) (t : SlabRun)
    (run : Run slabStep (fun r op => freshPage r op = true ∧ freesPartial r op = true)
      (slabBoot s) t) :
    SlotsReusable t ∧ ∀ op t', freshPage t op = true → slabStep t op = some t' →
      (SlotsReusable t' ↔ freesPartial t op = true) := by
  have books : Books True t := run.invariant (slabBoot_books clean True)
    fun _ _ _ inv ok step => inv.step ok.1 (fun _ => ok.2) step
  refine ⟨books.reusable, fun op t' fresh step => ⟨fun good => ?_, fun room => ?_⟩⟩
  · cases op with
    | alloc cache newPage vmap => rfl
    | write cache obj offset byte => rfl
    | free cache obj =>
      have mem : (cache, obj) ∈ t.live := by
        by_contra missing
        rw [slabStep, if_neg missing] at step
        cases step
      simp only [freesPartial, ne_eq, decide_not, Bool.not_eq_true', decide_eq_false_iff_not]
      exact fun full => books.free_full mem full step good
  · exact (books.step fresh (fun _ => room) step).reusable

theorem slab_run_reusable_sample :
    ∃ t, exec slabStep (fun r op => freshPage r op && freesPartial r op) (slabBoot blank)
      sampleOps = some t ∧ t.live.length = 3 ∧ SlotsReusable t := by
  have three : (exec slabStep (fun r op => freshPage r op && freesPartial r op) (slabBoot blank)
      sampleOps).map (fun t => t.live.length) = some 3 := by decide +kernel
  obtain ⟨t, eq, count⟩ := Option.map_eq_some_iff.mp three
  have run : Run slabStep (fun r op => freshPage r op = true ∧ freesPartial r op = true)
      (slabBoot blank) t := (Run.of_exec eq).mono fun _ _ ok => by simpa using ok
  exact ⟨t, eq, count, (slab_run_reusable blank blank_clean t run).1⟩

def fullPageOps : List SlabOp :=
  [.alloc 7 (some 0x100) 0, .alloc 7 none 0, .alloc 7 none 0, .free 7 0xC0100000]

/-- The page with the free slot is on the list of full pages, so that the next allocation takes a
new page. -/
theorem slab_run_not_reusable :
    ¬ ∀ s, (∀ page, isSlab s page = false) → ∀ t,
      Run slabStep (fun r op => freshPage r op = true) (slabBoot s) t → SlotsReusable t := by
  intro claim
  have state : (exec slabStep freshPage (slabBoot blank) fullPageOps).map (fun t =>
      (listEmpty t.state.links (.head (.slabsPartial, 7)), isSlab t.state 0x100,
        (t.state.pages 0x100).slabCache, (t.state.pages 0x100).active,
          (t.state.pages 0x100).total)) = some (true, true, some 7, 2, 3) := by decide +kernel
  obtain ⟨t, eq, facts⟩ := Option.map_eq_some_iff.mp state
  simp only [Prod.mk.injEq] at facts
  obtain ⟨empty, slab, owner, active, total⟩ := facts
  have same := (claim blank blank_clean t (Run.of_exec eq)).newPage 7 (by decide) empty 0x100
    ⟨slab, owner⟩
  rw [active, total] at same
  exact absurd same (by decide)

end OhMyOs.Mm.SlabAccounting
