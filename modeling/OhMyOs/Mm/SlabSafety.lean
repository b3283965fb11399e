/- GID: OhMyOs/Mm/SlabSafety
   generality: I
   digest: The slab allocator of mm/slab.c hands out each slot of a page at most once. -/

import OhMyOs.Lib.SlotStack
import OhMyOs.Mm.Slab

set_option autoImplicit false
set_option relaxedAutoImplicit false

namespace OhMyOs.Mm.SlabSafety

open OhMyOs.Lib.Ring OhMyOs.Lib.SlotStack OhMyOs.Include.IntrusiveList OhMyOs.Include.Bitops
open OhMyOs.Include.Memory
open OhMyOs.Mm.PageAllocator (pageHighmem pageSlab)
open OhMyOs.Mm.Slab

/-! ### Geometry of a slab page -/

def objSize (cache : Nat) : Nat := minSize <<< cache

def arrayBytes (cache : Nat) : Nat := pageSize / objSize cache

/-- `page->total` -/
def slotTotal (cache : Nat) : Nat := (pageSize - arrayBytes cache) / objSize cache

def slotCount (cache : Nat) : Nat := min (slotTotal cache) 256

def linearPages : Nat := 0x38000

theorem geometry {cache : Nat} (known : cache < 8) :
    0 < objSize cache ∧ objSize cache ≤ pageSize ∧ 0 < slotTotal cache ∧ slotTotal cache < 2 ^ 16 ∧
      slotCount cache ≤ arrayBytes cache ∧ arrayBytes cache < pageSize ∧
        objSize cache * slotCount cache + arrayBytes cache ≤ pageSize := by
  revert cache
  decide

theorem pageToVirt_eq {page : Nat} (linear : page < linearPages) :
    pageToVirt page = pageSize * page + kernelVirtBase := by
  unfold pageToVirt physToVirt linearPages at *
  simp only [pageSize, kernelVirtBase]
  omega

theorem virtToPage_eq {page offset : Nat} (linear : page < linearPages)
    (inside : offset < pageSize) :
    virtToPage (pageToVirt page + offset) = page := by
  rw [pageToVirt_eq linear, virtToPage, Nat.shiftRight_eq_div_pow]
  unfold linearPages at linear
  simp only [pageSize, pageShift, kernelVirtBase, virtToPhys, wsub] at *
  omega

def slotAddr (cache page idx : Nat) : Nat := pageToVirt page + objSize cache * idx

def arrayAddr (cache page : Nat) : Nat := pageToVirt page + pageSize - arrayBytes cache

theorem slotAddr_bound {cache idx : Nat} (known : cache < 8) (slot : idx < slotCount cache)
    (page : Nat) :
    slotAddr cache page idx + objSize cache ≤ arrayAddr cache page := by
  obtain ⟨-, -, -, -, -, small, fits⟩ := geometry known
  have step : objSize cache * (idx + 1) ≤ objSize cache * slotCount cache :=
    Nat.mul_le_mul_left _ slot
  rw [Nat.mul_succ] at step
  unfold slotAddr arrayAddr
  omega

theorem slotAddr_apart {cache page i j : Nat} (order : i < j) :
    slotAddr cache page i + objSize cache ≤ slotAddr cache page j := by
  have step : objSize cache * (i + 1) ≤ objSize cache * j := Nat.mul_le_mul_left _ order
  rw [Nat.mul_succ] at step
  unfold slotAddr
  omega

theorem pageToVirt_apart {p q : Nat} (left : p < linearPages) (right : q < linearPages)
    (differ : p ≠ q) : pageToVirt p + pageSize ≤ pageToVirt q ∨
      pageToVirt q + pageSize ≤ pageToVirt p := by
  rw [pageToVirt_eq left, pageToVirt_eq right]
  simp only [pageSize]
  omega

/-! ### Invariant -/

def freeSlots (s : SlabState) (cache page : Nat) : List Nat :=
  (List.range' (s.pages page).active (slotCount cache - (s.pages page).active)).map
    fun j => (s.mem (arrayAddr cache page + j)).toNat

structure PageOk (s : SlabState) (cache page : Nat) (used : List Nat) : Prop where
  linear : page < linearPages
  lowmem : testBit pageHighmem (s.pages page).flags = false
  owner : (s.pages page).slabCache = some cache
  sMem : (s.pages page).sMem = pageToVirt page
  freelist : (s.pages page).freelist = arrayAddr cache page
  total : (s.pages page).total = slotTotal cache
  active : (s.pages page).active = used.length
  slots : Slots (slotCount cache) used (freeSlots s cache page)

/-- The pages of the caches and the objects handed out: `on` says which pages belong to which
cache, `used` which slots of a page are in use. -/
structure Objects (s : SlabState) (live : List (Nat × Nat)) (on : Nat → Nat → Prop)
    (used : Nat → List Nat) : Prop where
  known : ∀ cache page, on cache page → cache < 8
  sizes : ∀ cache < 8, s.size cache = objSize cache
  ok : ∀ cache page, on cache page → PageOk s cache page (used page)
  owned : ∀ page, (s.pages page).slabCache ≠ none → ∃ cache, on cache page
  nodup : live.Nodup
  live_iff : ∀ cache obj, (cache, obj) ∈ live ↔
    ∃ page, on cache page ∧ ∃ idx ∈ used page, obj = slotAddr cache page idx
  quiet : s.bugs = 0

/-- The lists of the caches hold their pages, and a page on a list of partly used pages has an
unused slot. -/
structure Lists (s : SlabState) (on : Nat → Nat → Prop) (f : SlabList × Nat → List Nat) : Prop where
  rings : Rings s.links {k | k.2 < 8} f
  mem_iff : ∀ cache < 8, ∀ page,
    on cache page ↔ page ∈ f (.slabsFull, cache) ∨ page ∈ f (.slabsPartial, cache)
  room : ∀ cache < 8, ∀ page ∈ f (.slabsPartial, cache), (s.pages page).active < slotTotal cache

variable {s s' : SlabState} {cache page idx : Nat} {slots : List Nat}

private theorem freeSlots_frame (same : s'.pages page = s.pages page)
    (bytes : ∀ j < slotCount cache,
      s'.mem (arrayAddr cache page + j) = s.mem (arrayAddr cache page + j)) :
    freeSlots s' cache page = freeSlots s cache page := by
  unfold freeSlots
  rw [same]
  refine List.map_congr_left fun j member => ?_
  have bound := List.mem_range'_1.mp member
  rw [bytes j (by omega)]

private theorem PageOk.frame (ok : PageOk s cache page slots) (same : s'.pages page = s.pages page)
    (bytes : ∀ j < slotCount cache,
      s'.mem (arrayAddr cache page + j) = s.mem (arrayAddr cache page + j)) :
    PageOk s' cache page slots := by
  obtain ⟨linear, lowmem, owner, sMem, freelist, total, active, free⟩ := ok
  refine ⟨linear, ?_, ?_, ?_, ?_, ?_, ?_, ?_⟩
  · rw [same, lowmem]
  · rw [same, owner]
  · rw [same, sMem]
  · rw [same, freelist]
  · rw [same, total]
  · rw [same, active]
  · rw [freeSlots_frame same bytes]
    exact free

private theorem array_apart {other j : Nat} (known : cache < 8) (linear : page < linearPages)
    (linear' : other < linearPages) (differ : page ≠ other) (slot : j < slotCount cache)
    {addr : Nat} (low : pageToVirt other ≤ addr) (high : addr < pageToVirt other + pageSize) :
    arrayAddr cache page + j ≠ addr := by
  obtain ⟨-, -, -, -, bytes, small, -⟩ := geometry known
  have apart := pageToVirt_apart linear linear' differ
  unfold arrayAddr
  omega

variable {live : List (Nat × Nat)} {on : Nat → Nat → Prop} {used : Nat → List Nat}

theorem Objects.congr (objs : Objects s live on used) (pages : s'.pages = s.pages)
    (size : s'.size = s.size) (mem : s'.mem = s.mem) (bugs : s'.bugs = s.bugs) :
    Objects s' live on used := by
  refine ⟨objs.known, ?_, fun c q there => ?_, ?_, objs.nodup, objs.live_iff, ?_⟩
  · rw [size]
    exact objs.sizes
  · exact (objs.ok c q there).frame (by rw [pages]) fun j _ => by rw [mem]
  · rw [pages]
    exact objs.owned
  · rw [bugs]
    exact objs.quiet

theorem Objects.unique (objs : Objects s live on used) {other : Nat} (left : on cache page)
    (right : on other page) : cache = other := by
  have owner := (objs.ok cache page left).owner
  rw [(objs.ok other page right).owner] at owner
  exact (Option.some.inj owner).symm

theorem slotAddr_page (known : cache < 8) (linear : page < linearPages)
    (slot : idx < slotCount cache) : virtToPage (slotAddr cache page idx) = page := by
  have bound := slotAddr_bound known slot page
  obtain ⟨positive, -, -, -, -, small, -⟩ := geometry known
  refine virtToPage_eq linear ?_
  unfold slotAddr arrayAddr at bound
  omega

private theorem slotAddr_index (known : cache < 8) (linear : page < linearPages)
    (slot : idx < slotCount cache) :
    wsub (slotAddr cache page idx) (pageToVirt page) / objSize cache = idx := by
  have bound := slotAddr_bound known slot page
  obtain ⟨positive, -, -, -, -, small, -⟩ := geometry known
  have base := pageToVirt_eq linear
  have fits : slotAddr cache page idx < 2 ^ 32 := by
    unfold arrayAddr at bound
    unfold linearPages at linear
    simp only [pageSize, kernelVirtBase] at *
    omega
  rw [wsub_eq (by unfold slotAddr; omega) fits, slotAddr, Nat.add_sub_cancel_left,
    Nat.mul_div_cancel_left _ positive]

private theorem Objects.slot_unique (objs : Objects s live on used) {cache' page' idx' : Nat}
    (left : on cache page) (right : on cache' page') (slot : idx < slotCount cache)
    (slot' : idx' < slotCount cache')
    (same : slotAddr cache page idx = slotAddr cache' page' idx') :
    page = page' ∧ idx = idx' := by
  have here := slotAddr_page (objs.known _ _ left) (objs.ok _ _ left).linear slot
  have there := slotAddr_page (objs.known _ _ right) (objs.ok _ _ right).linear slot'
  rw [same, there] at here
  subst here
  obtain rfl := objs.unique left right
  have positive := (geometry (objs.known _ _ left)).1
  exact ⟨rfl, Nat.eq_of_mul_eq_mul_left positive (Nat.add_left_cancel same)⟩

private theorem freeSlots_cons (room : (s.pages page).active < slotCount cache) :
    freeSlots s cache page =
      (s.mem (arrayAddr cache page + (s.pages page).active)).toNat ::
        (List.range' ((s.pages page).active + 1)
          (slotCount cache - ((s.pages page).active + 1))).map
            fun j => (s.mem (arrayAddr cache page + j)).toNat := by
  obtain ⟨k, count⟩ : ∃ k, slotCount cache - (s.pages page).active = k + 1 :=
    ⟨slotCount cache - (s.pages page).active - 1, by omega⟩
  have rest : slotCount cache - ((s.pages page).active + 1) = k := by omega
  rw [freeSlots, count, rest, List.range'_succ, List.map_cons]

private theorem PageOk.restack {n : Nat} {slots' : List Nat} (ok : PageOk s cache page slots)
    (moved : s'.pages page = { s.pages page with active := n }) (count : n = slots'.length)
    (free : Slots (slotCount cache) slots' (freeSlots s' cache page)) :
    PageOk s' cache page slots' := by
  refine ⟨ok.linear, ?_, ?_, ?_, ?_, ?_, ?_, free⟩
  · rw [moved, ok.lowmem]
  · rw [moved, ok.owner]
  · rw [moved, ok.sMem]
  · rw [moved, ok.freelist]
  · rw [moved, ok.total]
  · rw [moved, count]

private theorem Objects.restack {n : Nat} {live' : List (Nat × Nat)} (objs : Objects s live on used)
    (mine : on cache page)
    (moved : s'.pages = Function.update s.pages page { s.pages page with active := n })
    (size : s'.size = s.size) (bugs : s'.bugs = s.bugs)
    (bytes : ∀ c q, on c q → q ≠ page → ∀ j < slotCount c,
      s'.mem (arrayAddr c q + j) = s.mem (arrayAddr c q + j))
    (here : PageOk s' cache page slots) (nodup : live'.Nodup)
    (live_iff : ∀ c o, (c, o) ∈ live' ↔
      ∃ q, on c q ∧ ∃ i ∈ Function.update used page slots q, o = slotAddr c q i) :
    Objects s' live' on (Function.update used page slots) := by
  refine ⟨objs.known, size ▸ objs.sizes, ?_, ?_, nodup, live_iff, bugs ▸ objs.quiet⟩
  · intro c q there
    by_cases same : q = page
    · subst same
      obtain rfl := objs.unique mine there
      rwa [Function.update_self]
    · rw [Function.update_of_ne same]
      refine (objs.ok c q there).frame ?_ (bytes c q there same)
      rw [moved, Function.update_of_ne same]
  · intro q owned
    by_cases same : q = page
    · exact ⟨cache, same ▸ mine⟩
    · rw [moved, Function.update_of_ne same] at owned
      exact objs.owned q owned

theorem Objects.take (objs : Objects s live on used) (mine : on cache page)
    (room : (s.pages page).active < slotCount cache) :
    ∃ idx, (s.mem ((s.pages page).freelist + (s.pages page).active)).toNat = idx ∧
      Objects (s.setPage page fun p => { p with active := (p.active + 1) % 2 ^ 16 })
        ((cache, slotAddr cache page idx) :: live) on
          (Function.update used page (idx :: used page)) := by
  have known := objs.known cache page mine
  have ok := objs.ok cache page mine
  obtain ⟨-, -, -, small, -⟩ := geometry known
  have step : ((s.pages page).active + 1) % 65536 = (s.pages page).active + 1 := by
    unfold slotCount at room
    omega
  refine ⟨_, rfl, ?_⟩
  rw [ok.freelist]
  generalize top : (s.mem (arrayAddr cache page + (s.pages page).active)).toNat = idx
  have slots := ok.slots
  rw [freeSlots_cons room, top] at slots
  have idxSlot : idx < slotCount cache := slots.take.used_lt List.mem_cons_self
  refine objs.restack mine rfl rfl rfl (fun _ _ _ _ _ _ => rfl)
    (ok.restack (Function.update_self ..) ?_ ?_) ?_ ?_
  · simpa [step] using ok.active
  · simpa [freeSlots, SlabState.setPage, step] using slots.take
  · refine List.nodup_cons.mpr ⟨fun old => ?_, objs.nodup⟩
    obtain ⟨page', there, idx', inUse, same⟩ := (objs.live_iff _ _).mp old
    have bound := (objs.ok _ _ there).slots.used_lt inUse
    obtain ⟨rfl, rfl⟩ := objs.slot_unique mine there idxSlot bound same
    exact slots.not_used inUse
  · intro c o
    rw [List.mem_cons, objs.live_iff]
    constructor
    · rintro (new | ⟨q, there, i, inUse, rfl⟩)
      · obtain ⟨rfl, rfl⟩ := Prod.mk.inj new
        exact ⟨page, mine, idx, by simp, rfl⟩
      · refine ⟨q, there, i, ?_, rfl⟩
        by_cases same : q = page
        · subst same
          simp [inUse]
        · rwa [Function.update_of_ne same]
    · rintro ⟨q, there, i, inUse, rfl⟩
      by_cases same : q = page
      · subst same
        obtain rfl := objs.unique mine there
        rw [Function.update_self] at inUse
        rcases List.mem_cons.mp inUse with rfl | old
        · exact .inl rfl
        · exact .inr ⟨q, there, i, old, rfl⟩
      · rw [Function.update_of_ne same] at inUse
        exact .inr ⟨q, there, i, inUse, rfl⟩

private theorem freeSlots_push (byte : idx < 256) (positive : 0 < (s.pages page).active)
    (room : (s.pages page).active ≤ slotCount cache) :
    freeSlots { s.setPage page fun p => { p with active := p.active - 1 } with
        mem := Function.update s.mem (arrayAddr cache page + ((s.pages page).active - 1))
          (BitVec.ofNat 8 idx) } cache page = idx :: freeSlots s cache page := by
  rw [freeSlots_cons (by simp [SlabState.setPage]; omega)]
  have back : (s.pages page).active - 1 + 1 = (s.pages page).active := by omega
  simp only [SlabState.setPage, Function.update_self, back, freeSlots]
  congr 1
  · simp [Nat.mod_eq_of_lt byte]
  · refine List.map_congr_left fun j member => ?_
    have bound := List.mem_range'_1.mp member
    have differ : arrayAddr cache page + j ≠
        arrayAddr cache page + ((s.pages page).active - 1) := by
      omega
    rw [Function.update_of_ne differ]

theorem Objects.give (objs : Objects s live on used) (mine : on cache page)
    (inUse : idx ∈ used page) :
    Objects { s.setPage page fun p => { p with active := p.active - 1 } with
        mem := Function.update s.mem (arrayAddr cache page + ((s.pages page).active - 1))
          (BitVec.ofNat 8 idx) }
      (live.erase (cache, slotAddr cache page idx)) on
        (Function.update used page ((used page).erase idx)) := by
  have known := objs.known cache page mine
  have ok := objs.ok cache page mine
  have idxSlot := ok.slots.used_lt inUse
  have byte : idx < 256 := lt_of_lt_of_le idxSlot (Nat.min_le_right ..)
  have count := ok.slots.length_eq
  rw [List.length_append, List.length_range] at count
  have some' : 0 < (used page).length := List.length_pos_of_mem inUse
  have active := ok.active
  obtain ⟨-, -, -, -, arrayFits, small, -⟩ := geometry known
  refine objs.restack mine rfl rfl rfl ?_ (ok.restack (Function.update_self ..) ?_ ?_)
    (objs.nodup.erase _) ?_
  · intro c q there other j slot
    have differ : arrayAddr c q + j ≠ arrayAddr cache page + ((s.pages page).active - 1) := by
      refine array_apart (objs.known _ _ there)
        (objs.ok _ _ there).linear ok.linear other slot ?_ ?_
      · unfold arrayAddr
        omega
      · unfold arrayAddr
        omega
    simp only [Function.update_of_ne differ]
  · rw [List.length_erase_of_mem inUse, active]
  · rw [freeSlots_push byte (by omega) (by omega)]
    exact ok.slots.give inUse
  · intro c o
    rw [objs.nodup.mem_erase_iff, objs.live_iff]
    constructor
    · rintro ⟨differ, q, there, i, old, rfl⟩
      refine ⟨q, there, i, ?_, rfl⟩
      by_cases same : q = page
      · subst same
        obtain rfl := objs.unique mine there
        rw [Function.update_self]
        exact (List.mem_erase_of_ne fun eq => differ (by rw [eq])).mpr old
      · rwa [Function.update_of_ne same]
    · rintro ⟨q, there, i, kept, rfl⟩
      have old : i ∈ used q ∧ ¬ (q = page ∧ i = idx) := by
        by_cases same : q = page
        · subst same
          rw [Function.update_self, ok.slots.used_nodup.mem_erase_iff] at kept
          exact ⟨kept.2, fun both => kept.1 both.2⟩
        · rw [Function.update_of_ne same] at kept
          exact ⟨kept, fun both => same both.1⟩
      refine ⟨fun eq => old.2 ?_, q, there, i, old.1, rfl⟩
      exact objs.slot_unique there mine ((objs.ok _ _ there).slots.used_lt old.1) idxSlot
        (Prod.mk.inj eq).2

theorem Objects.drop (objs : Objects s live on used) (empty : used page = []) :
    Objects (slabPageDeinit s page) live (fun c q => on c q ∧ q ≠ page) used := by
  refine ⟨fun c q there => objs.known c q there.1, objs.sizes, ?_, ?_, objs.nodup, ?_, objs.quiet⟩
  · rintro c q ⟨there, other⟩
    refine (objs.ok c q there).frame ?_ fun _ _ => rfl
    simp [slabPageDeinit, SlabState.setPage, Function.update_of_ne other]
  · intro q owned
    by_cases same : q = page
    · subst same
      simp [slabPageDeinit, SlabState.setPage] at owned
    · simp only [slabPageDeinit, SlabState.setPage, Function.update_of_ne same] at owned
      obtain ⟨c, there⟩ := objs.owned q owned
      exact ⟨c, there, same⟩
  · intro c o
    rw [objs.live_iff]
    constructor
    · rintro ⟨q, there, i, inUse, rfl⟩
      refine ⟨q, ⟨there, ?_⟩, i, inUse, rfl⟩
      rintro rfl
      simp [empty] at inUse
    · rintro ⟨q, ⟨there, -⟩, i, inUse, rfl⟩
      exact ⟨q, there, i, inUse, rfl⟩

theorem fillFreelist_apply (mem : Nat → BitVec 8) (freelist total addr : Nat) :
    fillFreelist mem freelist total addr =
      if freelist ≤ addr ∧ addr < freelist + total then BitVec.ofNat 8 (addr - freelist)
      else mem addr := by
  induction total with
  | zero => simp [fillFreelist]
  | succ n ih =>
    have unfold' : fillFreelist mem freelist (n + 1) =
        Function.update (fillFreelist mem freelist n) (freelist + n) (BitVec.ofNat 8 n) := by
      simp [fillFreelist, List.range_succ]
    rw [unfold']
    by_cases last : addr = freelist + n
    · subst last
      simp
    · rw [Function.update_of_ne last, ih]
      have same : (freelist ≤ addr ∧ addr < freelist + n) ↔
          (freelist ≤ addr ∧ addr < freelist + (n + 1)) := by omega
      simp only [same]

def opened (s : SlabState) (cache page : Nat) : SlabState :=
  { s with
    pages := Function.update s.pages page
      { flags := setBit pageSlab (s.pages page).flags
        sMem := pageToVirt page
        freelist := arrayAddr cache page
        active := 0
        total := slotTotal cache
        slabCache := some cache }
    mem := fillFreelist s.mem (arrayAddr cache page) (arrayBytes cache) }

theorem opened_mem {addr : Nat} (known : cache < 8)
    (outside : pageToVirt page ≤ addr → pageToVirt page + pageSize ≤ addr) :
    (opened s cache page).mem addr = s.mem addr := by
  have small := (geometry known).2.2.2.2.2.1
  simp only [opened, fillFreelist_apply]
  rw [if_neg]
  unfold arrayAddr
  omega

theorem slabPageInit_eq {vmap : Nat} (size : s.size cache = objSize cache)
    (linear : page < linearPages) (lowmem : testBit pageHighmem (s.pages page).flags = false) :
    slabPageInit s cache page vmap = (opened s cache page, 0) := by
  have address : pageAddress s page vmap = pageToVirt page := by simp [pageAddress, lowmem]
  have nonzero : pageToVirt page ≠ 0 := by
    rw [pageToVirt_eq linear]
    simp [kernelVirtBase]
  simp [slabPageInit, SlabState.setPage, address, nonzero, opened, size, arrayAddr, arrayBytes,
    slotTotal]

theorem allocBlock_eq (size : s.size cache = objSize cache)
    (sMem : (s.pages page).sMem = pageToVirt page)
    (room : (s.pages page).active < (s.pages page).total)
    (index : (s.mem ((s.pages page).freelist + (s.pages page).active)).toNat = idx) :
    let t := s.setPage page fun p => { p with active := (p.active + 1) % 2 ^ 16 }
    allocBlock s cache page =
      if (t.pages page).active = (t.pages page).total then
        ({ t with
          links := listInsert (listRemove t.links (.node page)) (.head (.slabsFull, cache))
            (.node page) }, slotAddr cache page idx)
      else (t, slotAddr cache page idx) := by
  intro t
  have passes : s.assert ((s.pages page).active < (s.pages page).total) = s := by
    simp [SlabState.assert, room]
  have obj : indexToObj t cache page idx = slotAddr cache page idx := by
    simp [indexToObj, slotAddr, t, SlabState.setPage, sMem, size]
  rw [← obj]
  simp only [allocBlock, passes, index]
  rfl

theorem freeBlock_eq (size : s.size cache = objSize cache)
    (sMem : (s.pages page).sMem = pageToVirt page)
    (freelist : (s.pages page).freelist = arrayAddr cache page) (known : cache < 8)
    (linear : page < linearPages) (slot : idx < slotCount cache)
    (positive : 0 < (s.pages page).active) (short : (s.pages page).active < 2 ^ 16) :
    let t : SlabState :=
      { s.setPage page fun p => { p with active := p.active - 1 } with
        mem := Function.update s.mem (arrayAddr cache page + ((s.pages page).active - 1))
          (BitVec.ofNat 8 idx) }
    freeBlock s cache page (slotAddr cache page idx) =
      if (t.pages page).active = 0 then
        slabPageDeinit { t with links := listRemove t.links (.node page) } page
      else t := by
  intro t
  have passes : s.assert (0 < (s.pages page).active) = s := by
    simp [SlabState.assert, positive]
  have index : objToIndex s cache page (slotAddr cache page idx) = idx := by
    simp only [objToIndex, sMem, size]
    exact slotAddr_index known linear slot
  have less : ((s.pages page).active + 65535) % 65536 = (s.pages page).active - 1 := by omega
  simp [freeBlock, passes, index, SlabState.setPage, less, freelist, t]

private theorem freeSlots_opened (arrayFits : slotCount cache ≤ arrayBytes cache) :
    freeSlots (opened s cache page) cache page = List.range (slotCount cache) := by
  have start : ((opened s cache page).pages page).active = 0 := by simp [opened]
  rw [freeSlots, start, Nat.sub_zero, ← List.range_eq_range']
  conv_rhs => rw [← List.map_id (List.range (slotCount cache))]
  refine List.map_congr_left fun j member => ?_
  have bound := List.mem_range.mp member
  have byte : j < 256 := lt_of_lt_of_le bound (Nat.min_le_right ..)
  have inside : arrayAddr cache page ≤ arrayAddr cache page + j ∧
      arrayAddr cache page + j < arrayAddr cache page + arrayBytes cache := by omega
  simp only [opened, fillFreelist_apply, if_pos inside]
  simp [Nat.mod_eq_of_lt byte]

theorem Objects.open (objs : Objects s live on used) (known : cache < 8)
    (linear : page < linearPages) (lowmem : testBit pageHighmem (s.pages page).flags = false)
    (fresh : (s.pages page).slabCache = none) :
    Objects (opened s cache page) live (fun c q => on c q ∨ (c = cache ∧ q = page))
      (Function.update used page []) := by
  have notOn : ∀ c q, on c q → q ≠ page := by
    rintro c q there rfl
    simp [(objs.ok c q there).owner] at fresh
  have arrayFits := (geometry known).2.2.2.2.1
  refine ⟨?_, objs.sizes, ?_, ?_, objs.nodup, ?_, objs.quiet⟩
  · rintro c q (there | ⟨rfl, -⟩)
    · exact objs.known c q there
    · exact known
  · rintro c q (there | ⟨rfl, rfl⟩)
    · have other := notOn c q there
      rw [Function.update_of_ne other]
      refine (objs.ok c q there).frame (Function.update_of_ne other _ _) fun j slot => ?_
      refine opened_mem known fun low => Nat.le_of_not_lt fun high => ?_
      exact array_apart (objs.known c q there) (objs.ok c q there).linear linear other slot low high
        rfl
    · rw [Function.update_self]
      refine ⟨linear, ?_, ?_, ?_, ?_, ?_, ?_, ?_⟩
      · simp only [opened, Function.update_self]
        rw [testBit_setBit_ne (by decide) (by decide), lowmem]
      · simp [opened]
      · simp [opened]
      · simp [opened]
      · simp [opened]
      · simp [opened]
      · rw [freeSlots_opened arrayFits]
        exact .start _
  · intro q owned
    by_cases same : q = page
    · exact ⟨cache, .inr ⟨rfl, same⟩⟩
    · simp only [opened, Function.update_of_ne same] at owned
      obtain ⟨c, there⟩ := objs.owned q owned
      exact ⟨c, .inl there⟩
  · intro c o
    rw [objs.live_iff]
    constructor
    · rintro ⟨q, there, i, inUse, rfl⟩
      refine ⟨q, .inl there, i, ?_, rfl⟩
      rwa [Function.update_of_ne (notOn c q there)]
    · rintro ⟨q, there | ⟨rfl, rfl⟩, i, inUse, rfl⟩
      · rw [Function.update_of_ne (notOn c q there)] at inUse
        exact ⟨q, there, i, inUse, rfl⟩
      · simp at inUse

theorem Objects.write (objs : Objects s live on used) {obj offset : Nat}
    (mine : (cache, obj) ∈ live) (inside : offset < objSize cache) (byte : BitVec 8) :
    Objects { s with mem := Function.update s.mem (obj + offset) byte } live on used := by
  obtain ⟨page, here, idx, inUse, rfl⟩ := (objs.live_iff _ _).mp mine
  have known := objs.known _ _ here
  have ok := objs.ok _ _ here
  have bound := slotAddr_bound known (ok.slots.used_lt inUse) page
  obtain ⟨-, -, -, -, -, small, -⟩ := geometry known
  refine ⟨objs.known, objs.sizes, ?_, objs.owned, objs.nodup, objs.live_iff, objs.quiet⟩
  intro c q there
  refine (objs.ok c q there).frame rfl fun j slot => ?_
  have differ : arrayAddr c q + j ≠ slotAddr cache page idx + offset := by
    by_cases same : q = page
    · subst same
      obtain rfl := objs.unique here there
      omega
    · refine array_apart (objs.known _ _ there) (objs.ok _ _ there).linear ok.linear same slot ?_ ?_
      · unfold slotAddr
        omega
      · unfold arrayAddr at bound
        omega
  simp only [Function.update_of_ne differ]

/-! ### The lists -/

variable {f : SlabList × Nat → List Nat}

theorem Lists.congr (lists : Lists s on f) (links : s'.links = s.links)
    (same : ∀ q, (s'.pages q).active = (s.pages q).active) : Lists s' on f := by
  refine ⟨links ▸ lists.rings, lists.mem_iff, fun c known q member => ?_⟩
  rw [same]
  exact lists.room c known q member

def FullFrom (page : Nat) (f f' : SlabList × Nat → List Nat) : Prop :=
  ∀ c < 8, ∀ q ∈ f' (.slabsFull, c), q ≠ page → q ∈ f (.slabsFull, c)

theorem Lists.fill (lists : Lists s on f) (known : cache < 8)
    (mine : page ∈ f (.slabsPartial, cache)) (links : s'.links =
      listInsert (listRemove s.links (.node page)) (.head (.slabsFull, cache)) (.node page))
    (same : ∀ q, q ≠ page → (s'.pages q).active = (s.pages q).active) :
    ∃ f', Lists s' on f' ∧ FullFrom page f f' := by
  have moved := listMove_rings lists.rings (i := (.slabsPartial, cache)) (j := (.slabsFull, cache))
    known known (by simp) mine
  have nodup := lists.rings.nodup (.slabsPartial, cache) known
  refine ⟨_, ⟨links ▸ moved, fun c known' q => ?_, fun c known' q member => ?_⟩,
    fun c _ q member differ => ?_⟩
  · rw [lists.mem_iff c known']
    by_cases here : c = cache
    · subst here
      simp only [Function.update_self, Function.update_of_ne (show
        (SlabList.slabsPartial, c) ≠ (.slabsFull, c) by simp), List.mem_cons, nodup.mem_erase_iff]
      by_cases self : q = page
      · subst self
        simp [mine]
      · simp [self]
    · simp [here]
  · by_cases here : c = cache
    · subst here
      simp only [Function.update_self, Function.update_of_ne (show
        (SlabList.slabsPartial, c) ≠ (.slabsFull, c) by simp), nodup.mem_erase_iff] at member
      rw [same q member.1]
      exact lists.room c known' q member.2
    · simp only [Function.update_apply, Prod.mk.injEq, reduceCtorEq, here, and_false,
        if_false] at member
      rw [same q ?_]
      · exact lists.room c known' q member
      · rintro rfl
        exact lists.rings.disjoint (.slabsPartial, cache) known (.slabsPartial, c) known'
          (by simp [Ne.symm here]) q mine member
  · by_cases here : c = cache
    · subst here
      simpa [differ] using member
    · simpa [here] using member

private theorem Lists.open (lists : Lists s on f) (known : cache < 8) (fresh : ∀ c, ¬ on c page)
    (links : s'.links = listInsert s.links (.head (.slabsPartial, cache)) (.node page))
    (same : ∀ q, q ≠ page → (s'.pages q).active = (s.pages q).active)
    (room : (s'.pages page).active < slotTotal cache) :
    ∃ f', Lists s' (fun c q => on c q ∨ (c = cache ∧ q = page)) f' ∧
      page ∈ f' (.slabsPartial, cache) ∧ FullFrom page f f' := by
  have absent : ∀ k ∈ {k : SlabList × Nat | k.2 < 8}, page ∉ f k := by
    rintro ⟨kind, c⟩ known' member
    refine fresh c ((lists.mem_iff c known' page).mpr ?_)
    cases kind with
    | slabsFull => exact .inl member
    | slabsPartial => exact .inr member
  have inserted := listInsert_rings lists.rings (i := (.slabsPartial, cache)) known absent
  refine ⟨_, ⟨links ▸ inserted, fun c known' q => ?_, fun c known' q member => ?_⟩, by simp,
    fun c _ q member _ => by simpa using member⟩
  · rw [lists.mem_iff c known']
    by_cases here : c = cache
    · subst here
      simp
      tauto
    · simp [here]
  · by_cases self : q = page
    · subst self
      obtain rfl : c = cache := by
        by_contra here
        simp only [Function.update_apply, Prod.mk.injEq, here, and_false, if_false] at member
        exact absent (.slabsPartial, c) known' member
      exact room
    · rw [same q self]
      refine lists.room c known' q ?_
      by_cases here : c = cache
      · subst here
        simpa [self] using member
      · simpa [here] using member

theorem Lists.drop (lists : Lists s on f) (known : cache < 8) (mine : on cache page)
    (links : s'.links = listRemove s.links (.node page))
    (same : ∀ q, q ≠ page → (s'.pages q).active = (s.pages q).active) :
    ∃ f', Lists s' (fun c q => on c q ∧ q ≠ page) f' ∧ FullFrom page f f' := by
  obtain ⟨kind, member⟩ : ∃ kind, page ∈ f (kind, cache) := by
    rcases (lists.mem_iff cache known page).mp mine with full | partly
    · exact ⟨.slabsFull, full⟩
    · exact ⟨.slabsPartial, partly⟩
  have removed := listRemove_rings lists.rings (i := (kind, cache)) known member
  have gone := not_mem_erase lists.rings (i := (kind, cache)) known member
  have kept : ∀ (k : SlabList × Nat) (q : Nat), q ≠ page →
      (q ∈ Function.update f (kind, cache) ((f (kind, cache)).erase page) k ↔ q ∈ f k) := by
    intro k q other
    by_cases here : k = (kind, cache)
    · subst here
      rw [Function.update_self, List.mem_erase_of_ne other]
    · rw [Function.update_of_ne here]
  refine ⟨_, ⟨links ▸ removed, fun c known' q => ?_, fun c known' q inList => ?_⟩,
    fun c _ q inList differ => (kept _ q differ).mp inList⟩
  · by_cases self : q = page
    · subst self
      simp only [ne_eq, not_true_eq_false, and_false, false_iff, not_or]
      exact ⟨gone (.slabsFull, c) known', gone (.slabsPartial, c) known'⟩
    · rw [kept _ q self, kept _ q self, lists.mem_iff c known']
      simp [self]
  · have self : q ≠ page := by
      rintro rfl
      exact gone (.slabsPartial, c) known' inList
    rw [same q self]
    exact lists.room c known' q ((kept _ q self).mp inList)

theorem Lists.keep (lists : Lists s on f) (links : s'.links = s.links)
    (same : ∀ q, q ≠ page → (s'.pages q).active = (s.pages q).active)
    (room : ∀ c < 8, page ∈ f (.slabsPartial, c) → (s'.pages page).active < slotTotal c) :
    Lists s' on f := by
  refine ⟨links ▸ lists.rings, lists.mem_iff, ?_⟩
  intro c known q member
  by_cases here : q = page
  · subst here
    exact room c known member
  · rw [same q here]
    exact lists.room c known q member

/-! ### The calls -/

def lockCache (s : SlabState) (cache : Nat) : SlabState :=
  { s with locked := Function.update s.locked cache true }

private theorem spinLock_eq (unlocked : s.locked cache = false) :
    s.spinLock cache = some (lockCache s cache) := by
  simp [SlabState.spinLock, unlocked, lockCache]

theorem unlocked_release (unlocked : ∀ c < 8, s.locked c = false)
    (locks : s'.locked = Function.update s.locked cache true) :
    ∀ c < 8, (s'.spinUnlock cache).locked c = false := by
  intro c known
  simp only [SlabState.spinUnlock, locks, Function.update_idem]
  by_cases same : c = cache
  · rw [same, Function.update_self]
  · rw [Function.update_of_ne same, unlocked c known]

def joined (s : SlabState) (cache page : Nat) : SlabState :=
  { opened (lockCache s cache) cache page with
    links := listInsert s.links (.head (.slabsPartial, cache)) (.node page) }

theorem kmemCacheAlloc_cases {newPage : Option Nat} {vmap obj : Nat} (lists : Lists s on f)
    (known : cache < 8) (unlocked : s.locked cache = false) (size : s.size cache = objSize cache)
    (fresh : ∀ page, newPage = some page →
      page < linearPages ∧ testBit pageHighmem (s.pages page).flags = false)
    (call : kmemCacheAlloc s cache newPage vmap = some (s', obj)) :
    ∃ page t, s' = (allocBlock t cache page).1.spinUnlock cache ∧
      obj = (allocBlock t cache page).2 ∧
        ((newPage = some page ∧ t = joined s cache page) ∨
          (page ∈ f (.slabsPartial, cache) ∧ t = lockCache s cache ∧
            listNext s.links (.head (.slabsPartial, cache)) = .node page)) := by
  have heads : (SlabList.slabsPartial, cache) ∈ {k : SlabList × Nat | k.2 < 8} := known
  have rings : Rings (lockCache s cache).links _ f := lists.rings
  simp only [kmemCacheAlloc, spinLock_eq unlocked, Option.bind_eq_bind, Option.bind_some] at call
  by_cases none : f (.slabsPartial, cache) = []
  · rw [if_pos ((listEmpty_iff rings heads).mpr none)] at call
    obtain ⟨page, rfl, done⟩ := Option.bind_eq_some_iff.mp call
    obtain ⟨linear, lowmem⟩ := fresh page rfl
    rw [slabPageInit_eq (s := lockCache s cache) size linear lowmem] at done
    obtain ⟨rfl, rfl⟩ := Prod.mk.inj (Option.some.inj done)
    exact ⟨page, _, rfl, rfl, .inl ⟨rfl, rfl⟩⟩
  · obtain ⟨page, rest, first⟩ := List.exists_cons_of_ne_nil none
    have next := listNext_cons rings heads first
    rw [if_neg (mt (listEmpty_iff rings heads).mp none), next] at call
    obtain ⟨rfl, rfl⟩ := Prod.mk.inj (Option.some.inj call)
    exact ⟨page, _, rfl, rfl, .inr ⟨by rw [first]; exact List.mem_cons_self, rfl, next⟩⟩

theorem kmemCacheAlloc_returns_iff {newPage : Option Nat} (vmap : Nat) (lists : Lists s on f)
    (known : cache < 8) (unlocked : s.locked cache = false) (size : s.size cache = objSize cache)
    (fresh : ∀ page, newPage = some page →
      page < linearPages ∧ testBit pageHighmem (s.pages page).flags = false) :
    (∃ r, kmemCacheAlloc s cache newPage vmap = some r) ↔
      listEmpty s.links (.head (.slabsPartial, cache)) = false ∨ newPage.isSome = true := by
  have heads : (SlabList.slabsPartial, cache) ∈ {k : SlabList × Nat | k.2 < 8} := known
  have rings : Rings (lockCache s cache).links _ f := lists.rings
  have same : (lockCache s cache).links = s.links := rfl
  simp only [kmemCacheAlloc, spinLock_eq unlocked, Option.bind_eq_bind, Option.bind_some]
  by_cases none : f (.slabsPartial, cache) = []
  · have empty := (listEmpty_iff rings heads).mpr none
    rw [if_pos empty, ← same, empty]
    cases newPage with
    | none => simp
    | some page =>
      obtain ⟨linear, lowmem⟩ := fresh page rfl
      refine iff_of_true ?_ (.inr rfl)
      rw [Option.bind_some, slabPageInit_eq (s := lockCache s cache) size linear lowmem]
      exact ⟨_, rfl⟩
  · obtain ⟨page, rest, first⟩ := List.exists_cons_of_ne_nil none
    have full := mt (listEmpty_iff rings heads).mp none
    refine iff_of_true ?_ (.inl (Bool.eq_false_iff.mpr full))
    rw [if_neg full, listNext_cons rings heads first]
    exact ⟨_, rfl⟩

theorem Lists.join (lists : Lists s on f) (known : cache < 8) (fresh : ∀ c, ¬ on c page) :
    ∃ f', Lists (joined s cache page) (fun c q => on c q ∨ (c = cache ∧ q = page)) f' ∧
      page ∈ f' (.slabsPartial, cache) ∧ FullFrom page f f' := by
  apply lists.open known fresh rfl
  · intro q differ
    simp [joined, opened, lockCache, Function.update_of_ne differ]
  · have start : ((joined s cache page).pages page).active = 0 := by simp [joined, opened]
    rw [start]
    exact (geometry known).2.2.1

theorem kmemCacheFree_eq (known : cache < 8) (linear : page < linearPages)
    (slot : idx < slotCount cache) (owner : (s.pages page).slabCache = some cache)
    (lowmem : testBit pageHighmem (s.pages page).flags = false)
    (unlocked : s.locked cache = false) :
    kmemCacheFree s cache (slotAddr cache page idx) =
      some ((freeBlock (lockCache s cache) cache page (slotAddr cache page idx)).spinUnlock
        cache) := by
  have linearMap : isVmallocAddr (slotAddr cache page idx) = false := by
    have above : ¬ slotAddr cache page idx < vmallocEnd := by
      have base := pageToVirt_eq linear
      unfold slotAddr vmallocEnd
      omega
    simp [isVmallocAddr, above]
  have back := slotAddr_page known linear slot
  simp [kmemCacheFree, SlabState.assert, linearMap, back, owner, lowmem, spinLock_eq unlocked]

end OhMyOs.Mm.SlabSafety
