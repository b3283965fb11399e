/- GID: OhMyOs/Mm/SlabCounts
   generality: I
   digest: The pages of the caches count their objects, even where two objects are the same. -/

import OhMyOs.Mm.SlabRuns

set_option autoImplicit false
set_option relaxedAutoImplicit false

namespace OhMyOs.Mm.SlabCounts

open OhMyOs.Lib.Ring OhMyOs.Include.IntrusiveList OhMyOs.Include.Bitops OhMyOs.Include.Memory
open OhMyOs.Mm.PageAllocator (pageHighmem pageSlab)
open OhMyOs.Mm.Slab OhMyOs.Mm.SlabSafety

/-! ### Invariant -/

def isSlab (s : SlabState) (page : Nat) : Bool := testBit pageSlab (s.pages page).flags

def countOn (objs : List (Nat × Nat)) (page : Nat) : Nat :=
  objs.countP fun o => virtToPage o.2 = page

structure PageCount (s : SlabState) (objs : List (Nat × Nat)) (cache page : Nat) : Prop where
  linear : page < linearPages
  lowmem : testBit pageHighmem (s.pages page).flags = false
  slab : isSlab s page = true
  owner : (s.pages page).slabCache = some cache
  sMem : (s.pages page).sMem = pageToVirt page
  freelist : (s.pages page).freelist = arrayAddr cache page
  total : (s.pages page).total = slotTotal cache
  active : (s.pages page).active = countOn objs page
  bounded : (s.pages page).active ≤ slotTotal cache
  bytes : ∀ j < slotTotal cache, (s.mem (arrayAddr cache page + j)).toNat < slotCount cache

structure Counted (s : SlabState) (objs : List (Nat × Nat)) (on : Nat → Nat → Prop) : Prop where
  known : ∀ cache page, on cache page → cache < 8
  sizes : ∀ cache < 8, s.size cache = objSize cache
  ok : ∀ cache page, on cache page → PageCount s objs cache page
  off : ∀ page, isSlab s page = true → ∃ cache, on cache page
  placed : ∀ cache obj, (cache, obj) ∈ objs →
    ∃ page idx, on cache page ∧ idx < slotCount cache ∧ obj = slotAddr cache page idx

variable {s s' : SlabState} {objs : List (Nat × Nat)} {on : Nat → Nat → Prop}
  {f : SlabList × Nat → List Nat} {cache page idx obj : Nat}

private theorem array_fits (known : cache < 8) : slotTotal cache ≤ arrayBytes cache := by
  revert cache
  decide

private theorem array_inside (page : Nat) (known : cache < 8) {j : Nat}
    (slot : j < slotTotal cache) :
    pageToVirt page ≤ arrayAddr cache page + j ∧
      arrayAddr cache page + j < pageToVirt page + pageSize := by
  have fits := array_fits known
  obtain ⟨-, -, -, -, -, small, -⟩ := geometry known
  unfold arrayAddr
  omega

theorem Counted.unique (inv : Counted s objs on) {other : Nat} (left : on cache page)
    (right : on other page) : cache = other := by
  have owner := (inv.ok cache page left).owner
  rw [(inv.ok other page right).owner] at owner
  exact (Option.some.inj owner).symm

theorem Counted.not_on (inv : Counted s objs on) (free : (s.pages page).slabCache = none)
    (cache : Nat) : ¬ on cache page := by
  intro there
  rw [(inv.ok cache page there).owner] at free
  cases free

theorem Counted.not_slab (inv : Counted s objs on) (free : (s.pages page).slabCache = none) :
    isSlab s page = false := by
  by_contra slab
  obtain ⟨c, there⟩ := inv.off page (by simpa using slab)
  exact inv.not_on free c there

theorem Counted.congr (inv : Counted s objs on) (pages : s'.pages = s.pages)
    (size : s'.size = s.size) (mem : s'.mem = s.mem) : Counted s' objs on := by
  refine ⟨inv.known, size ▸ inv.sizes, ?_, ?_, inv.placed⟩
  · intro c q there
    obtain ⟨linear, lowmem, slab, owner, sMem, freelist, total, active, bounded, bytes⟩ :=
      inv.ok c q there
    unfold isSlab at slab
    exact ⟨linear, by rw [pages, lowmem], by rw [isSlab, pages, slab], by rw [pages, owner],
      by rw [pages, sMem], by rw [pages, freelist], by rw [pages, total], by rw [pages, active],
      by rw [pages]; exact bounded, by rw [mem]; exact bytes⟩
  · intro q slab
    apply inv.off
    rwa [isSlab, ← pages]

private theorem PageCount.frame {objs' : List (Nat × Nat)} (ok : PageCount s objs cache page)
    (same : s'.pages page = s.pages page) (count : countOn objs' page = countOn objs page)
    (bytes : ∀ j < slotTotal cache,
      s'.mem (arrayAddr cache page + j) = s.mem (arrayAddr cache page + j)) :
    PageCount s' objs' cache page := by
  obtain ⟨linear, lowmem, slab, owner, sMem, freelist, total, active, bounded, old⟩ := ok
  unfold isSlab at slab
  refine ⟨linear, by rw [same, lowmem], by rw [isSlab, same, slab], by rw [same, owner],
    by rw [same, sMem], by rw [same, freelist], by rw [same, total], by rw [same, active, count],
    by rw [same]; exact bounded, ?_⟩
  intro j slot
  rw [bytes j slot]
  exact old j slot

theorem countOn_cons (o : Nat × Nat) :
    countOn (o :: objs) page = countOn objs page + if virtToPage o.2 = page then 1 else 0 := by
  simp [countOn, List.countP_cons]

theorem countOn_erase {o : Nat × Nat} (mem : o ∈ objs) :
    countOn (objs.erase o) page = countOn objs page - if virtToPage o.2 = page then 1 else 0 := by
  have split : countOn objs page = countOn (o :: objs.erase o) page :=
    (List.perm_cons_erase mem).countP_eq _
  rw [split, countOn_cons, Nat.add_sub_cancel]

theorem countOn_pos {o : Nat × Nat} (mem : o ∈ objs) : 0 < countOn objs (virtToPage o.2) :=
  List.countP_pos_iff.mpr ⟨o, mem, by simp⟩

theorem Counted.write (inv : Counted s objs on) {offset : Nat} (mem : (cache, obj) ∈ objs)
    (inside : offset < objSize cache) (byte : BitVec 8) :
    Counted { s with mem := Function.update s.mem (obj + offset) byte } objs on := by
  obtain ⟨page, idx, here, slot, rfl⟩ := inv.placed cache obj mem
  have known := inv.known cache page here
  have ok := inv.ok cache page here
  have bound := slotAddr_bound known slot page
  refine ⟨inv.known, inv.sizes, ?_, inv.off, inv.placed⟩
  intro c q there
  have ok' := inv.ok c q there
  refine ok'.frame rfl rfl fun j inArray => ?_
  have array := array_inside q (inv.known c q there) inArray
  have differ : arrayAddr c q + j ≠ slotAddr cache page idx + offset := by
    by_cases same : q = page
    · subst same
      obtain rfl := inv.unique here there
      omega
    · have apart := pageToVirt_apart ok'.linear ok.linear same
      have low : pageToVirt page ≤ slotAddr cache page idx := Nat.le_add_right _ _
      have high : arrayAddr cache page ≤ pageToVirt page + pageSize := Nat.sub_le _ _
      omega
  simp only [Function.update_of_ne differ]

theorem Counted.obj_ne_zero (inv : Counted s objs on) (mem : (cache, obj) ∈ objs) : obj ≠ 0 := by
  obtain ⟨page, idx, here, -, rfl⟩ := inv.placed cache obj mem
  have base := pageToVirt_eq (inv.ok cache page here).linear
  unfold kernelVirtBase at base
  unfold slotAddr
  omega

private theorem Counted.recount {n : Nat} {objs' : List (Nat × Nat)} (inv : Counted s objs on)
    (mine : on cache page)
    (moved : s'.pages = Function.update s.pages page { s.pages page with active := n })
    (size : s'.size = s.size) (count : n = countOn objs' page) (bounded : n ≤ slotTotal cache)
    (others : ∀ q, q ≠ page → countOn objs' q = countOn objs q)
    (named : ∀ j < slotTotal cache, (s'.mem (arrayAddr cache page + j)).toNat < slotCount cache)
    (bytes : ∀ c q, on c q → q ≠ page → ∀ j < slotTotal c,
      s'.mem (arrayAddr c q + j) = s.mem (arrayAddr c q + j))
    (placed : ∀ c o, (c, o) ∈ objs' →
      ∃ q i, on c q ∧ i < slotCount c ∧ o = slotAddr c q i) :
    Counted s' objs' on := by
  have ok := inv.ok cache page mine
  have here : s'.pages page = { s.pages page with active := n } := by
    rw [moved, Function.update_self]
  refine ⟨inv.known, size ▸ inv.sizes, ?_, ?_, placed⟩
  · intro c q there
    by_cases same : q = page
    · subst same
      obtain rfl := inv.unique mine there
      exact
        { linear := ok.linear
          lowmem := by rw [here, ok.lowmem]
          slab := by rw [isSlab, here]; exact ok.slab
          owner := by rw [here, ok.owner]
          sMem := by rw [here, ok.sMem]
          freelist := by rw [here, ok.freelist]
          total := by rw [here, ok.total]
          active := by rw [here, count]
          bounded := by rw [here]; exact bounded
          bytes := named }
    · refine (inv.ok c q there).frame ?_ (others q same) (bytes c q there same)
      rw [moved, Function.update_of_ne same]
  · intro q slab
    by_cases same : q = page
    · exact ⟨cache, same ▸ mine⟩
    · rw [isSlab, moved, Function.update_of_ne same] at slab
      exact inv.off q slab

/-! ### Allocating -/

private theorem Counted.take (inv : Counted s objs on) (mine : on cache page)
    (room : (s.pages page).active < slotTotal cache) (slot : idx < slotCount cache) :
    Counted (s.setPage page fun p => { p with active := (p.active + 1) % 2 ^ 16 })
      ((cache, slotAddr cache page idx) :: objs) on := by
  have ok := inv.ok cache page mine
  have known := inv.known cache page mine
  obtain ⟨-, -, -, small, -, -, -⟩ := geometry known
  have back : virtToPage (slotAddr cache page idx) = page := slotAddr_page known ok.linear slot
  have more : ((s.pages page).active + 1) % 2 ^ 16 = (s.pages page).active + 1 :=
    Nat.mod_eq_of_lt (by omega)
  refine inv.recount mine rfl rfl ?_ ?_ ?_ ok.bytes (fun _ _ _ _ _ _ => rfl) ?_
  · rw [more, countOn_cons, if_pos back, ok.active]
  · rw [more]
    exact room
  · intro q other
    rw [countOn_cons, if_neg (by rw [back]; exact other.symm), Nat.add_zero]
  · intro c o mem
    rcases List.mem_cons.mp mem with eq | mem
    · obtain ⟨rfl, rfl⟩ := Prod.mk.inj eq
      exact ⟨page, idx, mine, slot, rfl⟩
    · exact inv.placed c o mem

structure Shift (s s' : SlabState) (f f' : SlabList × Nat → List Nat) (page : Nat) : Prop where
  others : ∀ q, q ≠ page → (s'.pages q).active = (s.pages q).active
  full : FullFrom page f f'

theorem allocBlock_counted (inv : Counted s objs on) (lists : Lists s on f) (known : cache < 8)
    (mine : page ∈ f (.slabsPartial, cache)) :
    ∃ idx f', idx < slotCount cache ∧ (allocBlock s cache page).2 = slotAddr cache page idx ∧
      Counted (allocBlock s cache page).1 ((cache, slotAddr cache page idx) :: objs) on ∧
        Lists (allocBlock s cache page).1 on f' ∧
          (allocBlock s cache page).1.locked = s.locked ∧
            (allocBlock s cache page).1.bugs = s.bugs ∧
              Shift s (allocBlock s cache page).1 f f' page ∧
                ∀ c < 8, page ∈ f' (.slabsFull, c) →
                  ((allocBlock s cache page).1.pages page).active = slotTotal c := by
  have here : on cache page := (lists.mem_iff cache known page).mpr (.inr mine)
  have ok := inv.ok cache page here
  have room := lists.room cache known page mine
  let idx := (s.mem ((s.pages page).freelist + (s.pages page).active)).toNat
  have slot : idx < slotCount cache := by
    show (s.mem ((s.pages page).freelist + (s.pages page).active)).toNat < _
    rw [ok.freelist]
    exact ok.bytes _ room
  have taken := inv.take here room slot
  rw [allocBlock_eq (inv.sizes cache known) ok.sMem (ok.total ▸ room) rfl]
  generalize eq : (s.setPage page fun p => { p with active := (p.active + 1) % 2 ^ 16 }) = t
    at taken ⊢
  have other : ∀ q, q ≠ page → (t.pages q).active = (s.pages q).active := fun q differ => by
    simp [← eq, SlabState.setPage, Function.update_of_ne differ]
  have links : t.links = s.links := eq ▸ rfl
  have locks : t.locked = s.locked := eq ▸ rfl
  have quiet : t.bugs = s.bugs := eq ▸ rfl
  by_cases full : (t.pages page).active = (t.pages page).total
  · rw [if_pos full, links]
    let moved :=
      listInsert (listRemove s.links (.node page)) (.head (.slabsFull, cache)) (.node page)
    have lists' : ∃ f', Lists { t with links := moved } on f' ∧ FullFrom page f f' :=
      lists.fill known mine rfl other
    obtain ⟨f', lists', fullFrom⟩ := lists'
    refine ⟨idx, f', slot, rfl, taken.congr rfl rfl rfl, lists',
      locks, quiet, ⟨other, fullFrom⟩, ?_⟩
    intro c known' member
    obtain rfl := inv.unique here ((lists'.mem_iff c known' page).mpr (.inl member))
    exact full.trans (taken.ok cache page here).total
  · rw [if_neg full]
    refine ⟨idx, f, slot, rfl, taken, lists.keep links other ?_, locks, quiet,
      ⟨other, fun _ _ _ member _ => member⟩, ?_⟩
    · intro c known' member
      obtain rfl := inv.unique here ((lists.mem_iff c known' page).mpr (.inr member))
      have after := (taken.ok cache page here).bounded
      have total := (taken.ok cache page here).total
      show (t.pages page).active < slotTotal cache
      omega
    · intro c known' member
      exact absurd mine (lists.rings.disjoint (.slabsFull, c) known' (.slabsPartial, cache) known
        (by simp) page member)

private theorem PageCount.opened (known : cache < 8) (linear : page < linearPages)
    (lowmem : testBit pageHighmem (s.pages page).flags = false) (empty : countOn objs page = 0) :
    PageCount (opened s cache page) objs cache page := by
  refine
    { linear := linear
      lowmem := ?_
      slab := ?_
      owner := by simp [SlabSafety.opened]
      sMem := by simp [SlabSafety.opened]
      freelist := by simp [SlabSafety.opened]
      total := by simp [SlabSafety.opened]
      active := by simp [SlabSafety.opened, empty]
      bounded := by simp [SlabSafety.opened]
      bytes := ?_ }
  · simp only [SlabSafety.opened, Function.update_self]
    rw [testBit_setBit_ne (by decide) (by decide), lowmem]
  · simp only [isSlab, SlabSafety.opened, Function.update_self]
    exact testBit_setBit_self (by decide) _
  · intro j slot
    have fits := array_fits known
    simp only [SlabSafety.opened, fillFreelist_apply]
    rw [if_pos (by omega), Nat.add_sub_cancel_left, BitVec.toNat_ofNat]
    unfold slotCount
    omega

theorem Counted.open (inv : Counted s objs on) (known : cache < 8) (linear : page < linearPages)
    (lowmem : testBit pageHighmem (s.pages page).flags = false) (unused : isSlab s page = false) :
    Counted (opened s cache page) objs fun c q => on c q ∨ (c = cache ∧ q = page) := by
  have notOn : ∀ c, ¬ on c page := by
    intro c there
    rw [(inv.ok c page there).slab] at unused
    cases unused
  have empty : countOn objs page = 0 := by
    apply List.countP_eq_zero.mpr
    rintro ⟨c, o⟩ mem
    obtain ⟨q, i, there, slot, rfl⟩ := inv.placed c o mem
    rw [slotAddr_page (inv.known c q there) (inv.ok c q there).linear slot]
    simp only [decide_eq_true_eq]
    rintro rfl
    exact notOn c there
  refine ⟨?_, inv.sizes, ?_, ?_, ?_⟩
  · rintro c q (there | ⟨rfl, rfl⟩)
    · exact inv.known c q there
    · exact known
  · rintro c q (there | ⟨rfl, rfl⟩)
    · have differ : q ≠ page := by
        rintro rfl
        exact notOn c there
      have ok := inv.ok c q there
      apply ok.frame
      · simp [opened, Function.update_of_ne differ]
      · rfl
      · intro j slot
        have mine := array_inside q (inv.known c q there) slot
        have apart := pageToVirt_apart ok.linear linear differ
        exact opened_mem known fun low => by omega
    · exact .opened known linear lowmem empty
  · intro q slab
    by_cases same : q = page
    · exact ⟨cache, .inr ⟨rfl, same⟩⟩
    · simp only [isSlab, opened, Function.update_of_ne same] at slab
      obtain ⟨c, there⟩ := inv.off q slab
      exact ⟨c, .inl there⟩
  · intro c o mem
    obtain ⟨q, i, there, slot, eq⟩ := inv.placed c o mem
    exact ⟨q, i, .inl there, slot, eq⟩

/-! ### Freeing -/

private theorem Counted.give (inv : Counted s objs on) (mine : on cache page)
    (slot : idx < slotCount cache)
    (mem : (cache, slotAddr cache page idx) ∈ objs) :
    Counted { s.setPage page fun p => { p with active := p.active - 1 } with
        mem := Function.update s.mem (arrayAddr cache page + ((s.pages page).active - 1))
          (BitVec.ofNat 8 idx) } (objs.erase (cache, slotAddr cache page idx)) on := by
  have ok := inv.ok cache page mine
  have known := inv.known cache page mine
  have back : virtToPage (slotAddr cache page idx) = page := slotAddr_page known ok.linear slot
  have positive : 0 < (s.pages page).active := by
    have counted := countOn_pos mem
    rwa [back, ← ok.active] at counted
  have last : (s.pages page).active - 1 < slotTotal cache := by
    have bounded := ok.bounded
    omega
  have byte : idx < 256 := lt_of_lt_of_le slot (Nat.min_le_right ..)
  refine inv.recount mine rfl rfl ?_ last.le ?_ ?_ ?_ ?_
  · rw [countOn_erase mem, if_pos back, ok.active]
  · intro q other
    rw [countOn_erase mem, if_neg (by rw [back]; exact other.symm), Nat.sub_zero]
  · intro j inside
    by_cases top : j = (s.pages page).active - 1
    · subst top
      simpa [Nat.mod_eq_of_lt byte] using slot
    · have differ : arrayAddr cache page + j ≠
          arrayAddr cache page + ((s.pages page).active - 1) := by omega
      simpa only [Function.update_of_ne differ] using ok.bytes j inside
  · intro c q there other j inside
    have here := array_inside q (inv.known c q there) inside
    have target := array_inside page known last
    have apart := pageToVirt_apart (inv.ok c q there).linear ok.linear other
    have differ : arrayAddr c q + j ≠ arrayAddr cache page + ((s.pages page).active - 1) := by
      omega
    simp only [Function.update_of_ne differ]
  · intro c o kept
    exact inv.placed c o (List.mem_of_mem_erase kept)

private theorem Counted.drop (inv : Counted s objs on) (empty : countOn objs page = 0) :
    Counted (slabPageDeinit s page) objs fun c q => on c q ∧ q ≠ page := by
  refine ⟨fun c q there => inv.known c q there.1, inv.sizes, ?_, ?_, ?_⟩
  · rintro c q ⟨there, other⟩
    apply (inv.ok c q there).frame
    · simp [slabPageDeinit, SlabState.setPage, Function.update_of_ne other]
    · rfl
    · exact fun _ _ => rfl
  · intro q slab
    by_cases same : q = page
    · subst same
      have cleared : isSlab (slabPageDeinit s q) q = false := by
        simp only [isSlab, slabPageDeinit, SlabState.setPage, Function.update_self]
        exact testBit_clearBit_self (by decide) _
      rw [cleared] at slab
      cases slab
    · simp only [isSlab, slabPageDeinit, SlabState.setPage, Function.update_of_ne same] at slab
      obtain ⟨c, there⟩ := inv.off q slab
      exact ⟨c, there, same⟩
  · intro c o mem
    obtain ⟨q, i, there, slot, rfl⟩ := inv.placed c o mem
    refine ⟨q, i, ⟨there, ?_⟩, slot, rfl⟩
    rintro rfl
    have some' := countOn_pos mem
    rw [slotAddr_page (inv.known c q there) (inv.ok c q there).linear slot, empty] at some'
    exact Nat.lt_irrefl 0 some'

theorem freeBlock_counted (inv : Counted s objs on) (lists : Lists s on f) (here : on cache page)
    (slot : idx < slotCount cache) (mem : (cache, slotAddr cache page idx) ∈ objs) :
    ∃ on' f', Counted (freeBlock s cache page (slotAddr cache page idx))
        (objs.erase (cache, slotAddr cache page idx)) on' ∧
      Lists (freeBlock s cache page (slotAddr cache page idx)) on' f' ∧
        (∀ c q, on' c q ↔ on c q ∧ (q = page → 1 < (s.pages page).active)) ∧
          (freeBlock s cache page (slotAddr cache page idx)).locked = s.locked ∧
            (freeBlock s cache page (slotAddr cache page idx)).bugs = s.bugs ∧
              Shift s (freeBlock s cache page (slotAddr cache page idx)) f f' page ∧
                (1 < (s.pages page).active → f' = f) := by
  have known := inv.known cache page here
  have ok := inv.ok cache page here
  have back : virtToPage (slotAddr cache page idx) = page := slotAddr_page known ok.linear slot
  have positive : 0 < (s.pages page).active := by
    have counted := countOn_pos mem
    rwa [back, ← ok.active] at counted
  have short : (s.pages page).active < 2 ^ 16 :=
    lt_of_le_of_lt ok.bounded (geometry known).2.2.2.1
  have given := inv.give here slot mem
  rw [freeBlock_eq (inv.sizes cache known) ok.sMem ok.freelist known ok.linear slot positive short]
  generalize eq : ({ s.setPage page fun p => { p with active := p.active - 1 } with
    mem := Function.update s.mem (arrayAddr cache page + ((s.pages page).active - 1))
      (BitVec.ofNat 8 idx) } : SlabState) = t at given ⊢
  have now : (t.pages page).active = (s.pages page).active - 1 := by
    simp [← eq, SlabState.setPage]
  have other : ∀ q, q ≠ page → (t.pages q).active = (s.pages q).active := fun q differ => by
    simp [← eq, SlabState.setPage, Function.update_of_ne differ]
  have links : t.links = s.links := eq ▸ rfl
  have locks : t.locked = s.locked := eq ▸ rfl
  have quiet : t.bugs = s.bugs := eq ▸ rfl
  by_cases empty : (t.pages page).active = 0
  · rw [if_pos empty, links]
    have none : countOn (objs.erase (cache, slotAddr cache page idx)) page = 0 :=
      (given.ok cache page here).active.symm.trans empty
    have relinked : Counted { t with links := listRemove s.links (.node page) } _ on :=
      given.congr rfl rfl rfl
    have dropped : ∀ q, q ≠ page → ((slabPageDeinit
        { t with links := listRemove s.links (.node page) } page).pages q).active =
          (s.pages q).active := by
      intro q differ
      simpa [slabPageDeinit, SlabState.setPage, Function.update_of_ne differ] using other q differ
    have unlisted : ∃ f', Lists
        (slabPageDeinit { t with links := listRemove s.links (.node page) } page)
        (fun c q => on c q ∧ q ≠ page) f' ∧ FullFrom page f f' :=
      lists.drop known here rfl dropped
    obtain ⟨f', unlisted, fullFrom⟩ := unlisted
    have last : ¬ 1 < (s.pages page).active := by omega
    refine ⟨_, f', relinked.drop none, unlisted, fun c q => ?_, locks, quiet, ⟨dropped, fullFrom⟩,
      fun more => absurd more last⟩
    exact and_congr_right fun _ => ⟨fun differ same => absurd same differ,
      fun more same => last (more same)⟩
  · rw [if_neg empty]
    have more : 1 < (s.pages page).active := by omega
    refine ⟨on, f, given, lists.keep links other ?_, fun c q => ?_, locks, quiet,
      ⟨other, fun _ _ _ member _ => member⟩, fun _ => rfl⟩
    · intro c known' member
      have room := lists.room c known' page member
      omega
    · exact (and_iff_left fun _ => more).symm

/-! ### The calls -/

structure SlabCount (s : SlabState) (objs : List (Nat × Nat)) : Prop where
  unlocked : ∀ c < 8, s.locked c = false
  pages : ∃ on f, Counted s objs on ∧ Lists s on f

private theorem SlabCount.release (unlocked : ∀ c < 8, s.locked c = false)
    (locks : s'.locked = Function.update s.locked cache true) (inv : Counted s' objs on)
    (lists : Lists s' on f) : SlabCount (s'.spinUnlock cache) objs := by
  exact ⟨unlocked_release unlocked locks, on, f, inv.congr rfl rfl rfl,
    lists.congr rfl fun _ => rfl⟩

theorem SlabCount.obj_page (inv : SlabCount s objs) (mem : (cache, obj) ∈ objs) :
    cache < 8 ∧ virtToPage obj < linearPages ∧ pageToVirt (virtToPage obj) ≤ obj ∧
      isSlab s (virtToPage obj) = true ∧ (s.pages (virtToPage obj)).slabCache = some cache := by
  obtain ⟨-, on, f, counted, -⟩ := inv
  obtain ⟨page, idx, here, slot, rfl⟩ := counted.placed cache obj mem
  have known := counted.known cache page here
  have ok := counted.ok cache page here
  rw [slotAddr_page known ok.linear slot]
  exact ⟨known, ok.linear, Nat.le_add_right _ _, ok.slab, ok.owner⟩

theorem kmemCacheAlloc_counted {newPage : Option Nat} {vmap : Nat} (inv : SlabCount s objs)
    (known : cache < 8)
    (fresh : ∀ page, newPage = some page → page < linearPages ∧
      testBit pageHighmem (s.pages page).flags = false ∧ isSlab s page = false)
    (call : kmemCacheAlloc s cache newPage vmap = some (s', obj)) :
    SlabCount s' ((cache, obj) :: objs) ∧ s'.bugs = s.bugs ∧
      ∀ q, isSlab s' q = true → isSlab s q = true ∨ newPage = some q := by
  obtain ⟨unlocked, on, f, counted, lists⟩ := inv
  have counted1 : Counted (lockCache s cache) objs on := counted.congr rfl rfl rfl
  have lists1 : Lists (lockCache s cache) on f := lists.congr rfl fun _ => rfl
  obtain ⟨page, t, rfl, rfl, ⟨rfl, rfl⟩ | ⟨mine, rfl, -⟩⟩ :=
    kmemCacheAlloc_cases lists known (unlocked cache known) (counted.sizes cache known)
      (fun q given => ⟨(fresh q given).1, (fresh q given).2.1⟩) call
  · obtain ⟨linear, lowmem, unused⟩ := fresh page rfl
    have notOn : ∀ c, ¬ on c page := by
      intro c there
      rw [(counted.ok c page there).slab] at unused
      cases unused
    have counted2 : Counted (joined s cache page) objs _ :=
      (counted1.open known linear lowmem unused).congr rfl rfl rfl
    obtain ⟨f2, lists2, mine, -⟩ := lists.join known notOn
    obtain ⟨idx, f3, -, addr, counted3, lists3, locks, quiet, -⟩ :=
      allocBlock_counted counted2 lists2 known mine
    rw [← addr] at counted3
    refine ⟨SlabCount.release unlocked locks counted3 lists3, quiet, ?_⟩
    intro q slab
    obtain ⟨c, there | ⟨-, rfl⟩⟩ := counted3.off q slab
    · exact .inl (counted.ok c q there).slab
    · exact .inr rfl
  · obtain ⟨idx, f3, -, addr, counted3, lists3, locks, quiet, -⟩ :=
      allocBlock_counted counted1 lists1 known mine
    rw [← addr] at counted3
    refine ⟨SlabCount.release unlocked locks counted3 lists3, quiet, ?_⟩
    intro q slab
    obtain ⟨c, there⟩ := counted3.off q slab
    exact .inl (counted.ok c q there).slab

theorem kmemCacheFree_counted (inv : SlabCount s objs) (mem : (cache, obj) ∈ objs) :
    ∃ s', kmemCacheFree s cache obj = some s' ∧ SlabCount s' (objs.erase (cache, obj)) ∧
      s'.bugs = s.bugs ∧ ∀ q, isSlab s' q = true → isSlab s q = true := by
  obtain ⟨unlocked, on, f, counted, lists⟩ := inv
  obtain ⟨page, idx, here, slot, rfl⟩ := counted.placed cache obj mem
  have known := counted.known cache page here
  have ok := counted.ok cache page here
  have counted1 : Counted (lockCache s cache) objs on := counted.congr rfl rfl rfl
  have lists1 : Lists (lockCache s cache) on f := lists.congr rfl fun _ => rfl
  obtain ⟨on', f', counted', lists', fewer, locks, quiet, -⟩ :=
    freeBlock_counted counted1 lists1 here slot mem
  refine ⟨_, kmemCacheFree_eq known ok.linear slot ok.owner ok.lowmem (unlocked cache known),
    SlabCount.release unlocked locks counted' lists', quiet, ?_⟩
  intro q slab
  obtain ⟨c, there⟩ := counted'.off q slab
  exact (counted.ok c q ((fewer c q).mp there).1).slab

theorem kmallocInit_counted (clean : ∀ page, isSlab s page = false) :
    SlabCount (kmallocInit s) [] ∧ (kmallocInit s).bugs = s.bugs ∧
      (kmallocInit s).pages = s.pages := by
  have created := SlabRuns.kmallocInit_created s
  refine ⟨⟨created.unlocked, fun _ _ => False, fun _ => [], ?_, created.rings, ?_, ?_⟩,
    created.bugs, created.pages⟩
  · refine ⟨by simp, created.sizes, by simp, ?_, by simp⟩
    intro page slab
    rw [isSlab, created.pages] at slab
    exact absurd slab (by rw [← isSlab, clean]; exact Bool.false_ne_true)
  · simp
  · simp

theorem blank_clean (page : Nat) : isSlab SlabRuns.blank page = false := by
  show testBit pageSlab 0 = false
  decide

end OhMyOs.Mm.SlabCounts
