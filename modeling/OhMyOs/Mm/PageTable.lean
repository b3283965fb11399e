/- GID: OhMyOs/Mm/PageTable
   generality: I
   digest: The two-level page tables of mm/page_table.c, and what a walk finds in them. -/

import Mathlib.Data.Finset.Card
import Mathlib.Data.Set.Basic
import OhMyOs.Include.Constants
import OhMyOs.Include.Memory
import OhMyOs.Lib.LastWriter

set_option autoImplicit false
set_option relaxedAutoImplicit false

namespace OhMyOs.Mm.PageTable

open OhMyOs.Include.Constants
open OhMyOs.Include.Bitops OhMyOs.Include.Memory OhMyOs.Lib.LastWriter

/-! ### The code -/

/-- The words of every page by physical address. The kernel reaches them through the linear
mapping, and a pointer to an entry is a page with an index. -/
abbrev Mem := Word → Nat → Word

def vpt : Nat := 0xfac00000

def pteP : Word := 1
def pdeP : Word := 1
def pdeW : Word := 2

def pdeIndex (x : Nat) : Nat := (x >>> 22) &&& 0x3ff
def pteIndex (x : Nat) : Nat := (x >>> 12) &&& 0x3ff

def pageBase (x : Word) : Word := x &&& ~~~0xfff

def roundDownPage (x : Nat) : Nat := roundDown x pageSize

def store (mem : Mem) (page : Word) (index : Nat) (w : Word) : Mem :=
  Function.update mem page (Function.update (mem page) index w)

def setPde (mem : Mem) (pgdir : Word) (index : Nat) (pa flag : Word) : Mem :=
  store mem pgdir index (pa ||| flag ||| pdeP)

/-- `alloc` gives the address of the page that `alloc_page` returns. -/
def getPte (alloc : Mem → Word) (mem : Mem) (pgdir : Word) (va : Nat) : Mem × Word × Nat :=
  let mem :=
    if mem pgdir (pdeIndex va) &&& pteP = 0 then
      let pagePa := alloc mem
      let mem := Function.update mem pagePa fun _ => 0
      setPde mem pgdir (pdeIndex va) pagePa (pdeP ||| pdeW)
    else mem
  (mem, pageBase (mem pgdir (pdeIndex va)), pteIndex va)

/-- The loop of `page_map` and `page_unmap`; `visit` is its body. It does not end if the offset
wraps around before it reaches the size. -/
def rangeLoop {σ : Type} (visit : σ → Nat → Nat → Option σ) (size : Nat) :
    Nat → σ → Nat → Nat → Nat → Option σ
  | 0, _, _, _, _ => none
  | fuel + 1, s, va, pa, offset =>
    if offset < size then
      (visit s va pa).bind fun s => rangeLoop visit size fuel s ((va + pageSize) % 2 ^ 32)
        ((pa + pageSize) % 2 ^ 32) ((offset + pageSize) % 2 ^ 32)
    else some s

/-- `entry` is what is stored. -/
def pageLoop (alloc : Mem → Word) (pgdir : Word) (entry : Nat → Word) (size : Nat) :
    Nat → Mem → Nat → Nat → Nat → Option Mem :=
  rangeLoop (fun mem va pa =>
    let (mem, table, index) := getPte alloc mem pgdir va
    some (store mem table index (entry pa))) size

/-- Enough for every offset. -/
def loopFuel : Nat := 2 ^ 20

def pageMap (alloc : Mem → Word) (mem : Mem) (pgdir : Word) (va pa size : Nat) (flag : Word) :
    Option Mem :=
  pageLoop alloc pgdir (fun pa => BitVec.ofNat 32 pa ||| flag ||| pteP) size loopFuel mem
    (roundDownPage va) (roundDownPage pa) 0

def pageUnmap (alloc : Mem → Word) (mem : Mem) (pgdir : Word) (va size : Nat) : Option Mem :=
  pageLoop alloc pgdir (fun _ => 0) size loopFuel mem (roundDownPage va) 0 0

inductive PtOp
  | pageMap (va pa size : Nat) (flag : Word) (alloc : Mem → Word)
  | pageUnmap (va size : Nat) (alloc : Mem → Word)

def ptOp (pgdir : Word) (mem : Mem) : PtOp → Option Mem
  | .pageMap va pa size flag alloc => pageMap alloc mem pgdir va pa size flag
  | .pageUnmap va size alloc => pageUnmap alloc mem pgdir va size

def ptRun (pgdir : Word) (mem : Mem) : List PtOp → Option Mem
  | [] => some mem
  | op :: ops => (ptOp pgdir mem op).bind fun mem => ptRun pgdir mem ops

/-! ### What the tables are for -/

/-- What the processor finds for a virtual address; `none` is not-present. -/
def walk (mem : Mem) (pgdir : Word) (v : Nat) : Option Word :=
  let pde := mem pgdir (pdeIndex v)
  if pde &&& pdeP = 0 then none
  else
    let pte := mem (pageBase pde) (pteIndex v)
    if pte &&& pteP = 0 then none else some pte

namespace PtOp

def va : PtOp → Nat
  | .pageMap va _ _ _ _ => va
  | .pageUnmap va _ _ => va

def size : PtOp → Nat
  | .pageMap _ _ size _ _ => size
  | .pageUnmap _ size _ => size

def alloc : PtOp → Mem → Word
  | .pageMap _ _ _ _ alloc => alloc
  | .pageUnmap _ _ alloc => alloc

def Words : PtOp → Prop
  | .pageMap va pa _ _ _ => va < 2 ^ 32 ∧ pa < 2 ^ 32
  | .pageUnmap va _ _ => va < 2 ^ 32

def covers (op : PtOp) (v : Nat) : Bool :=
  roundDownPage op.va ≤ v ∧ v < roundDownPage op.va + op.size

def result (op : PtOp) (v : Nat) : Option Word :=
  match op with
  | .pageMap va pa _ flag _ =>
    some (BitVec.ofNat 32 (roundDownPage pa + (v - roundDownPage va)) ||| flag ||| pteP)
  | .pageUnmap _ _ _ => none

end PtOp

/-- What a walk finds after the calls: the last one that covers the page decides. -/
def lastResult (ops : List PtOp) (v : Nat) (initial : Option Word) : Option Word :=
  match ops.reverse.find? fun op => op.covers v with
  | some op => op.result v
  | none => initial

/-! ### Addresses -/

theorem pdeIndex_eq (x : Nat) : pdeIndex x = x / 2 ^ 22 % 2 ^ 10 := by
  rw [pdeIndex, Nat.shiftRight_eq_div_pow]
  exact Nat.and_two_pow_sub_one_eq_mod _ 10

theorem pteIndex_eq (x : Nat) : pteIndex x = x / 2 ^ 12 % 2 ^ 10 := by
  rw [pteIndex, Nat.shiftRight_eq_div_pow]
  exact Nat.and_two_pow_sub_one_eq_mod _ 10

theorem pdeIndex_lt (x : Nat) : pdeIndex x < 1024 := by
  rw [pdeIndex_eq]
  omega

private theorem page_unique {v w : Nat} (fits : v < 2 ^ 32) (fits' : w < 2 ^ 32)
    (aligned : pageSize ∣ v)
    (aligned' : pageSize ∣ w) (pde : pdeIndex v = pdeIndex w) (pte : pteIndex v = pteIndex w) :
    v = w := by
  rw [pdeIndex_eq, pdeIndex_eq] at pde
  rw [pteIndex_eq, pteIndex_eq] at pte
  unfold pageSize at aligned aligned'
  omega

private theorem PtOp.covers_iff (op : PtOp) {v : Nat} (aligned : pageSize ∣ v) :
    op.covers v = true ↔
      ∃ k, k * pageSize < op.size ∧ v = roundDownPage op.va + k * pageSize := by
  have start : pageSize ∣ roundDownPage op.va := dvd_roundDown _ _
  unfold PtOp.covers
  rw [decide_eq_true_iff]
  constructor
  · rintro ⟨low, high⟩
    obtain ⟨k, eq⟩ := (Nat.dvd_sub aligned start)
    rw [Nat.mul_comm] at eq
    exact ⟨k, by omega, by omega⟩
  · rintro ⟨k, small, rfl⟩
    exact ⟨by omega, by omega⟩

/-! ### Entries -/

theorem ofNat_mod (x : Nat) : BitVec.ofNat 32 (x % 2 ^ 32) = BitVec.ofNat 32 x :=
  BitVec.eq_of_toNat_eq (by simp)

def Present (w : Word) : Prop := w &&& pteP ≠ 0

theorem present_or (w : Word) : Present (w ||| pteP) := by
  have bit : (w ||| pteP) &&& pteP = pteP := by
    ext i
    simp only [BitVec.getElem_and, BitVec.getElem_or]
    cases w[i] <;> cases pteP[i] <;> rfl
  unfold Present
  rw [bit]
  decide

theorem pageBase_table {pa : Word} (aligned : pageBase pa = pa) :
    pageBase (pa ||| (pdeP ||| pdeW) ||| pdeP) = pa := by
  have split : pageBase (pa ||| (pdeP ||| pdeW) ||| pdeP) =
      pageBase pa ||| pageBase (pdeP ||| pdeW ||| pdeP) := by
    unfold pageBase
    grind
  rw [split, aligned]
  exact BitVec.or_zero

def found (w : Word) : Option Word := if w &&& pteP = 0 then none else some w

theorem walk_of_present {mem : Mem} {pgdir : Word} {v : Nat}
    (present : Present (mem pgdir (pdeIndex v))) :
    walk mem pgdir v = found (mem (pageBase (mem pgdir (pdeIndex v))) (pteIndex v)) :=
  if_neg present

theorem walk_of_absent {mem : Mem} {pgdir : Word} {v : Nat}
    (absent : ¬ Present (mem pgdir (pdeIndex v))) : walk mem pgdir v = none :=
  if_pos (Classical.not_not.mp absent)

theorem found_of_present {w : Word} (present : Present w) : found w = some w := if_neg present

@[simp] theorem store_same (mem : Mem) (page : Word) (index : Nat) (w : Word) :
    store mem page index w page index = w := by
  simp [store]

theorem store_of_ne_page (mem : Mem) {page other : Word} (index : Nat) (w : Word)
    (ne : other ≠ page) : store mem page index w other = mem other := by
  simp [store, ne]

theorem store_of_ne_index (mem : Mem) (page other : Word) {index i : Nat} (w : Word)
    (ne : i ≠ index) : store mem page index w other i = mem other i := by
  by_cases same : other = page
  · subst same
    simp [store, ne]
  · rw [store_of_ne_page mem index w same]

/-! ### Directories -/

section
variable (exempt : Set Nat) (pgdir : Word)

/-- Outside the exempt slots, the present entries of the directory lead to pages of their own. -/
structure Tables (mem : Mem) : Prop where
  apart : ∀ i j, i < 1024 → j < 1024 → i ∉ exempt → j ∉ exempt → i ≠ j →
    Present (mem pgdir i) → Present (mem pgdir j) →
    pageBase (mem pgdir i) ≠ pageBase (mem pgdir j)
  dir : ∀ i < 1024, i ∉ exempt → Present (mem pgdir i) → pageBase (mem pgdir i) ≠ pgdir

structure Fresh (mem : Mem) (page : Word) : Prop where
  aligned : pageBase page = page
  dir : page ≠ pgdir
  tables : ∀ i < 1024, i ∉ exempt → Present (mem pgdir i) → pageBase (mem pgdir i) ≠ page

/-- What the calls rely on: no wrap-around, no exempt slot, fresh pages from `alloc_page`. -/
structure PtOp.Allowed (op : PtOp) : Prop where
  words : op.Words
  size : op.size ≤ 2 ^ 32 - pageSize
  inside : roundDownPage op.va + op.size ≤ 2 ^ 32
  slots : ∀ v, op.covers v = true → pdeIndex v ∉ exempt
  fresh : ∀ mem, Tables exempt pgdir mem → Fresh exempt pgdir mem (op.alloc mem)

end

section
variable {exempt : Set Nat} {pgdir : Word} {mem : Mem} {va : Nat} {alloc : Mem → Word}

def tableFor (alloc : Mem → Word) (mem : Mem) (pgdir : Word) (va : Nat) : Mem :=
  (getPte alloc mem pgdir va).1

theorem getPte_eq (alloc : Mem → Word) (mem : Mem) (pgdir : Word) (va : Nat) :
    getPte alloc mem pgdir va = (tableFor alloc mem pgdir va,
      pageBase (tableFor alloc mem pgdir va pgdir (pdeIndex va)), pteIndex va) :=
  rfl

theorem tableFor_present (present : Present (mem pgdir (pdeIndex va))) :
    tableFor alloc mem pgdir va = mem :=
  if_neg present

structure NewTable (mem new : Mem) (pgdir page : Word) (slot : Nat) : Prop where
  entry : new pgdir slot = page ||| (pdeP ||| pdeW) ||| pdeP
  others : ∀ i, i ≠ slot → new pgdir i = mem pgdir i
  zero : ∀ i, new page i = 0
  frame : ∀ other, other ≠ page → other ≠ pgdir → new other = mem other

theorem tableFor_absent (fresh : Fresh exempt pgdir mem (alloc mem))
    (absent : ¬ Present (mem pgdir (pdeIndex va))) :
    NewTable mem (tableFor alloc mem pgdir va) pgdir (alloc mem) (pdeIndex va) := by
  have eq : tableFor alloc mem pgdir va = setPde (Function.update mem (alloc mem) fun _ => 0) pgdir
      (pdeIndex va) (alloc mem) (pdeP ||| pdeW) :=
    if_pos (Classical.not_not.mp absent)
  rw [eq]
  unfold setPde
  refine ⟨store_same .., ?_, ?_, ?_⟩
  · intro i ne
    rw [store_of_ne_index _ _ _ _ ne, Function.update_of_ne fresh.dir.symm]
  · intro i
    rw [store_of_ne_page _ _ _ fresh.dir, Function.update_self]
  · intro other ne ne'
    rw [store_of_ne_page _ _ _ ne', Function.update_of_ne ne]

theorem NewTable.present {new : Mem} {page : Word} {slot : Nat}
    (made : NewTable mem new pgdir page slot) : Present (new pgdir slot) := by
  rw [made.entry]
  exact present_or _

private theorem NewTable.base {new : Mem} {page : Word} {slot : Nat}
    (made : NewTable mem new pgdir page slot) (aligned : pageBase page = page) :
    pageBase (new pgdir slot) = page := by
  rw [made.entry]
  exact pageBase_table aligned

private theorem NewTable.tables {new : Mem} {page : Word} {slot : Nat}
    (made : NewTable mem new pgdir page slot) (tables : Tables exempt pgdir mem)
    (fresh : Fresh exempt pgdir mem page) : Tables exempt pgdir new := by
  have base := made.base fresh.aligned
  constructor
  · intro i j lt lt' ok ok' ne here there
    by_cases left : i = slot
    · subst left
      have right : j ≠ i := ne.symm
      rw [made.others j right] at there ⊢
      rw [base]
      exact (fresh.tables j lt' ok' there).symm
    · by_cases right : j = slot
      · subst right
        rw [made.others i left] at here ⊢
        rw [base]
        exact fresh.tables i lt ok here
      · rw [made.others i left] at here ⊢
        rw [made.others j right] at there ⊢
        exact tables.apart i j lt lt' ok ok' ne here there
  · intro i lt ok here
    by_cases same : i = slot
    · subst same
      rw [base]
      exact fresh.dir
    · rw [made.others i same] at here ⊢
      exact tables.dir i lt ok here

private theorem NewTable.walk {new : Mem} {page : Word} {slot v : Nat}
    (made : NewTable mem new pgdir page slot) (tables : Tables exempt pgdir mem)
    (fresh : Fresh exempt pgdir mem page) (absent : ¬ Present (mem pgdir slot))
    (ok : pdeIndex v ∉ exempt) : walk new pgdir v = walk mem pgdir v := by
  by_cases same : pdeIndex v = slot
  · subst same
    rw [walk_of_absent absent, walk_of_present made.present, made.base fresh.aligned, made.zero]
    rfl
  · have entry := made.others _ same
    by_cases present : Present (mem pgdir (pdeIndex v))
    · have lt := pdeIndex_lt v
      have kept := made.frame _ (fresh.tables _ lt ok present) (tables.dir _ lt ok present)
      rw [walk_of_present present, walk_of_present (entry ▸ present), entry, kept]
    · rw [walk_of_absent present, walk_of_absent (entry ▸ present)]

/-- After `get_pte` the slot is present, every table is still a page of its own, and every walk
finds what it found before. -/
structure Prepared (exempt : Set Nat) (pgdir : Word) (mem new : Mem) (va : Nat) : Prop where
  present : Present (new pgdir (pdeIndex va))
  tables : Tables exempt pgdir new
  walk : ∀ v, pdeIndex v ∉ exempt → walk new pgdir v = walk mem pgdir v

theorem tableFor_prepared (tables : Tables exempt pgdir mem)
    (fresh : Fresh exempt pgdir mem (alloc mem)) :
    Prepared exempt pgdir mem (tableFor alloc mem pgdir va) va := by
  by_cases present : Present (mem pgdir (pdeIndex va))
  · rw [tableFor_present present]
    exact ⟨present, tables, fun _ _ => rfl⟩
  · have made := tableFor_absent fresh present
    exact ⟨made.present, made.tables tables fresh, fun _ ok => made.walk tables fresh present ok⟩

/-! ### One page -/

theorem Tables.store_dir (tables : Tables exempt pgdir mem) {slot : Nat} (index : Nat)
    (lt : slot < 1024) (ok : slot ∉ exempt) (present : Present (mem pgdir slot)) (w : Word) :
    store mem (pageBase (mem pgdir slot)) index w pgdir = mem pgdir :=
  store_of_ne_page mem index w (tables.dir slot lt ok present).symm

private theorem Tables.store (tables : Tables exempt pgdir mem) {slot index : Nat}
    (lt : slot < 1024)
    (ok : slot ∉ exempt) (present : Present (mem pgdir slot)) (w : Word) :
    Tables exempt pgdir (store mem (pageBase (mem pgdir slot)) index w) := by
  have dir := tables.store_dir index lt ok present w
  constructor
  · rw [dir]
    exact tables.apart
  · rw [dir]
    exact tables.dir

private theorem Tables.walk_store (tables : Tables exempt pgdir mem) {v : Nat}
    (ok : pdeIndex va ∉ exempt)
    (ok' : pdeIndex v ∉ exempt) (present : Present (mem pgdir (pdeIndex va))) (w : Word) :
    walk (PageTable.store mem (pageBase (mem pgdir (pdeIndex va))) (pteIndex va) w) pgdir v =
      if pdeIndex v = pdeIndex va ∧ pteIndex v = pteIndex va then found w
      else walk mem pgdir v := by
  have lt := pdeIndex_lt va
  have dir := tables.store_dir (pteIndex va) lt ok present w
  by_cases here : Present (mem pgdir (pdeIndex v))
  · rw [walk_of_present (by rw [dir]; exact here), walk_of_present here, dir]
    split_ifs with same
    · rw [same.1, same.2, store_same]
    · congr 1
      by_cases slot : pdeIndex v = pdeIndex va
      · have index : pteIndex v ≠ pteIndex va := fun eq => same ⟨slot, eq⟩
        exact store_of_ne_index _ _ _ _ index
      · have apart := tables.apart _ _ (pdeIndex_lt v) lt ok' ok slot here present
        rw [store_of_ne_page _ _ _ apart]
  · have slot : ¬ (pdeIndex v = pdeIndex va ∧ pteIndex v = pteIndex va) := by
      rintro ⟨eq, -⟩
      exact here (eq ▸ present)
    rw [if_neg slot, walk_of_absent (by rw [dir]; exact here), walk_of_absent here]

def pageStored (alloc : Mem → Word) (mem : Mem) (pgdir : Word) (va : Nat) (entry : Word) : Mem :=
  store (tableFor alloc mem pgdir va) (pageBase (tableFor alloc mem pgdir va pgdir (pdeIndex va)))
    (pteIndex va) entry

theorem pageLoop_succ (entry : Nat → Word) (size fuel va pa offset : Nat) :
    pageLoop alloc pgdir entry size (fuel + 1) mem va pa offset =
      if offset < size then
        pageLoop alloc pgdir entry size fuel (pageStored alloc mem pgdir va (entry pa))
          ((va + pageSize) % 2 ^ 32) ((pa + pageSize) % 2 ^ 32) ((offset + pageSize) % 2 ^ 32)
      else some mem := rfl

theorem page_step (entry : Word) (tables : Tables exempt pgdir mem)
    (fresh : Fresh exempt pgdir mem (alloc mem)) (ok : pdeIndex va ∉ exempt) (fits : va < 2 ^ 32)
    (aligned : pageSize ∣ va) :
    Tables exempt pgdir (pageStored alloc mem pgdir va entry) ∧
      ∀ v, v < 2 ^ 32 → pageSize ∣ v → pdeIndex v ∉ exempt →
        walk (pageStored alloc mem pgdir va entry) pgdir v =
          if v = va then found entry else walk mem pgdir v := by
  unfold pageStored
  have ready : Prepared exempt pgdir mem (tableFor alloc mem pgdir va) va :=
    tableFor_prepared tables fresh
  refine ⟨ready.tables.store (pdeIndex_lt va) ok ready.present entry, ?_⟩
  intro v fits' aligned' ok'
  rw [ready.tables.walk_store ok ok' ready.present, ready.walk v ok']
  by_cases same : v = va
  · subst same
    rw [if_pos ⟨rfl, rfl⟩, if_pos rfl]
  · have differ : ¬ (pdeIndex v = pdeIndex va ∧ pteIndex v = pteIndex va) := by
      rintro ⟨pde, pte⟩
      exact same (page_unique fits' fits aligned' aligned pde pte)
    rw [if_neg differ, if_neg same]

/-! ### The loop -/

section Rule
variable {size start pa : Nat} {entry : Nat → Word} {inv : Nat → Mem → Prop}

private theorem pageLoop_rule (bound : size ≤ 2 ^ 32 - pageSize)
    (wraps : ∀ pa, entry (pa % 2 ^ 32) = entry pa) (inside : start + size ≤ 2 ^ 32)
    (round : ∀ offset mem, pageSize ∣ offset → offset < size → inv offset mem →
      inv (offset + pageSize) (pageStored alloc mem pgdir (start + offset) (entry (pa + offset))))
    (fuel : Nat) {mem : Mem} {offset : Nat} (aligned : pageSize ∣ offset)
    (upto : offset < size + pageSize) (enough : size ≤ offset + fuel * pageSize)
    (now : inv offset mem) :
    ∃ new last, pageLoop alloc pgdir entry size (fuel + 1) mem ((start + offset) % 2 ^ 32)
        ((pa + offset) % 2 ^ 32) offset = some new ∧
      inv last new ∧ pageSize ∣ last ∧ size ≤ last ∧ last < size + pageSize := by
  induction fuel generalizing mem offset with
  | zero => exact ⟨mem, offset, if_neg (by omega), now, aligned, by omega, upto⟩
  | succ fuel ih =>
    rw [pageLoop_succ]
    by_cases more : offset < size
    · have step : (offset + pageSize) % 2 ^ 32 = offset + pageSize := by
        apply Nat.mod_eq_of_lt
        unfold pageSize at bound ⊢
        omega
      have fits : start + offset < 2 ^ 32 := by omega
      rw [if_pos more, wraps, step, Nat.mod_add_mod, Nat.mod_add_mod,
        Nat.mod_eq_of_lt fits, Nat.add_assoc, Nat.add_assoc]
      apply ih (Nat.dvd_add aligned (Nat.dvd_refl _)) (by omega)
      · rw [Nat.add_mul] at enough
        omega
      · exact round offset mem aligned more now
    · exact ⟨mem, offset, if_neg more, now, aligned, by omega, upto⟩

end Rule

theorem roundDownPage_aligned (x : Nat) : pageSize ∣ roundDownPage x := dvd_roundDown _ _

theorem roundDownPage_lt {x : Nat} (word : x < 2 ^ 32) : roundDownPage x < 2 ^ 32 :=
  Nat.lt_of_le_of_lt (roundDown_le _ _) word

theorem callLoop_rule {size start pa : Nat} {entry : Nat → Word} (inv : Nat → Mem → Prop)
    (bound : size ≤ 2 ^ 32 - pageSize) (wraps : ∀ pa, entry (pa % 2 ^ 32) = entry pa)
    (word : start < 2 ^ 32) (word' : pa < 2 ^ 32) (inside : start + size ≤ 2 ^ 32)
    (round : ∀ offset mem, pageSize ∣ offset → offset < size → inv offset mem →
      inv (offset + pageSize) (pageStored alloc mem pgdir (start + offset) (entry (pa + offset))))
    (now : inv 0 mem) :
    ∃ new last, pageLoop alloc pgdir entry size loopFuel mem start pa 0 = some new ∧
      inv last new ∧ pageSize ∣ last ∧ size ≤ last ∧ last < size + pageSize := by
  have enough : size ≤ 0 + (2 ^ 20 - 1) * pageSize := by
    unfold pageSize at bound ⊢
    omega
  have loop := pageLoop_rule bound wraps inside round (2 ^ 20 - 1) (Nat.dvd_zero _)
    (Nat.add_pos_right _ (by decide)) enough now
  simp only [Nat.add_zero] at loop
  rwa [Nat.mod_eq_of_lt word, Nat.mod_eq_of_lt word'] at loop

/-! ### Calls -/

private theorem callLoop_walk (entry : Nat → Word) {size va pa : Nat}
    (fresh : ∀ mem, Tables exempt pgdir mem → Fresh exempt pgdir mem (alloc mem))
    (bound : size ≤ 2 ^ 32 - pageSize) (wraps : ∀ pa, entry (pa % 2 ^ 32) = entry pa)
    (word : va < 2 ^ 32) (word' : pa < 2 ^ 32) (inside : roundDownPage va + size ≤ 2 ^ 32)
    (slots : ∀ v, roundDownPage va ≤ v → v < roundDownPage va + size → pdeIndex v ∉ exempt)
    (tables : Tables exempt pgdir mem) :
    ∃ new, pageLoop alloc pgdir entry size loopFuel mem (roundDownPage va) pa 0 = some new ∧
      Tables exempt pgdir new ∧
      ∀ v, v < 2 ^ 32 → pageSize ∣ v → pdeIndex v ∉ exempt →
        walk new pgdir v =
          if roundDownPage va ≤ v ∧ v < roundDownPage va + size then
            found (entry (pa + (v - roundDownPage va)))
          else walk mem pgdir v := by
  have start := roundDownPage_aligned va
  have low := roundDownPage_lt word
  generalize roundDownPage va = first at start low inside slots ⊢
  have page : 0 < pageSize := by decide
  let inv : Nat → Mem → Prop := fun offset m => Tables exempt pgdir m ∧
    ∀ v, v < 2 ^ 32 → pageSize ∣ v → pdeIndex v ∉ exempt → walk m pgdir v =
      if first ≤ v ∧ v < first + offset then found (entry (pa + (v - first)))
      else walk mem pgdir v
  have now : inv 0 mem := by
    refine ⟨tables, fun v _ _ _ => ?_⟩
    rw [if_neg (by omega)]
  obtain ⟨new, last, loop, ⟨tables', walks⟩, whole, reached, upto⟩ :=
    callLoop_rule inv bound wraps low word' inside (fun offset m aligned more held => by
      obtain ⟨kept, before⟩ := held
      obtain ⟨kept', here⟩ := page_step (entry (pa + offset)) kept (fresh m kept)
        (slots (first + offset) (by omega) (by omega)) (by omega) (Nat.dvd_add start aligned)
      refine ⟨kept', fun v fits aligned' ok => ?_⟩
      rw [here v fits aligned' ok, before v fits aligned' ok]
      by_cases same : v = first + offset
      · subst same
        have among : first ≤ first + offset ∧ first + offset < first + (offset + pageSize) := by
          omega
        rw [if_pos rfl, if_pos among, Nat.add_sub_cancel_left]
      · have grown : (first ≤ v ∧ v < first + (offset + pageSize)) ↔
            (first ≤ v ∧ v < first + offset) := by
          unfold pageSize at start aligned aligned' ⊢
          omega
        rw [if_neg same]
        simp only [grown]) now
  refine ⟨new, loop, tables', fun v fits aligned ok => ?_⟩
  have same : (first ≤ v ∧ v < first + last) ↔ (first ≤ v ∧ v < first + size) := by
    unfold pageSize at start whole upto aligned
    omega
  rw [walks v fits aligned ok]
  simp only [same]

theorem ptOp_walk {op : PtOp} (tables : Tables exempt pgdir mem)
    (allowed : op.Allowed exempt pgdir) :
    ∃ new, ptOp pgdir mem op = some new ∧ Tables exempt pgdir new ∧
      ∀ v, v < 2 ^ 32 → pageSize ∣ v → pdeIndex v ∉ exempt →
        walk new pgdir v = if op.covers v = true then op.result v else walk mem pgdir v := by
  obtain ⟨words, bound, inside, slots, fresh⟩ := allowed
  cases op with
  | pageMap va pa size flag alloc =>
    obtain ⟨new, loop, kept, walks⟩ := callLoop_walk
      (fun pa => BitVec.ofNat 32 pa ||| flag ||| pteP) fresh bound
      (fun pa => by rw [ofNat_mod]) words.1 (roundDownPage_lt words.2) inside
      (fun v low high => slots v (decide_eq_true ⟨low, high⟩)) tables
    refine ⟨new, loop, kept, ?_⟩
    intro v fits aligned ok
    rw [walks v fits aligned ok, found_of_present (present_or _)]
    simp only [PtOp.covers, decide_eq_true_iff]
    rfl
  | pageUnmap va size alloc =>
    obtain ⟨new, loop, kept, walks⟩ := callLoop_walk (fun _ => 0) fresh bound (fun _ => rfl)
      words (show 0 < 2 ^ 32 by decide) inside
      (fun v low high => slots v (decide_eq_true ⟨low, high⟩)) tables
    refine ⟨new, loop, kept, ?_⟩
    intro v fits aligned ok
    rw [walks v fits aligned ok]
    simp only [PtOp.covers, decide_eq_true_iff]
    rfl

/-! ### Sequences of calls -/

private theorem lastResult_cons (op : PtOp) (ops : List PtOp) (v : Nat) (initial : Option Word) :
    lastResult (op :: ops) v initial =
      lastResult ops v (if op.covers v = true then op.result v else initial) := by
  have last : ∀ list first, lastResult list v first =
      lastWins (fun op => op.covers v) (fun op => op.result v) first list := by
    intro list first
    unfold lastResult lastWins
    cases list.reverse.find? fun op => op.covers v with
    | some op => rfl
    | none => rfl
  rw [last, last]
  exact lastWins_cons

end

/-! ### Fresh pages exist -/

private theorem pageBase_page (k : Nat) :
    pageBase (BitVec.ofNat 32 k <<< 12) = BitVec.ofNat 32 k <<< 12 := by
  have mask : ∀ i : Fin 32, ¬ i.val < 12 → (~~~(0xfff : Word)).getLsbD i = true := by decide
  unfold pageBase
  ext i lt
  rw [BitVec.getElem_and, BitVec.getElem_shiftLeft]
  by_cases low : i < 12
  · simp [low]
  · have high : (~~~(0xfff : Word))[i] = true := mask ⟨i, lt⟩ low
    rw [high, Bool.and_true]

private theorem page_injective {a b : Nat} (lt : a < 2 ^ 20) (lt' : b < 2 ^ 20)
    (eq : (BitVec.ofNat 32 a <<< 12 : Word) = BitVec.ofNat 32 b <<< 12) : a = b := by
  have values := congrArg BitVec.toNat eq
  simp only [BitVec.toNat_shiftLeft, BitVec.toNat_ofNat, Nat.shiftLeft_eq] at values
  omega

theorem exists_fresh (exempt : Set Nat) (pgdir : Word) (mem : Mem) :
    ∃ page, Fresh exempt pgdir mem page := by
  let used := insert pgdir ((Finset.range 1024).image fun i => pageBase (mem pgdir i))
  let pool := (Finset.range 1026).image fun k => (BitVec.ofNat 32 k <<< 12 : Word)
  have few : used.card ≤ 1025 := by
    apply (Finset.card_insert_le _ _).trans
    apply Nat.succ_le_succ
    exact Finset.card_image_le.trans (Finset.card_range 1024).le
  have many : pool.card = 1026 := by
    rw [Finset.card_image_of_injOn, Finset.card_range]
    intro a mem b mem' eq
    have lt := Finset.mem_range.mp mem
    have lt' := Finset.mem_range.mp mem'
    exact page_injective (by omega) (by omega) eq
  obtain ⟨page, member, unused⟩ := Finset.exists_mem_notMem_of_card_lt_card
    (show used.card < pool.card by omega)
  obtain ⟨k, -, rfl⟩ := Finset.mem_image.mp member
  refine ⟨_, pageBase_page k, ?_, ?_⟩
  · intro eq
    exact unused (Finset.mem_insert.mpr (.inl eq))
  · intro i lt _ _ eq
    exact unused (Finset.mem_insert_of_mem (Finset.mem_image.mpr ⟨i, Finset.mem_range.mpr lt, eq⟩))

theorem exists_alloc (exempt : Set Nat) (pgdir : Word) :
    ∃ alloc : Mem → Word, ∀ mem, Tables exempt pgdir mem → Fresh exempt pgdir mem (alloc mem) := by
  choose alloc fresh using exists_fresh exempt pgdir
  exact ⟨alloc, fun mem _ => fresh mem⟩

/-! ### The refinement -/

/-- Outside the exempt slots, a walk finds what the last call that covered the page assigned, and
what it found initially if there was none. -/
theorem page_table_refines {exempt : Set Nat} {pgdir : Word} {mem : Mem} {ops : List PtOp}
    (tables : Tables exempt pgdir mem)
    (allowed : ∀ op ∈ ops, op.Allowed exempt pgdir) :
    ∃ new, ptRun pgdir mem ops = some new ∧
      ∀ v, v < 2 ^ 32 → pageSize ∣ v → pdeIndex v ∉ exempt →
        walk new pgdir v = lastResult ops v (walk mem pgdir v) := by
  induction ops generalizing mem with
  | nil => exact ⟨mem, rfl, fun _ _ _ _ => rfl⟩
  | cons op ops ih =>
    obtain ⟨mid, call, kept, walks⟩ := ptOp_walk tables (allowed op List.mem_cons_self)
    obtain ⟨new, run, rest⟩ := ih kept fun o mem => allowed o (List.mem_cons_of_mem _ mem)
    refine ⟨new, ?_, ?_⟩
    · rw [ptRun, call, Option.bind_some, run]
    · intro v fits aligned ok
      rw [rest v fits aligned ok, walks v fits aligned ok, lastResult_cons]

def selfMapped : Mem := fun page i => if page = 0x1000 ∧ i = pdeIndex vpt then 0x1003 else 0

theorem selfMapped_tables : Tables {pdeIndex vpt} 0x1000 selfMapped := by
  have absent : ∀ i, i ∉ ({pdeIndex vpt} : Set Nat) → ¬ Present (selfMapped 0x1000 i) := by
    intro i ok present
    have other : ¬ ((0x1000 : Word) = 0x1000 ∧ i = pdeIndex vpt) := fun same => ok same.2
    rw [selfMapped, if_neg other] at present
    exact present rfl
  constructor
  · intro i j _ _ ok _ _ here
    exact absurd here (absent i ok)
  · intro i _ ok here
    exact absurd here (absent i ok)

private theorem allowed_low {op : PtOp} (words : op.Words)
    (low : roundDownPage op.va + op.size ≤ 2 ^ 22)
    (fresh : ∀ mem, Tables {pdeIndex vpt} 0x1000 mem →
      Fresh {pdeIndex vpt} 0x1000 mem (op.alloc mem)) :
    op.Allowed {pdeIndex vpt} 0x1000 := by
  refine ⟨words, ?_, by omega, ?_, fresh⟩
  · unfold pageSize
    omega
  · intro v covers eq
    have inside := (of_decide_eq_true covers).2
    have slot : pdeIndex v = pdeIndex vpt := eq
    rw [pdeIndex_eq, pdeIndex_eq, vpt] at slot
    omega

theorem page_table_refines_low :
    ∃ alloc new, ptRun 0x1000 selfMapped [.pageMap 0 0x8000 4097 2 alloc,
        .pageUnmap 0x1000 1 alloc] = some new ∧
      walk new 0x1000 0 = some 0x8003 ∧ walk new 0x1000 0x1000 = none := by
  obtain ⟨alloc, fresh⟩ := exists_alloc {pdeIndex vpt} 0x1000
  have allowed : ∀ op ∈ [PtOp.pageMap 0 0x8000 4097 2 alloc, .pageUnmap 0x1000 1 alloc],
      op.Allowed {pdeIndex vpt} 0x1000 := by
    intro op mem
    rcases List.mem_pair.mp mem with rfl | rfl
    · refine allowed_low ⟨by decide, by decide⟩ ?_ fresh
      simp [PtOp.va, PtOp.size, roundDownPage, roundDown]
    · refine allowed_low (by decide : 0x1000 < 2 ^ 32) ?_ fresh
      simp [PtOp.va, PtOp.size, roundDownPage, roundDown, pageSize]
  obtain ⟨new, run, walks⟩ := page_table_refines selfMapped_tables allowed
  refine ⟨alloc, new, run, ?_, ?_⟩
  · rw [walks 0 (by decide) (by decide) (by decide)]
    simp [lastResult, PtOp.covers, PtOp.va, PtOp.size, PtOp.result, roundDownPage, roundDown,
      pageSize, pteP]
  · rw [walks 0x1000 (by decide) (by decide) (by decide)]
    simp [lastResult, PtOp.covers, PtOp.va, PtOp.size, PtOp.result, roundDownPage, roundDown,
      pageSize]

private theorem pageLoop_one (alloc : Mem → Word) (pgdir : Word) (entry : Nat → Word) (fuel : Nat)
    (mem : Mem) (va pa : Nat) :
    pageLoop alloc pgdir entry 4096 (fuel + 2) mem va pa 0 =
      some (pageStored alloc mem pgdir va (entry pa)) := by
  rw [pageLoop_succ, if_pos (by decide), pageLoop_succ, if_neg (by decide)]

/-- A walk through the self-map finds directory entries, so a new table shows up in it although no
call covers the page. -/
theorem page_table_selfmap_changes :
    ∃ (exempt : Set Nat) (pgdir : Word) (mem new : Mem) (op : PtOp) (v : Nat),
      Tables exempt pgdir mem ∧ op.Allowed exempt pgdir ∧ v < 2 ^ 32 ∧ pageSize ∣ v ∧
        op.covers v = false ∧ ptRun pgdir mem [op] = some new ∧
        walk new pgdir v ≠ walk mem pgdir v := by
  obtain ⟨alloc, fresh⟩ := exists_alloc {pdeIndex vpt} 0x1000
  have page := fresh selfMapped selfMapped_tables
  have made : NewTable selfMapped (tableFor alloc selfMapped 0x1000 0) 0x1000 (alloc selfMapped)
      (pdeIndex 0) := tableFor_absent page (by unfold Present; decide)
  have run : ptRun 0x1000 selfMapped [.pageMap 0 0 4096 2 alloc] = some _ :=
    congrArg (fun new => new.bind some)
      (pageLoop_one alloc 0x1000 (fun pa => BitVec.ofNat 32 pa ||| 2 ||| pteP) (2 ^ 20 - 2)
        selfMapped 0 0)
  have allowed : PtOp.Allowed {pdeIndex vpt} 0x1000 (.pageMap 0 0 4096 2 alloc) := by
    refine allowed_low ⟨by decide, by decide⟩ ?_ fresh
    simp [PtOp.va, PtOp.size, roundDownPage, roundDown]
  refine ⟨{pdeIndex vpt}, 0x1000, selfMapped, _, .pageMap 0 0 4096 2 alloc, vpt,
    selfMapped_tables, allowed, by decide, by decide,
    by simp [PtOp.covers, PtOp.va, PtOp.size, roundDownPage, roundDown, vpt], run, ?_⟩
  have table : (0x1000 : Word) ≠
      pageBase (tableFor alloc selfMapped 0x1000 0 0x1000 (pdeIndex 0)) := by
    rw [made.base page.aligned]
    exact page.dir.symm
  have slot : tableFor alloc selfMapped 0x1000 0 0x1000 (pdeIndex vpt) = 0x1003 :=
    made.others _ (by decide)
  have before : walk selfMapped 0x1000 vpt = none := by decide
  rw [before, pageStored, walk_of_present, store_of_ne_page _ _ _ table, slot]
  · show found _ ≠ none
    have self : pageBase 0x1003 = 0x1000 := by decide
    rw [self, store_of_ne_page _ _ _ table]
    have shown : pteIndex vpt = pdeIndex 0 := by decide
    rw [shown, found_of_present made.present]
    exact Option.some_ne_none _
  · rw [store_of_ne_page _ _ _ table, slot]
    unfold Present
    decide

end OhMyOs.Mm.PageTable
