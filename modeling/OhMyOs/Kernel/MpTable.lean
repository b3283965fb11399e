/- GID: OhMyOs/Kernel/MpTable
   generality: I
   digest: The scan of the multiprocessor table in kernel/smp.c, entry by entry. -/

import Mathlib.Algebra.Group.Nat.Defs
import Mathlib.Logic.Function.Basic
import OhMyOs.Include.Constants
import OhMyOs.Lib.Outcome

set_option autoImplicit false
set_option relaxedAutoImplicit false

namespace OhMyOs.Kernel.MpTable

open OhMyOs.Include.Constants
open OhMyOs.Lib.Outcome

/-! ### The code -/

/-- Memory by address, `none` where no page is mapped. -/
abbrev Memory := Nat → Option Byte

/-- What keeps a call from going on; `endless` is a string without an end in the whole memory. -/
inductive Fault
  | pageFault | nullPointer | assertion | endless
  deriving DecidableEq

/-- `struct cpu`; `none` is NULL. -/
structure Cpu where
  id : Nat
  init : Bool
  started : Bool
  processor : Option Nat
  deriving DecidableEq

/-- The variables of `scan_mp_entry` and the globals it writes. The last two fields only record:
the addresses of the entries that were passed, and the slots of `cpus` that were written. -/
structure Scan where
  p : Nat
  iointr : Nat
  cpus : Nat → Cpu
  ioapicId : Byte
  passed : List Nat
  written : List Nat

def field (mem : Memory) (p offset : Nat) : Except Fault Byte :=
  match mem ((p + offset) % 2 ^ 32) with
  | some b => .ok b
  | none => .error .pageFault

/-- `strlen` on the string at `p`. -/
def readString (mem : Memory) : Nat → Nat → Except Fault Unit
  | 0, _ => .error .endless
  | fuel + 1, p => do
    if (← field mem p 0) = 0 then return () else readString mem fuel (p + 1)

def places : Nat := 2 ^ 32

/-- `__LINE__` of the warning in `scan_mp_entry`, which is printed as if it were a `char *`. -/
def warnLine : Nat := 95

namespace Scan

def advance (s : Scan) (size : Nat) : Scan :=
  { s with p := (s.p + size) % 2 ^ 32, passed := s.passed ++ [s.p] }

def setCpu (s : Scan) (lapicId : Nat) : Scan :=
  { s with
    cpus := Function.update s.cpus lapicId ⟨lapicId, true, false, some s.p⟩
    written := lapicId :: s.written }

end Scan

/-- The body of the loop; a number is what `scan_mp_entry` returns. Of the messages there is what
they read: the name in a `bus` entry, which has no NUL of its own, and for a `lintr` entry the field
of the last `iointr` entry. -/
def scanEntry (mem : Memory) (s : Scan) : Except Fault (Scan ⊕ Int) := do
  match (← field mem s.p 0).toNat with
  | 0 =>
    let lapicId := (← field mem s.p 1).toNat
    if lapicId ≥ maxCpu then
      if lapicId > maxCpu then readString mem places warnLine
      -- This `continue` skips the `p += sizeof(*processor)` below it.
      return .inl s
    else return .inl ((s.setCpu lapicId).advance 20)
  | 1 =>
    readString mem places (s.p + 2)
    return .inl (s.advance 8)
  | 2 =>
    let ioapicId ← field mem s.p 1
    return .inl ({ s with ioapicId := ioapicId }.advance 8)
  | 3 => return .inl ({ s with iointr := s.p }.advance 8)
  | 4 =>
    let _ ← field mem s.iointr 1
    return .inl (s.advance 8)
  | _ => return .inr (-enodev)

/-- Without a result the loop is still running. -/
def scanLoop (mem : Memory) (stop : Nat) : Nat → Scan → Option (Except Fault (Scan × Int))
  | 0, _ => none
  | fuel + 1, s =>
    if s.p < stop then
      match scanEntry mem s with
      | .error fault => some (.error fault)
      | .ok (.inl s) => scanLoop mem stop fuel s
      | .ok (.inr ret) => some (.ok (s, ret))
    else some (.ok (s, 0))

/-- `stack` is what the stack holds in the place of `iointr`, which is not initialised. -/
def scanMpEntry (mem : Memory) (fuel start stop stack : Nat) (cpus : Nat → Cpu)
    (ioapicId : Byte) : Option (Except Fault (Scan × Int)) :=
  scanLoop mem stop fuel ⟨start, stack, cpus, ioapicId, [], []⟩

/-! ### Tables -/

inductive EntryType
  | processor | bus | ioapic | iointr | lintr
  deriving DecidableEq

def EntryType.code : EntryType → Byte
  | .processor => 0
  | .bus => 1
  | .ioapic => 2
  | .iointr => 3
  | .lintr => 4

def EntryType.size : EntryType → Nat
  | .processor => 20
  | _ => 8

structure Entry where
  type : EntryType
  fields : List Byte
  complete : fields.length + 1 = type.size

namespace Entry

def bytes (e : Entry) : List Byte := e.type.code :: e.fields

def lapicId (e : Entry) : Nat := (e.fields.getD 0 0).toNat

/-- `cpu_en`, the lowest bit of the flags. -/
def cpuEn (e : Entry) : Bool := (e.fields.getD 2 0).getLsbD 0

def isProcessor (e : Entry) (id : Nat) : Bool := e.type = .processor && e.lapicId = id

theorem bytes_length (e : Entry) : e.bytes.length = e.type.size := e.complete

end Entry

def tableBytes (entries : List Entry) : List Byte := entries.flatMap Entry.bytes

def positions : Nat → List Entry → List Nat
  | _, [] => []
  | p, e :: rest => p :: positions (p + e.type.size) rest

def Holds (mem : Memory) (p : Nat) (bytes : List Byte) : Prop :=
  ∀ i b, bytes[i]? = some b → mem (p + i) = some b

def AllFit (entries : List Entry) : Prop :=
  ∀ e ∈ entries, e.type = .processor → e.lapicId < maxCpu

def iointrFirst : List Entry → Bool
  | [] => true
  | e :: rest =>
    match e.type with
    | .iointr => true
    | .lintr => false
    | _ => iointrFirst rest

def Terminated (mem : Memory) (p : Nat) : Prop :=
  ∃ n < places, field mem (p + n) 0 = .ok 0 ∧ ∀ i < n, ∃ b, field mem (p + i) 0 = .ok b

/-- From the name in each `bus` entry on, the bytes are mapped up to a NUL. -/
def BusNames (mem : Memory) : Nat → List Entry → Prop
  | _, [] => True
  | p, e :: rest =>
    (e.type = .bus → Terminated mem (p + 2)) ∧ BusNames mem (p + e.type.size) rest

/-- All that the messages read is mapped: the field of the last `iointr` entry and the names. -/
def Printable (mem : Memory) (p iointr : Nat) (entries : List Entry) : Prop :=
  (iointrFirst entries = true ∨ ∃ b, mem ((iointr + 1) % 2 ^ 32) = some b) ∧
    BusNames mem p entries

def Readable (mem : Memory) (s : Scan) (e : Entry) : Prop :=
  (e.type = .lintr → ∃ b, mem ((s.iointr + 1) % 2 ^ 32) = some b) ∧
    (e.type = .bus → Terminated mem (s.p + 2))

/-- What an entry does to the variables. -/
def takeEntry (s : Scan) (e : Entry) : Scan :=
  match e.type with
  | .processor => (s.setCpu e.lapicId).advance 20
  | .ioapic => { s with ioapicId := e.fields.getD 0 0 }.advance 8
  | .iointr => { s with iointr := s.p }.advance 8
  | .bus | .lintr => s.advance 8

/-! ### One entry -/

section Step
variable {mem : Memory} {s : Scan} {e : Entry} {rest : List Entry} {stop : Nat}

theorem Holds.append {p : Nat} {xs ys : List Byte} (table : Holds mem p (xs ++ ys)) :
    Holds mem p xs ∧ Holds mem (p + xs.length) ys := by
  constructor
  · intro i b at_
    obtain ⟨inside, -⟩ := List.getElem?_eq_some_iff.mp at_
    exact table i b (by rw [List.getElem?_append_left inside, at_])
  · intro i b at_
    have here := table (xs.length + i) b
      (by rw [List.getElem?_append_right (by omega), Nat.add_sub_cancel_left, at_])
    rwa [← Nat.add_assoc] at here

private theorem EntryType.size_bounds (t : EntryType) : 8 ≤ t.size ∧ t.size ≤ 20 := by
  cases t with
  | processor | bus | ioapic | iointr | lintr => decide

theorem field_entry (table : Holds mem s.p e.bytes) (space : s.p + e.type.size < 2 ^ 32) :
    field mem s.p 0 = .ok e.type.code ∧ field mem s.p 1 = .ok (e.fields.getD 0 0) := by
  have size := e.type.size_bounds
  have complete := e.complete
  have type := table 0 e.type.code rfl
  have id := table 1 (e.fields.getD 0 0) (by
    rw [Entry.bytes, List.getElem?_cons_succ, List.getD_eq_getElem?_getD,
      List.getElem?_eq_getElem (by omega)]
    rfl)
  unfold field
  rw [Nat.mod_eq_of_lt (by omega), Nat.mod_eq_of_lt (by omega), type, id]
  exact ⟨rfl, rfl⟩

private theorem exists_first_succ {last before : Nat → Prop} {fuel : Nat} :
    (∃ n < fuel + 1, last n ∧ ∀ i < n, before i) ↔
      last 0 ∨ before 0 ∧ ∃ n < fuel, last (n + 1) ∧ ∀ i < n, before (i + 1) := by
  constructor
  · rintro ⟨n, below, here, all⟩
    cases n with
    | zero => exact .inl here
    | succ n =>
      exact .inr ⟨all 0 (Nat.succ_pos n), n, Nat.lt_of_succ_lt_succ below, here,
        fun i small => all (i + 1) (Nat.succ_lt_succ small)⟩
  · rintro (here | ⟨first, n, below, here, all⟩)
    · exact ⟨0, Nat.succ_pos fuel, here, fun i small => absurd small (Nat.not_lt_zero i)⟩
    · refine ⟨n + 1, Nat.succ_lt_succ below, here, fun i small => ?_⟩
      cases i with
      | zero => exact first
      | succ i => exact all i (Nat.lt_of_succ_lt_succ small)

private theorem readString_ok_iff (fuel p : Nat) : readString mem fuel p = .ok () ↔
    ∃ n < fuel, field mem (p + n) 0 = .ok 0 ∧ ∀ i < n, ∃ b, field mem (p + i) 0 = .ok b := by
  induction fuel generalizing p with
  | zero =>
    refine ⟨fun done => (nomatch done), ?_⟩
    rintro ⟨n, below, -⟩
    exact absurd below (Nat.not_lt_zero n)
  | succ fuel ih =>
    have next : readString mem fuel (p + 1) = .ok () ↔
        ∃ n < fuel, field mem (p + (n + 1)) 0 = .ok 0 ∧
          ∀ i < n, ∃ b, field mem (p + (i + 1)) 0 = .ok b := by
      simpa only [Nat.add_assoc, Nat.add_comm 1] using ih (p + 1)
    rw [readString, exists_first_succ, ← next, Nat.add_zero]
    cases field mem p 0 with
    | error fault =>
      refine iff_of_false (fun done => (nomatch done)) ?_
      rintro (last | ⟨⟨b, first⟩, -⟩)
      · cases last
      · cases first
    | ok b =>
      rw [ok_bind]
      by_cases zero : b = 0
      · rw [if_pos zero, zero]
        exact iff_of_true rfl (.inl rfl)
      · rw [if_neg zero]
        refine ⟨fun rest => .inr ⟨⟨b, rfl⟩, rest⟩, ?_⟩
        rintro (last | ⟨-, rest⟩)
        · exact absurd (Except.ok.inj last) zero
        · exact rest

private theorem scanEntry_takes (table : Holds mem s.p e.bytes) (space : s.p + e.type.size < 2 ^ 32)
    (fits : e.type = .processor → e.lapicId < maxCpu) (readable : Readable mem s e) :
    scanEntry mem s = .ok (.inl (takeEntry s e)) := by
  obtain ⟨type, id⟩ := field_entry table space
  unfold scanEntry
  rw [type, ok_bind]
  unfold takeEntry
  cases kind : e.type with
  | processor =>
    have small := fits kind
    simp only [EntryType.code, id, ok_bind]
    exact if_neg (Nat.not_le.mpr small)
  | bus =>
    have name := (readString_ok_iff places _).mpr (readable.2 kind)
    simp only [EntryType.code]
    change (readString mem places (s.p + 2) >>= _) = _
    rw [name]
    rfl
  | iointr => rfl
  | ioapic =>
    simp only [EntryType.code, id]
    rfl
  | lintr =>
    obtain ⟨b, mapped⟩ := readable.1 kind
    simp only [EntryType.code, field, mapped]
    rfl

theorem takeEntry_p (space : s.p + e.type.size < 2 ^ 32) :
    (takeEntry s e).p = s.p + e.type.size := by
  rw [← Nat.mod_eq_of_lt space]
  unfold takeEntry
  cases e.type with
  | processor | bus | ioapic | iointr | lintr => rfl

private theorem takeEntry_passed : (takeEntry s e).passed = s.passed ++ [s.p] := by
  unfold takeEntry
  cases e.type with
  | processor | bus | ioapic | iointr | lintr => rfl

private theorem takeEntry_written {i : Nat} (fits : e.type = .processor → e.lapicId < maxCpu)
    (written : i ∈ (takeEntry s e).written) : i < maxCpu ∨ i ∈ s.written := by
  unfold takeEntry at written
  cases kind : e.type with
  | processor =>
    simp only [kind] at written
    rcases List.mem_cons.mp written with rfl | before
    · exact .inl (fits kind)
    · exact .inr before
  | bus | ioapic | iointr | lintr =>
    simp only [kind] at written
    exact .inr written

private theorem Printable.take (printable : Printable mem s.p s.iointr (e :: rest))
    (table : Holds mem s.p e.bytes) (space : s.p + e.type.size < 2 ^ 32) :
    Printable mem (takeEntry s e).p (takeEntry s e).iointr rest := by
  refine ⟨?_, takeEntry_p space ▸ printable.2.2⟩
  unfold takeEntry
  cases kind : e.type with
  | iointr =>
    obtain ⟨-, id⟩ := field_entry table space
    unfold field at id
    split at id
    · exact .inr ⟨_, ‹_›⟩
    · cases id
  | processor | bus | ioapic | lintr =>
    rcases printable.1 with first | mapped
    · simp only [iointrFirst, kind] at first
      first
        | exact .inl first
        | cases first
    · exact .inr mapped

private theorem Printable.head (printable : Printable mem s.p s.iointr (e :: rest)) :
    Readable mem s e := by
  refine ⟨fun kind => ?_, printable.2.1⟩
  rcases printable.1 with first | mapped
  · simp only [iointrFirst, kind] at first
    cases first
  · exact mapped

end Step

/-! ### The whole table -/

section Table
variable {mem : Memory} {s : Scan} {entries : List Entry}

theorem tableBytes_cons (e : Entry) (rest : List Entry) :
    tableBytes (e :: rest) = e.bytes ++ tableBytes rest := List.flatMap_cons

theorem scanLoop_takes (fuel : Nat) (enough : entries.length < fuel)
    (table : Holds mem s.p (tableBytes entries))
    (space : s.p + (tableBytes entries).length < 2 ^ 32) (fits : AllFit entries)
    (printable : Printable mem s.p s.iointr entries) :
    scanLoop mem (s.p + (tableBytes entries).length) fuel s =
      some (.ok (entries.foldl takeEntry s, 0)) := by
  obtain ⟨fuel, rfl⟩ : ∃ n, fuel = n + 1 := ⟨fuel - 1, by omega⟩
  induction entries generalizing s fuel with
  | nil => simp [scanLoop, tableBytes]
  | cons e rest ih =>
    rw [tableBytes_cons] at table space ⊢
    rw [List.length_append, e.bytes_length] at space ⊢
    obtain ⟨here, there⟩ := table.append
    have size := e.type.size_bounds
    have p : (takeEntry s e).p = s.p + e.type.size := takeEntry_p (by omega)
    rw [e.bytes_length, ← p] at there
    rw [← Nat.add_assoc, ← p] at space ⊢
    have taken := scanEntry_takes here (by omega) (fits e List.mem_cons_self) printable.head
    obtain ⟨fuel, rfl⟩ : ∃ n, fuel = n + 1 := ⟨fuel - 1, by simp at enough; omega⟩
    have inside : s.p < (takeEntry s e).p + (tableBytes rest).length := by omega
    rw [scanLoop, if_pos inside, taken]
    exact ih there space (fun e member => fits e (List.mem_cons_of_mem _ member))
      (printable.take here (by omega)) fuel (by simp at enough; omega)

private theorem scanLoop_stuck {stop : Nat} (inside : s.p < stop)
    (same : scanEntry mem s = .ok (.inl s))
    (fuel : Nat) : scanLoop mem stop fuel s = none := by
  induction fuel with
  | zero => rfl
  | succ fuel ih =>
    rw [scanLoop, if_pos inside, same]
    exact ih

private theorem scanEntry_unreadable {e : Entry} (table : Holds mem s.p e.bytes)
    (space : s.p + e.type.size < 2 ^ 32) (unreadable : ¬ Readable mem s e) :
    ∃ fault, scanEntry mem s = .error fault := by
  obtain ⟨type, -⟩ := field_entry table space
  unfold scanEntry
  rw [type, ok_bind]
  rcases Classical.not_and_iff_not_or_not.mp unreadable with unmapped | endless
  · obtain ⟨kind, unmapped⟩ := Classical.not_imp.mp unmapped
    have none : mem ((s.iointr + 1) % 2 ^ 32) = none :=
      Option.eq_none_iff_forall_not_mem.mpr fun b at_ => unmapped ⟨b, at_⟩
    rw [kind]
    simp only [EntryType.code, field, none]
    exact ⟨_, rfl⟩
  · obtain ⟨kind, endless⟩ := Classical.not_imp.mp endless
    rw [kind]
    change ∃ fault, (readString mem places (s.p + 2) >>= _) = .error fault
    cases name : readString mem places (s.p + 2) with
    | error fault => exact ⟨fault, rfl⟩
    | ok _ => exact absurd ((readString_ok_iff places _).mp name) endless

private theorem scanEntry_large {e : Entry} (table : Holds mem s.p e.bytes)
    (space : s.p + e.type.size < 2 ^ 32) (kind : e.type = .processor)
    (large : maxCpu ≤ e.lapicId) :
    scanEntry mem s = .ok (.inl s) ∨ ∃ fault, scanEntry mem s = .error fault := by
  obtain ⟨type, id⟩ := field_entry table space
  unfold scanEntry
  rw [type, ok_bind, kind]
  simp only [EntryType.code, id, ok_bind]
  have slot : maxCpu ≤ (e.fields.getD 0 0).toNat := large
  rw [if_pos slot]
  by_cases warned : (e.fields.getD 0 0).toNat > maxCpu
  · rw [if_pos warned]
    -- the warning is printed, if its line number can be read as a string
    cases readString mem places warnLine with
    | error fault => exact .inr ⟨fault, rfl⟩
    | ok _ => exact .inl rfl
  · rw [if_neg warned]
    exact .inl rfl

private theorem scanEntry_cases {e : Entry} (table : Holds mem s.p e.bytes)
    (space : s.p + e.type.size < 2 ^ 32) :
    ((e.type = .processor → e.lapicId < maxCpu) ∧ Readable mem s e ∧
        scanEntry mem s = .ok (.inl (takeEntry s e))) ∨
      scanEntry mem s = .ok (.inl s) ∨ ∃ fault, scanEntry mem s = .error fault := by
  by_cases fits : e.type = .processor → e.lapicId < maxCpu
  · by_cases readable : Readable mem s e
    · exact .inl ⟨fits, readable, scanEntry_takes table space fits readable⟩
    · exact .inr (.inr (scanEntry_unreadable table space readable))
  · obtain ⟨kind, large⟩ := Classical.not_imp.mp fits
    exact .inr (scanEntry_large table space kind (Nat.not_lt.mp large))

private theorem Printable.cons {e : Entry} {rest : List Entry} (readable : Readable mem s e)
    (space : s.p + e.type.size < 2 ^ 32)
    (printable : Printable mem (takeEntry s e).p (takeEntry s e).iointr rest) :
    Printable mem s.p s.iointr (e :: rest) := by
  obtain ⟨field, names⟩ := printable
  rw [takeEntry_p space] at names
  refine ⟨?_, readable.2, names⟩
  unfold iointrFirst
  unfold takeEntry at field
  cases kind : e.type with
  | iointr => exact .inl rfl
  | lintr => exact .inr (readable.1 kind)
  | processor | bus | ioapic =>
    simp only [kind] at field
    exact field

theorem scanLoop_needs {fuel : Nat} {t : Scan} {stop : Nat}
    (table : Holds mem s.p (tableBytes entries))
    (ends : s.p + (tableBytes entries).length = stop) (space : stop < 2 ^ 32)
    (done : scanLoop mem stop fuel s = some (.ok (t, 0))) :
    AllFit entries ∧ Printable mem s.p s.iointr entries ∧ t = entries.foldl takeEntry s := by
  induction entries generalizing s fuel with
  | nil =>
    refine ⟨fun e member => (nomatch member), ⟨.inl rfl, trivial⟩, ?_⟩
    cases fuel with
    | zero => cases done
    | succ fuel =>
      have outside : ¬ s.p < stop := Nat.not_lt.mpr (Nat.le_of_eq ends.symm)
      rw [scanLoop, if_neg outside] at done
      cases done
      rfl
  | cons e rest ih =>
    rw [tableBytes_cons] at table ends
    rw [List.length_append, e.bytes_length] at ends
    obtain ⟨here, there⟩ := table.append
    have size := e.type.size_bounds
    have p : (takeEntry s e).p = s.p + e.type.size := takeEntry_p (by omega)
    rw [e.bytes_length, ← p] at there
    have inside : s.p < stop := by omega
    cases fuel with
    | zero => cases done
    | succ fuel =>
      rcases scanEntry_cases here (by omega) with ⟨fits, readable, taken⟩ | same | ⟨fault, stops⟩
      · rw [scanLoop, if_pos inside, taken] at done
        obtain ⟨fitting, printable, last⟩ := ih there (by omega) done
        exact ⟨List.forall_mem_cons.mpr ⟨fits, fitting⟩, printable.cons readable (by omega), last⟩
      · rw [scanLoop_stuck inside same] at done
        cases done
      · rw [scanLoop, if_pos inside, stops] at done
        cases done

private theorem fold_passed (space : s.p + (tableBytes entries).length < 2 ^ 32) :
    (entries.foldl takeEntry s).passed = s.passed ++ positions s.p entries := by
  induction entries generalizing s with
  | nil => exact (List.append_nil _).symm
  | cons e rest ih =>
    rw [tableBytes_cons, List.length_append, e.bytes_length] at space
    have p : (takeEntry s e).p = s.p + e.type.size := takeEntry_p (by omega)
    rw [List.foldl_cons, ih (by omega), takeEntry_passed, p, List.append_assoc]
    rfl

private theorem fold_written {i : Nat} (fits : AllFit entries)
    (written : i ∈ (entries.foldl takeEntry s).written) : i < maxCpu ∨ i ∈ s.written := by
  induction entries generalizing s with
  | nil => exact .inr written
  | cons e rest ih =>
    rcases ih (fun e member => fits e (List.mem_cons_of_mem _ member)) written with small | before
    · exact .inl small
    · exact takeEntry_written (fits e List.mem_cons_self) before

def ScanExact (mem : Memory) (start stack : Nat) (cpus : Nat → Cpu) (ioapicId : Byte)
    (entries : List Entry) : Prop :=
  ∃ fuel s,
    scanMpEntry mem fuel start (start + (tableBytes entries).length) stack cpus ioapicId =
      some (.ok (s, 0)) ∧
    s.passed = positions start entries ∧ ∀ i ∈ s.written, i < maxCpu

/-- The scan of a table is exact if and only if every processor entry has a slot in `cpus`, no
`lintr` entry is met while `iointr` points nowhere, and a NUL ends the name in each `bus` entry. -/
theorem scanMpEntry_exact_iff (mem : Memory) (start stack : Nat) (cpus : Nat → Cpu)
    (ioapicId : Byte) (entries : List Entry) (table : Holds mem start (tableBytes entries))
    (space : start + (tableBytes entries).length < 2 ^ 32) :
    ScanExact mem start stack cpus ioapicId entries ↔
      AllFit entries ∧ Printable mem start stack entries := by
  constructor
  · rintro ⟨fuel, s, done, -⟩
    obtain ⟨fits, printable, -⟩ :=
      scanLoop_needs (s := ⟨start, stack, cpus, ioapicId, [], []⟩) table rfl space done
    exact ⟨fits, printable⟩
  · rintro ⟨fits, printable⟩
    refine ⟨entries.length + 1, _, scanLoop_takes _ (Nat.lt_succ_self _) table space fits printable,
      fold_passed space, fun i written => ?_⟩
    rcases fold_written fits written with small | before
    · exact small
    · cases before

end Table

def only (start : Nat) (bytes : List Byte) : Memory := fun a =>
  if start ≤ a then bytes[a - start]? else none

theorem only_holds (start : Nat) (bytes : List Byte) : Holds (only start bytes) start bytes := by
  intro i b at_
  rw [only, if_pos (Nat.le_add_right _ _), Nat.add_sub_cancel_left, at_]

def processorEntry (lapicId flags : Byte) : Entry where
  type := .processor
  fields := lapicId :: 0x14 :: flags :: List.replicate 16 0
  complete := rfl

def shortEntry (type : EntryType) (short : type.size = 8) : Entry where
  type := type
  fields := List.replicate 7 0
  complete := short.symm

def noCpus : Nat → Cpu := fun _ => ⟨0, false, false, none⟩

def isaEntry : Entry where
  type := .bus
  fields := [0, 0x49, 0x53, 0x41, 0x20, 0x20, 0x20]
  complete := rfl

def sampleTable : List Entry :=
  [processorEntry 0 3, processorEntry 1 1, isaEntry, shortEntry .ioapic rfl,
    shortEntry .iointr rfl, shortEntry .lintr rfl]

private theorem sampleTable_names :
    BusNames (only 0x9FC2C (tableBytes sampleTable)) 0x9FC2C sampleTable := by
  have name : Terminated (only 0x9FC2C (tableBytes sampleTable)) 0x9FC56 :=
    (readString_ok_iff places _).mp rfl
  exact ⟨nofun, nofun, fun _ => name, nofun, nofun, nofun, trivial⟩

/-- Two processors and one entry of every other type. -/
theorem scanMpEntry_exact_iff_sample :
    ScanExact (only 0x9FC2C (tableBytes sampleTable)) 0x9FC2C 0 noCpus 0 sampleTable := by
  refine (scanMpEntry_exact_iff _ _ _ _ _ _ (only_holds _ _) (by decide)).mpr
    ⟨?_, .inl rfl, sampleTable_names⟩
  unfold AllFit
  decide

/-- The scan never gets past a processor with id 8. -/
theorem scanMpEntry_endless :
    ¬ ∀ mem start stack cpus ioapicId entries, Holds mem start (tableBytes entries) →
      start + (tableBytes entries).length < 2 ^ 32 →
      ScanExact mem start stack cpus ioapicId entries := by
  intro claim
  obtain ⟨fuel, s, done, -⟩ := claim (only 0x9FC2C (tableBytes [processorEntry 8 1])) 0x9FC2C 0
    noCpus 0 [processorEntry 8 1] (only_holds _ _) (by decide)
  obtain ⟨fits, -⟩ := scanLoop_needs (s := ⟨0x9FC2C, 0, noCpus, 0, [], []⟩)
    (only_holds _ (tableBytes [processorEntry 8 1])) rfl (by decide) done
  exact absurd (fits _ List.mem_cons_self rfl) (by decide)

end OhMyOs.Kernel.MpTable
