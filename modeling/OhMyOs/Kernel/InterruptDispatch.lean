/- GID: OhMyOs/Kernel/InterruptDispatch
   generality: I
   digest: irq_init of kernel/irq.c with the controllers that it programs, and the way of an
     interrupt from its source to the handler that request_irq registered. -/

import OhMyOs.Kernel.Descriptors
import OhMyOs.Kernel.TrapFrames
import OhMyOs.Lib.LastWriter

set_option autoImplicit false
set_option relaxedAutoImplicit false

namespace OhMyOs.Kernel.InterruptDispatch

open OhMyOs.Lib.Bitfields OhMyOs.Lib.LastWriter OhMyOs.Lib.Words
open OhMyOs.Libs.GrowableString OhMyOs.Schedule.ThreadStart OhMyOs.Kernel.TrapFrames
open OhMyOs.Kernel.Descriptors (setGate gateOffset gateSelector gateAttributes gdKtext dplKernel
  gateOffset_setGate gateSelector_setGate gateAttributes_setGate)

/-! ### The code -/

def irqNum : Nat := 256
def irqOffset : Nat := 32
def irqError : Nat := 19
def irqSpurious : Nat := 31
def irqTimer : Nat := irqOffset + 0
def irqKeybd : Nat := irqOffset + 1

def regVer : Nat := 0x01
def regTable : Nat := 0x10
def intDisabled : Nat := 0x00010000

/-- The registers of the I/O APIC behind its select register, which has eight bits. -/
structure IoApic where
  reg : Nat
  data : Nat → Nat

namespace IoApic

/-- The last entry of the redirection table. -/
def maxintr (a : IoApic) : Nat := (a.data regVer >>> 16) &&& 0xFF

/-- Only the registers of the table are there to be written. -/
def inTable (a : IoApic) (reg : Nat) : Bool :=
  regTable ≤ reg && reg < regTable + 2 * (a.maxintr + 1)

/-- `ioapic_write`. -/
def write (a : IoApic) (reg value : Nat) : IoApic :=
  let reg := reg % 2 ^ 8
  { reg := reg, data := if a.inTable reg then Function.update a.data reg value else a.data }

def entry (a : IoApic) (i low high : Nat) : IoApic :=
  (a.write (regTable + 2 * i) low).write (regTable + 2 * i + 1) high

/-- `ioapic_init`. -/
def init (a : IoApic) : IoApic :=
  (List.range (a.maxintr + 1)).foldl
    (fun a i => a.entry i (intDisabled ||| (irqOffset + i)) 0) a

/-- `ioapic_enable`. -/
def enable (a : IoApic) (irq cpu : Nat) : IoApic := a.entry irq (irqOffset + irq) (cpu <<< 24)

end IoApic

def svr : Nat := 0x00F0
def ver : Nat := 0x0030
def timerLvt : Nat := 0x0320
def pcint : Nat := 0x0340
def lint0 : Nat := 0x0350
def lint1 : Nat := 0x0360
def errorLvt : Nat := 0x0370
def enableBit : Nat := 0x00000100
def periodic : Nat := 0x00020000
def maskedBit : Nat := 0x00010000

/-- The writes of `lapic_init` to the local APIC, whose version register holds `version`. -/
def lapicWrites (version : Nat) : List (Nat × Nat) :=
  [(svr, enableBit ||| (irqOffset + irqSpurious)), (0x03E0, 0x0000000B),
    (timerLvt, periodic ||| irqTimer), (0x0380, 10000000), (lint0, maskedBit),
    (lint1, maskedBit)] ++
  (if ((version >>> 16) &&& 0xFF) ≥ 4 then [(pcint, maskedBit)] else []) ++
  [(errorLvt, irqOffset + irqError), (0x0280, 0), (0x0280, 0), (0x00B0, 0), (0x0310, 0),
    (0x0300, 0x00080000 ||| 0x00000500 ||| 0x00008000), (0x0080, 0)]

/-- Nothing is written if the pointer `lapic` is NULL. -/
def lapicInit (found : Bool) (regs : Nat → Nat) : Nat → Nat :=
  if found then (lapicWrites (regs ver)).foldl (fun regs w => Function.update regs w.1 w.2) regs
  else regs

/-- `H` is the type of the handlers. The word behind the array of handlers is among them. -/
structure Irq (H : Type) where
  /-- The masks of the two 8259 controllers. -/
  pic : Nat × Nat
  /-- `lapic` is not NULL. -/
  found : Bool
  lapic : Nat → Nat
  ioapic : IoApic
  /-- The descriptors of `idt_array`. -/
  idt : Nat → Nat
  handlers : Nat → Option H

section
variable {H : Type}

/-- `-EINVAL` for a number out of range, which 256 is not. -/
def requestIrq (s : Irq H) (irq : Nat) (fn : Option H) : Irq H × Int :=
  if irq > irqNum then (s, -22)
  else ({ s with handlers := Function.update s.handlers irq fn }, 0)

def idtInit (vectors : Nat → Nat) (i : Nat) : Nat :=
  if i < 65 then (setGate false gdKtext (vectors i) dplKernel).word
  else (setGate false gdKtext (vectors 65) dplKernel).word

/-- With `timer_init` and `keyboard_init` down to what they register; `pic_init(false)` masks both
controllers. -/
def irqInit (vectors : Nat → Nat) (timer keyboard : H) (s : Irq H) : Irq H :=
  let s := { s with pic := (0xFF, 0xFF) }
  let s := { s with lapic := lapicInit s.found s.lapic }
  let s := { s with ioapic := s.ioapic.init }
  let s := { s with idt := idtInit vectors }
  let s := (requestIrq s irqTimer (some timer)).1
  let s := (requestIrq s irqKeybd (some keyboard)).1
  { s with ioapic := s.ioapic.enable irqKeybd 0 }

/-- What `irq_handler` does: it calls the handler and acknowledges at the local APIC, if there is
one, or ends the thread after a message. -/
inductive Event (H : Type)
  | call (h : H)
  | eoi
  | outOfRange (irq : Nat)
  | unhandled (irq : Nat)

def Irq.handle (s : Irq H) (irq : Nat) : List (Event H) :=
  if irq > irqNum then [.outOfRange irq]
  else match s.handlers irq with
    | some h => .call h :: if s.found then [.eoi] else []
    | none => [.unhandled irq]

/-! ### The hardware -/

/-- Where interrupts come from. A line of the 8259 controllers comes with the vector that they would
put on the bus. -/
inductive Source
  | pic (line : Fin 16) (vector : Nat)
  | pin (p : Nat)
  | timer
  | error
  | spurious

/-- An entry of a vector table: the vector, unless it is masked. -/
def lvt (w : Nat) : Option Nat := if bits w 16 1 = 1 then none else some (bits w 0 8)

def Irq.vector (s : Irq H) : Source → Option Nat
  | .pic line v =>
    let mask := if line.val < 8 then bits s.pic.1 line 1 else bits s.pic.2 (line - 8) 1
    if mask = 1 ∨ bits (s.lapic lint0) 16 1 = 1 then none else some v
  | .pin p => if p ≤ s.ioapic.maxintr then lvt (s.ioapic.data (regTable + 2 * p)) else none
  | .timer => lvt (s.lapic timerLvt)
  | .error => lvt (s.lapic errorLvt)
  | .spurious =>
    if bits (s.lapic svr) 8 1 = 1 then some (bits (s.lapic svr) 0 8) else none

def stubAt (vectors : Nat → Nat) (addr : Nat) : Option Nat :=
  (List.range 66).find? fun i => vectors i = addr

def kernelGate (w : Nat) : Bool := gateAttributes w = 0x8E && gateSelector w = gdKtext

def Irq.enter (s : Irq H) (vectors : Nat → Nat) (m : Memory) (r : Regs) (v : Nat)
    (err back irqHandler : BitVec 32) : Option (Memory × Regs) :=
  if kernelGate (s.idt v) then
    (stubAt vectors (gateOffset (s.idt v))).map fun stub =>
      let (m, r) := takeInterrupt m r v err
      let (m, r) := vectorStub m r stub
      alltraps m r back irqHandler
  else none

end

/-! ### The I/O APIC -/

namespace IoApic
variable {a : IoApic} {i j low high reg value : Nat}

private theorem maxintr_write (a : IoApic) (reg value : Nat) :
    (a.write reg value).maxintr = a.maxintr := by
  have version : (a.write reg value).data regVer = a.data regVer := by
    unfold write
    by_cases here : a.inTable (reg % 2 ^ 8) = true
    · have above : regTable ≤ reg % 2 ^ 8 := by
        unfold inTable at here
        simp only [Bool.and_eq_true, decide_eq_true_eq] at here
        exact here.1
      simp only [if_pos here]
      apply Function.update_of_ne
      unfold regVer
      unfold regTable at above
      omega
    · simp only [if_neg here]
  unfold maxintr
  rw [version]

private theorem maxintr_entry (a : IoApic) (i low high : Nat) :
    (a.entry i low high).maxintr = a.maxintr := by
  rw [entry, maxintr_write, maxintr_write]

private theorem data_write (small : reg < 2 ^ 8) (k : Nat) : (a.write reg value).data k =
    if k = reg ∧ a.inTable reg = true then value else a.data k := by
  unfold write
  rw [Nat.mod_eq_of_lt small]
  by_cases here : a.inTable reg = true
  · simp only [here, if_true, and_true, Function.update_apply]
  · simp only [here, and_false, if_false, Bool.false_eq_true]

private theorem inTable_low (a : IoApic) (i : Nat) :
    a.inTable (regTable + 2 * i) = true ↔ i ≤ a.maxintr := by
  unfold inTable
  simp only [Bool.and_eq_true, decide_eq_true_eq]
  omega

private theorem low_entry (few : i < 120) (j : Nat) : (a.entry i low high).data (regTable + 2 * j) =
    if j = i ∧ i ≤ a.maxintr then low else a.data (regTable + 2 * j) := by
  have same : regTable + 2 * j = regTable + 2 * i ↔ j = i := by omega
  rw [entry, data_write (by unfold regTable; omega), if_neg (by omega),
    data_write (by unfold regTable; omega)]
  simp only [inTable_low, same]

private theorem init_loop (few : a.maxintr < 120) (n : Nat) (le : n ≤ a.maxintr + 1) :
    let b := (List.range n).foldl (fun a i => a.entry i (intDisabled ||| (irqOffset + i)) 0) a
    b.maxintr = a.maxintr ∧ ∀ j, b.data (regTable + 2 * j) =
      if j < n then intDisabled ||| (irqOffset + j) else a.data (regTable + 2 * j) := by
  induction n with
  | zero => exact ⟨rfl, fun j => rfl⟩
  | succ n ih =>
    obtain ⟨size, data⟩ := ih (by omega)
    rw [List.range_succ, List.foldl_append]
    refine ⟨(maxintr_entry ..).trans size, fun j => ?_⟩
    rw [List.foldl_cons, List.foldl_nil, low_entry (by omega), size, data]
    by_cases last : j = n
    · subst last
      rw [if_pos ⟨rfl, by omega⟩, if_pos (by omega)]
    · rw [if_neg (by omega)]
      by_cases before : j < n
      · rw [if_pos before, if_pos (by omega)]
      · rw [if_neg before, if_neg (by omega)]

private theorem maxintr_init (few : a.maxintr < 120) : a.init.maxintr = a.maxintr :=
  (init_loop few _ le_rfl).1

private theorem low_init (few : a.maxintr < 120) (j : Nat) : a.init.data (regTable + 2 * j) =
    if j ≤ a.maxintr then intDisabled ||| (irqOffset + j) else a.data (regTable + 2 * j) := by
  have data := (init_loop few _ le_rfl).2 j
  simp only [Nat.lt_add_one_iff] at data
  exact data

end IoApic

private theorem lvt_disabled {x : Nat} (small : x < 2 ^ 16) : lvt (intDisabled ||| x) = none := by
  have sum : intDisabled ||| x = 2 ^ 16 * 1 + x := (Nat.two_pow_add_eq_or_of_lt small 1).symm
  rw [lvt, sum, bits, if_pos (by omega)]

section
variable {H : Type} {vectors : Nat → Nat} {timer keyboard : H} {s : Irq H}

private theorem vector_pin (few : s.ioapic.maxintr < 120) (p : Nat) :
    (irqInit vectors timer keyboard s).vector (.pin p) =
      if p = irqKeybd ∧ p ≤ s.ioapic.maxintr then some 65 else none := by
  have apic : (irqInit vectors timer keyboard s).ioapic = s.ioapic.init.enable irqKeybd 0 := rfl
  have size : (s.ioapic.init.enable irqKeybd 0).maxintr = s.ioapic.maxintr :=
    (IoApic.maxintr_entry ..).trans (IoApic.maxintr_init few)
  have low : (s.ioapic.init.enable irqKeybd 0).data (regTable + 2 * p) =
      if p = irqKeybd ∧ irqKeybd ≤ s.ioapic.maxintr then irqOffset + irqKeybd
      else s.ioapic.init.data (regTable + 2 * p) := by
    rw [IoApic.enable, IoApic.low_entry (by decide), IoApic.maxintr_init few]
  have key : lvt (irqOffset + irqKeybd) = some 65 := by decide
  rw [Irq.vector, apic, size, low, IoApic.low_init few]
  by_cases there : p ≤ s.ioapic.maxintr
  · by_cases enabled : p = irqKeybd
    · subst enabled
      rw [if_pos there, if_pos ⟨rfl, there⟩, if_pos ⟨rfl, there⟩, key]
    · rw [if_pos there, if_neg (by omega), if_pos there, if_neg (by omega)]
      exact lvt_disabled (by unfold irqOffset; omega)
  · rw [if_neg there, if_neg (by omega)]

private theorem lapicInit_regs (regs : Nat → Nat) :
    lapicInit true regs svr = enableBit ||| (irqOffset + irqSpurious) ∧
      lapicInit true regs timerLvt = periodic ||| irqTimer ∧
      lapicInit true regs errorLvt = irqOffset + irqError := by
  unfold lapicInit lapicWrites
  rw [if_pos rfl]
  split
  · simp [Function.update, svr, timerLvt, lint0, lint1, errorLvt, pcint]
  · simp [Function.update, svr, timerLvt, lint0, lint1, errorLvt]

private theorem vector_pic (line : Fin 16) (v : Nat) :
    (irqInit vectors timer keyboard s).vector (.pic line v) = none := by
  have masks : ∀ line : Fin 16,
      (if line.val < 8 then bits 0xFF line 1 else bits 0xFF (line - 8) 1) = 1 := by decide
  have masked : (irqInit vectors timer keyboard s).pic = (0xFF, 0xFF) := rfl
  rw [Irq.vector, masked, if_pos (.inl (masks line))]

private theorem vector_local (vectors : Nat → Nat) (timer keyboard : H) (s : Irq H)
    (found : s.found = true) :
    (irqInit vectors timer keyboard s).vector .timer = some irqTimer ∧
    (irqInit vectors timer keyboard s).vector .error = some (irqOffset + irqError) ∧
    (irqInit vectors timer keyboard s).vector .spurious = some (irqOffset + irqSpurious) := by
  obtain ⟨spurious, timer', error⟩ := lapicInit_regs s.lapic
  have regs : (irqInit vectors timer keyboard s).lapic = lapicInit true s.lapic :=
    congrArg (lapicInit · s.lapic) found
  simp only [Irq.vector, regs, spurious, timer', error]
  decide

/-! ### The gates -/

structure Stubs (vectors : Nat → Nat) : Prop where
  word : ∀ i ≤ 65, vectors i < 2 ^ 32
  apart : ∀ i ≤ 65, ∀ j ≤ 65, vectors i = vectors j → i = j

private theorem Stubs.stubAt (stubs : Stubs vectors) {i : Nat} (le : i ≤ 65) :
    stubAt vectors (vectors i) = some i := by
  apply List.find?_eq_some_iff_append.mpr
  refine ⟨decide_eq_true rfl, List.range i, (List.range (65 - i)).map (i + 1 + ·), ?_, ?_⟩
  · have total : 66 = i + (1 + (65 - i)) := by omega
    rw [total, List.range_add, List.range_add]
    simp [Nat.add_assoc]
  · intro j member
    have below := List.mem_range.mp member
    simp only [Bool.not_eq_eq_eq_not, Bool.not_true, decide_eq_false_iff_not]
    intro same
    have := stubs.apart j (by omega) i le same
    omega

private theorem kernelGate_setGate (offset : Nat) :
    kernelGate (setGate false gdKtext offset dplKernel).word = true := by
  unfold kernelGate
  rw [gateAttributes_setGate, gateSelector_setGate (by decide)]
  decide

private theorem gate_idtInit (stubs : Stubs vectors) (v : Nat) :
    kernelGate (idtInit vectors v) = true ∧
      gateOffset (idtInit vectors v) = vectors (vectorOf v) := by
  unfold idtInit
  by_cases low : v < 65
  · have same : vectorOf v = v := Nat.min_eq_left (by omega)
    rw [if_pos low, same, gateOffset_setGate (stubs.word v (by omega))]
    exact ⟨kernelGate_setGate _, rfl⟩
  · have last : vectorOf v = 65 := Nat.min_eq_right (by omega)
    rw [if_neg low, last, gateOffset_setGate (stubs.word 65 le_rfl)]
    exact ⟨kernelGate_setGate _, rfl⟩

private theorem enter_eq (stubs : Stubs vectors) (idt : s.idt = idtInit vectors) (m : Memory)
    (r : Regs)
    (v : Nat) (err back irqHandler : BitVec 32) :
    s.enter vectors m r v err back irqHandler = some (interrupt m r v err back irqHandler) := by
  have le : vectorOf v ≤ 65 := Nat.min_le_right _ _
  obtain ⟨gate, offset⟩ := gate_idtInit stubs v
  rw [Irq.enter, idt, if_pos gate, offset, stubs.stubAt le]
  rfl

/-! ### The handlers -/

abbrev Request (H : Type) := Nat × Option H

def requests (s : Irq H) (calls : List (Request H)) : Irq H :=
  calls.foldl (fun s call => (requestIrq s call.1 call.2).1) s

private theorem requestIrq_handlers (irq k : Nat) (fn : Option H) (small : k ≤ irqNum) :
    (requestIrq s irq fn).1.handlers k = if irq = k then fn else s.handlers k := by
  unfold requestIrq
  by_cases out : irq > irqNum
  · rw [if_pos out, if_neg (by omega)]
  · rw [if_neg out]
    simp only [Function.update_apply, eq_comm]

private theorem requests_spec (calls : List (Request H)) (k : Nat) (small : k ≤ irqNum) :
    (requests s calls).handlers k =
        lastWins (fun call => call.1 = k) Prod.snd (s.handlers k) calls ∧
      (requests s calls).idt = s.idt ∧ (requests s calls).found = s.found ∧
      ∀ source, (requests s calls).vector source = s.vector source := by
  induction calls generalizing s with
  | nil => exact ⟨rfl, rfl, rfl, fun _ => rfl⟩
  | cons call calls ih =>
    obtain ⟨handlers, idt, found, sources⟩ := ih (s := (requestIrq s call.1 call.2).1)
    have kept : (requestIrq s call.1 call.2).1.idt = s.idt ∧
        (requestIrq s call.1 call.2).1.found = s.found ∧
        ∀ source, (requestIrq s call.1 call.2).1.vector source = s.vector source := by
      unfold requestIrq
      split
      · exact ⟨rfl, rfl, fun _ => rfl⟩
      · refine ⟨rfl, rfl, fun source => ?_⟩
        cases source <;> rfl
    refine ⟨?_, idt.trans kept.1, found.trans kept.2.1,
      fun source => (sources source).trans (kept.2.2 source)⟩
    rw [lastWins_cons]
    simp only [decide_eq_true_eq]
    rw [← requestIrq_handlers call.1 k call.2 small]
    exact handlers

private theorem interrupt_number {r : Regs} {v p : Nat} (m : Memory)
    (err back irqHandler : BitVec 32)
    (aligned : Aligned v) (esp : r.esp = p + 68) (high : p + 68 < 2 ^ 32) :
    ∃ m', interrupt m r v err back irqHandler = (m', handlerRegs r irqHandler) ∧
      Entered m r m' p ∧ (load 4 m' (p + 48)).toNat = min v 65 := by
  obtain ⟨m', eq, entered⟩ := interrupt_entered m err back irqHandler aligned esp high
  obtain ⟨code, words⟩ := interrupt_eq (m := m) aligned esp high
  have same : m' = storeWords m p (trapWords r p v code back) :=
    (Prod.mk.inj (eq.symm.trans words)).1
  have number : (trapWords r p v code back)[12]? = some (BitVec.ofNat 32 (vectorOf v)) := by
    simp only [trapWords, List.getElem?_cons_succ, List.getElem?_cons_zero]
  have word : load 4 (storeWords m p (trapWords r p v code back)) (p + 4 * 12) = _ :=
    load_storeWords_word number
  refine ⟨m', eq, entered, ?_⟩
  have small : vectorOf v ≤ 65 := Nat.min_le_right _ _
  rw [same, word, BitVec.toNat_ofNat, Nat.mod_eq_of_lt (by omega)]
  rfl

def registered (s : Irq H) (timer keyboard : H) (calls : List (Request H)) (k : Nat) : Option H :=
  lastWins (fun call => call.1 = k) Prod.snd (s.handlers k)
    ((irqTimer, some timer) :: (irqKeybd, some keyboard) :: calls)

/-- After `irq_init`, whatever the controllers held before, and any calls of `request_irq`, no line
of the 8259 controllers and no pin of the I/O APIC interrupts a processor but pin 33, which is not
that of the keyboard and comes as vector 65; where there is a local APIC, its timer comes as vector
32. Every vector with a stub that fits goes through its gate with a frame for `irq_handler` that has
the interrupted registers and the smaller of the vector and 65 as number, which is in the array, and
the last handler registered for that number runs and is acknowledged. -/
theorem interrupt_sources_dispatch (timer keyboard : H) (s : Irq H) (stubs : Stubs vectors)
    (few : s.ioapic.maxintr < 120) (calls : List (Request H)) :
    let now := requests (irqInit vectors timer keyboard s) calls
    (∀ line v, now.vector (.pic line v) = none) ∧
    (∀ p, now.vector (.pin p) =
      if p = irqKeybd ∧ p ≤ s.ioapic.maxintr then some 65 else none) ∧
    (s.found = true → now.vector .timer = some irqTimer ∧
      now.vector .error = some (irqOffset + irqError) ∧
      now.vector .spurious = some (irqOffset + irqSpurious)) ∧
    ∀ v, Aligned v → ∀ (m : Memory) (r : Regs) (p : Nat) (err back irqHandler : BitVec 32),
      r.esp = p + 68 → p + 68 < 2 ^ 32 →
      ∃ m', now.enter vectors m r v err back irqHandler = some (m', handlerRegs r irqHandler) ∧
        Entered m r m' p ∧ (load 4 m' (p + 48)).toNat = min v 65 ∧
        now.handle (load 4 m' (p + 48)).toNat =
          match registered s timer keyboard calls (min v 65) with
          | some h => .call h :: if s.found then [.eoi] else []
          | none => [.unhandled (min v 65)] := by
  have spec := fun k small => requests_spec (s := irqInit vectors timer keyboard s) calls k small
  obtain ⟨-, idt, found, sources⟩ := spec 0 (by decide)
  refine ⟨fun line v => (sources _).trans (vector_pic line v),
    fun p => (sources _).trans (vector_pin few p), fun apic => ?_, ?_⟩
  · obtain ⟨timer', error, spurious⟩ := vector_local vectors timer keyboard s apic
    exact ⟨(sources _).trans timer', (sources _).trans error, (sources _).trans spurious⟩
  intro v aligned m r p err back irqHandler esp high
  obtain ⟨m', entry, entered, number⟩ := interrupt_number m err back irqHandler aligned
    esp high
  have small : min v 65 ≤ irqNum := by
    unfold irqNum
    omega
  have handler : (requests (irqInit vectors timer keyboard s) calls).handlers (min v 65) =
      registered s timer keyboard calls (min v 65) := by
    rw [(spec _ small).1, registered, lastWins_cons, lastWins_cons]
    simp only [decide_eq_true_eq]
    rw [← requestIrq_handlers irqTimer _ _ small, ← requestIrq_handlers irqKeybd _ _ small]
    rfl
  refine ⟨m', (enter_eq stubs idt m r v err back irqHandler).trans (congrArg some entry), entered,
    number, ?_⟩
  rw [number, Irq.handle, if_neg (by omega), handler, found]
  rfl

end

def stubTable (i : Nat) : Nat := 0xC0100000 + 16 * i

private theorem stubTable_stubs : Stubs stubTable := by
  constructor
  · intro i le
    unfold stubTable
    omega
  · intro i _ j _ same
    unfold stubTable at same
    omega

def coldIrq : Irq Nat where
  pic := (0, 0)
  found := true
  lapic := fun _ => 0
  ioapic := ⟨0, fun reg => if reg = regVer then 0x00170011 else 0⟩
  idt := fun _ => 0
  handlers := fun _ => none

def stopped : Regs where
  eax := 0
  ebx := 0
  ecx := 0
  edx := 0
  esi := 0
  edi := 0
  ebp := 0
  esp := 0x1000 + 68
  eip := 0
  eflags := 0
  cs := 0
  ds := 0
  es := 0

/-- The pin of the keyboard stays masked, and vector 40 goes to the handler registered for it. -/
theorem interrupt_sources_dispatch_keyboard :
    (requests (irqInit stubTable 1 2 coldIrq) [(40, some 7)]).vector (.pin 1) = none ∧
      ∃ m', (requests (irqInit stubTable 1 2 coldIrq) [(40, some 7)]).enter stubTable
          (fun _ => 0) stopped 40 0 0 0 = some (m', handlerRegs stopped 0) ∧
        (requests (irqInit stubTable 1 2 coldIrq) [(40, some 7)]).handle
          (load 4 m' (0x1000 + 48)).toNat = [.call 7, .eoi] := by
  obtain ⟨-, pins, -, every⟩ := interrupt_sources_dispatch 1 2 coldIrq stubTable_stubs
    (by decide) [(40, some 7)]
  obtain ⟨m', entry, -, -, handled⟩ := every 40 (by decide) (fun _ => 0) stopped 0x1000 0 0 0 rfl
    (by decide)
  exact ⟨(pins 1).trans (by decide), m', entry, handled⟩

end OhMyOs.Kernel.InterruptDispatch
