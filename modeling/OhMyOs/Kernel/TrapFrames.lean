/- GID: OhMyOs/Kernel/TrapFrames
   generality: I
   digest: The ways in and out of kernel/entry.S: what an interrupt saves its return restores, and
   what context_switch saves. -/

import OhMyOs.Schedule.ThreadStart

set_option autoImplicit false
set_option relaxedAutoImplicit false

namespace OhMyOs.Kernel.TrapFrames

open OhMyOs.Lib.Stores OhMyOs.Lib.Words OhMyOs.Libs.GrowableString
open OhMyOs.Schedule.ThreadStart OhMyOs.Schedule.ThreadCreation

/-! ### The code -/

/-- The vectors for which the CPU pushes an error code. -/
def hasErrorCode (v : Nat) : Bool := v = 8 || (10 ≤ v && v ≤ 14) || v = 17 || v = 21

/-- The CPU takes an interrupt in the kernel through an interrupt gate, which clears `FL_IF`. -/
def takeInterrupt (m : Memory) (r : Regs) (v : Nat) (err : BitVec 32) : Memory × Regs :=
  let (m, r) := pushl m r r.eflags
  let (m, r) := pushl m r (r.cs.setWidth 32)
  let (m, r) := pushl m r r.eip
  let (m, r) := if hasErrorCode v then pushl m r err else (m, r)
  (m, { r with cs := kernelCs, eflags := r.eflags &&& ~~~flIf })

/-- The gates from 65 on lead to `vector65`. -/
def vectorOf (v : Nat) : Nat := min v 65

/-- `vector0` to `vector65`; those from 8 to 14 do not push an error code. -/
def vectorStub (m : Memory) (r : Regs) (v : Nat) : Memory × Regs :=
  let (m, r) := if 8 ≤ v ∧ v ≤ 14 then (m, r) else pushl m r 0
  pushl m r (BitVec.ofNat 32 v)

def pushal (m : Memory) (r : Regs) : Memory × Regs :=
  let esp := BitVec.ofNat 32 r.esp
  let (m, r) := pushl m r r.eax
  let (m, r) := pushl m r r.ecx
  let (m, r) := pushl m r r.edx
  let (m, r) := pushl m r r.ebx
  let (m, r) := pushl m r esp
  let (m, r) := pushl m r r.ebp
  let (m, r) := pushl m r r.esi
  pushl m r r.edi

/-- `__alltraps` up to the first instruction of `irq_handler`; the call returns to `back`. -/
def alltraps (m : Memory) (r : Regs) (back irqHandler : BitVec 32) : Memory × Regs :=
  let (m, r) := pushl m r (r.ds.setWidth 32)
  let (m, r) := pushl m r (r.es.setWidth 32)
  let (m, r) := pushal m r
  let r := { r with eax := kernelDs.setWidth 32, ds := kernelDs, es := kernelDs }
  let (m, r) := pushl m r (BitVec.ofNat 32 r.esp)
  let (m, r) := pushl m r back
  (m, { r with eip := irqHandler })

def interrupt (m : Memory) (r : Regs) (v : Nat) (err back irqHandler : BitVec 32) : Memory × Regs :=
  let (m, r) := takeInterrupt m r v err
  let (m, r) := vectorStub m r (vectorOf v)
  alltraps m r back irqHandler

/-- The `ret` of `irq_handler`, `popl %esp` and `__trapret`. -/
def interruptReturn (m : Memory) (r : Regs) : Regs :=
  let r := addEsp { r with eip := load 4 m r.esp } 4
  trapret m { r with esp := (load 4 m r.esp).toNat }

/-- The stores of `context_switch`; `eip` is the word that is popped. -/
def saveContext (m : Memory) (r : Regs) (eax : Nat) (eip : BitVec 32) : Memory :=
  let m := store 4 m eax eip
  let m := store 4 m (eax + 4) (BitVec.ofNat 32 r.esp)
  let m := store 4 m (eax + 8) r.ebx
  let m := store 4 m (eax + 12) r.ecx
  let m := store 4 m (eax + 16) r.edx
  let m := store 4 m (eax + 20) r.esi
  let m := store 4 m (eax + 24) r.edi
  store 4 m (eax + 28) r.ebp

/-- `context_switch`; `esp` points to the return address, and the arguments are above it. -/
def fullSwitch (m : Memory) (r : Regs) : Memory × Regs :=
  let eax := (load 4 m (r.esp + 4)).toNat
  let eip := load 4 m r.esp
  let r := addEsp r 4
  let m := saveContext m r eax eip
  contextSwitch m r (load 4 m (r.esp + 4)).toNat

def callSwitch (m : Memory) (r : Regs) (fromCtx toCtx : Nat) (back : BitVec 32) : Memory × Regs :=
  let (m, r) := pushl m r (BitVec.ofNat 32 toCtx)
  let (m, r) := pushl m r (BitVec.ofNat 32 fromCtx)
  let (m, r) := pushl m r back
  fullSwitch m r

/-! ### Interrupts -/

/-- The trap frame at `tf` has the interrupted registers, whose stack ended above it. -/
structure Saved (m : Memory) (tf : Nat) (r : Regs) : Prop where
  edi : load 4 m tf = r.edi
  esi : load 4 m (tf + 4) = r.esi
  ebp : load 4 m (tf + 8) = r.ebp
  ebx : load 4 m (tf + 16) = r.ebx
  edx : load 4 m (tf + 20) = r.edx
  ecx : load 4 m (tf + 24) = r.ecx
  eax : load 4 m (tf + 28) = r.eax
  es : load 2 m (tf + 32) = r.es
  ds : load 2 m (tf + 36) = r.ds
  eip : load 4 m (tf + 48) = r.eip
  cs : load 2 m (tf + 52) = r.cs
  eflags : load 4 m (tf + 56) = r.eflags
  esp : r.esp = tf + 60

variable {m m' : Memory} {r r' : Regs} {v tf : Nat} {err back irqHandler : BitVec 32}

def down (esp : Nat) : Nat := (esp + 2 ^ 32 - 4) % 2 ^ 32

private theorem down_eq {p : Nat} (high : p + 4 < 2 ^ 32) : down (p + 4) = p := by
  unfold down
  omega

private theorem pushl_eq (m : Memory) (r : Regs) (w : BitVec 32) :
    pushl m r w = (store 4 m (down r.esp) w, { r with esp := down r.esp }) := by
  unfold pushl down
  exact rfl

/-- The CPU and the stub together push one word for the error code. -/
def Aligned (v : Nat) : Prop := hasErrorCode v = decide (8 ≤ v ∧ v ≤ 14)

instance (v : Nat) : Decidable (Aligned v) := inferInstanceAs (Decidable (_ = _))

private theorem vectorOf_low (v : Nat) : (8 ≤ vectorOf v ∧ vectorOf v ≤ 14) ↔ 8 ≤ v ∧ v ≤ 14 := by
  unfold vectorOf
  omega

section Entry
variable {p : Nat}

private theorem stub_eq (m : Memory) (err : BitVec 32) (aligned : Aligned v) (esp : r.esp = p + 20)
    (high : p + 20 < 2 ^ 32) :
    ∃ code, vectorStub (takeInterrupt m r v err).1 (takeInterrupt m r v err).2 (vectorOf v) =
      (storeWords m p [BitVec.ofNat 32 (vectorOf v), code, r.eip, r.cs.setWidth 32, r.eflags],
        { r with esp := p, cs := kernelCs, eflags := r.eflags &&& ~~~flIf }) := by
  by_cases low : 8 ≤ v ∧ v ≤ 14
  · refine ⟨err, ?_⟩
    have code : hasErrorCode v = true := aligned.trans (decide_eq_true low)
    simp only [takeInterrupt, code, if_true, vectorStub, if_pos ((vectorOf_low v).mpr low),
      pushl_eq, esp]
    simp (disch := omega) only [down_eq, storeWords, Nat.add_assoc, Nat.reduceAdd]
  · refine ⟨0, ?_⟩
    have code : hasErrorCode v = false := aligned.trans (decide_eq_false low)
    have high : ¬(8 ≤ vectorOf v ∧ vectorOf v ≤ 14) := fun h => low ((vectorOf_low v).mp h)
    simp only [takeInterrupt, code, Bool.false_eq_true, if_false, vectorStub, if_neg high,
      pushl_eq, esp]
    simp (disch := omega) only [down_eq, storeWords, Nat.add_assoc, Nat.reduceAdd]

private theorem alltraps_eq (esp : r.esp = p + 48) (high : p + 48 < 2 ^ 32) :
    alltraps m r back irqHandler =
      (storeWords m p [back, BitVec.ofNat 32 (p + 8), r.edi, r.esi, r.ebp, BitVec.ofNat 32 (p + 40),
          r.ebx, r.edx, r.ecx, r.eax, r.es.setWidth 32, r.ds.setWidth 32],
        { r with
          esp := p
          eax := kernelDs.setWidth 32
          ds := kernelDs
          es := kernelDs
          eip := irqHandler }) := by
  simp only [alltraps, pushal, pushl_eq, esp]
  simp (disch := omega) only [down_eq, storeWords, Nat.add_assoc, Nat.reduceAdd]

def handlerRegs (r : Regs) (irqHandler : BitVec 32) : Regs :=
  { r with
    esp := r.esp - 68
    cs := kernelCs
    eflags := r.eflags &&& ~~~flIf
    eax := kernelDs.setWidth 32
    ds := kernelDs
    es := kernelDs
    eip := irqHandler }

def trapWords (r : Regs) (p v : Nat) (code back : BitVec 32) : List (BitVec 32) :=
  [back, BitVec.ofNat 32 (p + 8), r.edi, r.esi, r.ebp, BitVec.ofNat 32 (p + 40), r.ebx, r.edx,
    r.ecx, r.eax, r.es.setWidth 32, r.ds.setWidth 32, BitVec.ofNat 32 (vectorOf v), code, r.eip,
    r.cs.setWidth 32, r.eflags]

theorem interrupt_eq (aligned : Aligned v) (esp : r.esp = p + 68) (high : p + 68 < 2 ^ 32) :
    ∃ code, interrupt m r v err back irqHandler =
      (storeWords m p (trapWords r p v code back), handlerRegs r irqHandler) := by
  obtain ⟨code, stub⟩ := stub_eq (p := p + 48) m err aligned esp high
  refine ⟨code, ?_⟩
  have words : trapWords r p v code back = [back, BitVec.ofNat 32 (p + 8), r.edi, r.esi, r.ebp,
      BitVec.ofNat 32 (p + 40), r.ebx, r.edx, r.ecx, r.eax, r.es.setWidth 32, r.ds.setWidth 32] ++
        [BitVec.ofNat 32 (vectorOf v), code, r.eip, r.cs.setWidth 32, r.eflags] := rfl
  simp only [interrupt, stub]
  rw [alltraps_eq (p := p) rfl (by omega), words, storeWords_append]
  simp only [List.length_cons, List.length_nil, Nat.zero_add, Nat.reduceAdd, Nat.reduceMul,
    handlerRegs, esp, Nat.add_sub_cancel]

/-- What the interrupted code has on its stack when the handler starts. -/
structure Entered (m : Memory) (r : Regs) (m' : Memory) (p : Nat) : Prop where
  saved : Saved m' (p + 8) r
  argument : load 4 m' (p + 4) = BitVec.ofNat 32 (p + 8)
  frame : ∀ a, a < p ∨ p + 68 ≤ a → m' a = m a

private theorem trapWords_saved {code : BitVec 32} (esp : r.esp = p + 68) :
    Saved (storeWords m p (trapWords r p v code back)) (p + 8) r := by
  have word : ∀ {i : Nat} {w : BitVec 32}, (trapWords r p v code back)[i]? = some w →
      load 4 (storeWords m p (trapWords r p v code back)) (p + 4 * i) = w := load_storeWords_word
  have half : ∀ {i : Nat} {w : BitVec 16},
      (trapWords r p v code back)[i]? = some (w.setWidth 32) →
      load 2 (storeWords m p (trapWords r p v code back)) (p + 4 * i) = w := by
    intro i w here
    rw [load_storeWords (by decide) here, BitVec.setWidth_setWidth_of_le _ (by decide),
      BitVec.setWidth_eq]
  exact
    { edi := word (i := 2) rfl
      esi := word (i := 3) rfl
      ebp := word (i := 4) rfl
      ebx := word (i := 6) rfl
      edx := word (i := 7) rfl
      ecx := word (i := 8) rfl
      eax := word (i := 9) rfl
      es := half (i := 10) rfl
      ds := half (i := 11) rfl
      eip := word (i := 14) rfl
      cs := half (i := 15) rfl
      eflags := word (i := 16) rfl
      esp := esp }

theorem interrupt_entered (m : Memory) (err back irqHandler : BitVec 32) (aligned : Aligned v)
    (esp : r.esp = p + 68) (high : p + 68 < 2 ^ 32) :
    ∃ m', interrupt m r v err back irqHandler = (m', handlerRegs r irqHandler) ∧
      Entered m r m' p := by
  obtain ⟨code, eq⟩ := interrupt_eq (m := m) aligned esp high
  refine ⟨_, eq, trapWords_saved esp, ?_, ?_⟩
  · have argument : (trapWords r p v code back)[1]? = some (BitVec.ofNat 32 (p + 8)) := by
      simp only [trapWords, List.getElem?_cons_succ, List.getElem?_cons_zero]
    have word : load 4 (storeWords m p (trapWords r p v code back)) (p + 4 * 1) = _ :=
      load_storeWords_word argument
    rwa [Nat.mul_one] at word
  · intro a out
    exact storeWords_outside _ out

end Entry

theorem Saved.interruptReturn (saved : Saved m tf r) (high : tf + 60 < 2 ^ 32) (low : 8 ≤ tf)
    (argument : load 4 m (tf - 4) = BitVec.ofNat 32 tf) (esp : r'.esp = tf - 8) :
    interruptReturn m r' = r := by
  have up : ∀ i, i ≤ 60 → (tf + i) % 2 ^ 32 = tf + i := by
    intro i small
    omega
  have next : (tf - 8 + 4) % 2 ^ 32 = tf - 4 := by omega
  have frame : (BitVec.ofNat 32 tf).toNat = tf := by
    rw [BitVec.toNat_ofNat, Nat.mod_eq_of_lt (by omega)]
  simp only [TrapFrames.interruptReturn, addEsp, esp, next, argument, frame, trapret, popal, iret]
  simp (disch := omega) only [up, Nat.add_assoc, Nat.reduceAdd, saved.edi, saved.esi, saved.ebp,
    saved.ebx, saved.edx, saved.ecx, saved.eax, saved.es, saved.ds, saved.eip, saved.cs,
    saved.eflags]
  rw [← saved.esp]

theorem Saved.same (saved : Saved m tf r) (same : ∀ a, tf ≤ a → a < tf + 60 → m' a = m a) :
    Saved m' tf r := by
  have word : ∀ {k i : Nat}, i + k ≤ 60 → load k m' (tf + i) = load k m (tf + i) :=
    fun inside => load_congr fun a low high => same a (by omega) (by omega)
  exact
    { edi := (word (i := 0) (by decide)).trans saved.edi
      esi := (word (by decide)).trans saved.esi
      ebp := (word (by decide)).trans saved.ebp
      ebx := (word (by decide)).trans saved.ebx
      edx := (word (by decide)).trans saved.edx
      ecx := (word (by decide)).trans saved.ecx
      eax := (word (by decide)).trans saved.eax
      es := (word (by decide)).trans saved.es
      ds := (word (by decide)).trans saved.ds
      eip := (word (by decide)).trans saved.eip
      cs := (word (by decide)).trans saved.cs
      eflags := (word (by decide)).trans saved.eflags
      esp := saved.esp }

/-! ### Switches -/

/-- The registers in a `struct thread_context`; the others are not saved. -/
structure Parked (m : Memory) (ctx : Nat) (r : Regs) : Prop where
  eip : load 4 m ctx = r.eip
  esp : load 4 m (ctx + 4) = BitVec.ofNat 32 r.esp
  ebx : load 4 m (ctx + 8) = r.ebx
  ecx : load 4 m (ctx + 12) = r.ecx
  edx : load 4 m (ctx + 16) = r.edx
  esi : load 4 m (ctx + 20) = r.esi
  edi : load 4 m (ctx + 24) = r.edi
  ebp : load 4 m (ctx + 28) = r.ebp

theorem Parked.same {ctx : Nat} (parked : Parked m ctx r)
    (same : ∀ a, ctx ≤ a → a < ctx + 32 → m' a = m a) : Parked m' ctx r := by
  have word : ∀ {i : Nat}, i + 4 ≤ 32 → load 4 m' (ctx + i) = load 4 m (ctx + i) :=
    fun inside => load_congr fun a low high => same a (by omega) (by omega)
  exact
    { eip := (word (i := 0) (by decide)).trans parked.eip
      esp := (word (by decide)).trans parked.esp
      ebx := (word (by decide)).trans parked.ebx
      ecx := (word (by decide)).trans parked.ecx
      edx := (word (by decide)).trans parked.edx
      esi := (word (by decide)).trans parked.esi
      edi := (word (by decide)).trans parked.edi
      ebp := (word (by decide)).trans parked.ebp }

/-- A thread that is switched away from: its arguments and return address were pushed, and the
return address popped. -/
def park (r : Regs) (back : BitVec 32) : Regs := { r with esp := r.esp - 8, eip := back }

/-- A thread that is switched to gets what was saved, and the rest from the CPU. -/
def resume (saved cpu : Regs) (ctx : Nat) : Regs :=
  { saved with
    eax := BitVec.ofNat 32 ctx
    eflags := cpu.eflags
    cs := cpu.cs
    ds := cpu.ds
    es := cpu.es }

section Switch
variable {p ctx ctx' esp' : Nat} {r₁ : Regs}

private theorem contextSwitch_eq (parked : Parked m ctx' r₁) (esp : r₁.esp = esp' + 4)
    (high : esp' + 4 < 2 ^ 32) :
    contextSwitch m r ctx' = (store 4 m esp' r₁.eip, resume r₁ r ctx') := by
  have value : (BitVec.ofNat 32 r₁.esp).toNat = esp' + 4 := by
    rw [BitVec.toNat_ofNat, esp, Nat.mod_eq_of_lt high]
  have up : (esp' + 4) % 2 ^ 32 = r₁.esp := by omega
  simp only [contextSwitch, pushl_eq, restore, parked.esp, value, down_eq high, load_store, addEsp,
    parked.eip, parked.ebx, parked.ecx, parked.edx, parked.esi, parked.edi, parked.ebp, up, resume]

/-- Where `context_switch` is called: the pushes are below `p + 12`, and they and the two contexts
are apart. -/
structure Callable (r : Regs) (p ctx ctx' : Nat) : Prop where
  esp : r.esp = p + 12
  high : p + 12 < 2 ^ 32
  below : ctx + 32 ≤ 2 ^ 32
  below' : ctx' + 32 ≤ 2 ^ 32
  saves : ctx + 32 ≤ p ∨ p + 12 ≤ ctx
  loads : ctx' + 32 ≤ p ∨ p + 12 ≤ ctx'
  apart : ctx + 32 ≤ ctx' ∨ ctx' + 32 ≤ ctx

private theorem saveContext_outside {eip : BitVec 32} {a : Nat} (out : a < ctx ∨ ctx + 32 ≤ a) :
    saveContext m r ctx eip a = m a := by
  simp only [saveContext, store]
  simp (disch := (rw [length_wordBytes]; omega)) only [write_outside]

private theorem saveContext_parked (m : Memory) (r : Regs) (ctx : Nat) (eip : BitVec 32) :
    Parked (saveContext m r ctx eip) ctx { r with eip := eip } := by
  constructor
  all_goals
    simp only [saveContext]
    simp (disch := omega) only [load_store, load_store_apart]

private theorem callSwitch_eq (m : Memory) (back : BitVec 32) (callable : Callable r p ctx ctx') :
    callSwitch m r ctx ctx' back = contextSwitch
      (saveContext (storeWords m p [back, BitVec.ofNat 32 ctx, BitVec.ofNat 32 ctx'])
        { r with esp := p + 4 } ctx back) { r with esp := p + 4 } ctx' := by
  obtain ⟨esp, high, below, below', saves, loads, apart⟩ := callable
  have word : ∀ {i : Nat} {w : BitVec 32},
      [back, BitVec.ofNat 32 ctx, BitVec.ofNat 32 ctx'][i]? = some w →
      load 4 (storeWords m p [back, BitVec.ofNat 32 ctx, BitVec.ofNat 32 ctx']) (p + 4 * i) = w :=
    load_storeWords_word
  -- the arguments are not where the context is saved
  have second : load 4 (saveContext (storeWords m p [back, BitVec.ofNat 32 ctx,
      BitVec.ofNat 32 ctx']) { r with esp := p + 4 } ctx back) (p + 4 + 4) =
        BitVec.ofNat 32 ctx' := by
    rw [load_congr fun a low high => saveContext_outside (by omega)]
    exact word (i := 2) rfl
  have value : (BitVec.ofNat 32 ctx).toNat = ctx := by
    rw [BitVec.toNat_ofNat, Nat.mod_eq_of_lt (by omega)]
  have value' : (BitVec.ofNat 32 ctx').toNat = ctx' := by
    rw [BitVec.toNat_ofNat, Nat.mod_eq_of_lt (by omega)]
  have up : (p + 4) % 2 ^ 32 = p + 4 := by omega
  simp only [callSwitch, pushl_eq, esp]
  simp (disch := omega) only [down_eq]
  have pushed : store 4 (store 4 (store 4 m (p + 8) (BitVec.ofNat 32 ctx')) (p + 4)
      (BitVec.ofNat 32 ctx)) p back =
        storeWords m p [back, BitVec.ofNat 32 ctx, BitVec.ofNat 32 ctx'] := rfl
  rw [pushed]
  have first : load 4 (storeWords m p [back, BitVec.ofNat 32 ctx, BitVec.ofNat 32 ctx']) p = back :=
    word (i := 0) rfl
  have argument : load 4 (storeWords m p [back, BitVec.ofNat 32 ctx, BitVec.ofNat 32 ctx'])
      (p + 4) = BitVec.ofNat 32 ctx := word (i := 1) rfl
  simp only [fullSwitch, first, argument, value, addEsp, up, second, value']

/-- What the call leaves: the context of the caller, if the thread it switches to has its stack
elsewhere, and all other memory. -/
structure Switched (m : Memory) (r : Regs) (m' : Memory) (p ctx esp' : Nat) (back : BitVec 32) :
    Prop where
  parked : (ctx + 32 ≤ esp' ∨ esp' + 4 ≤ ctx) → Parked m' ctx (park r back)
  frame : ∀ a, (a < p ∨ p + 12 ≤ a) → (a < ctx ∨ ctx + 32 ≤ a) → (a < esp' ∨ esp' + 4 ≤ a) →
    m' a = m a

theorem callSwitch_switched (m : Memory) (back : BitVec 32) (callable : Callable r p ctx ctx')
    (parked : Parked m ctx' r₁) (esp : r₁.esp = esp' + 4) (high : esp' + 4 < 2 ^ 32) :
    ∃ m', callSwitch m r ctx ctx' back = (m', resume r₁ r ctx') ∧
      Switched m r m' p ctx esp' back := by
  rw [callSwitch_eq m back callable]
  obtain ⟨espR, highP, -, -, saves, loads, apart⟩ := callable
  have outside : ∀ a, (a < p ∨ p + 12 ≤ a) → (a < ctx ∨ ctx + 32 ≤ a) →
      saveContext (storeWords m p [back, BitVec.ofNat 32 ctx, BitVec.ofNat 32 ctx'])
        { r with esp := p + 4 } ctx back a = m a := by
    intro a pushes context
    rw [saveContext_outside context]
    exact storeWords_outside _ pushes
  have still := parked.same fun a low high => outside a (by omega) (by omega)
  refine ⟨_, contextSwitch_eq still esp high, fun elsewhere => ?_, fun a pushes context slot => ?_⟩
  · have saved := saveContext_parked
      (storeWords m p [back, BitVec.ofNat 32 ctx, BitVec.ofNat 32 ctx'])
      { r with esp := p + 4 } ctx back
    have caller : park r back = { r with esp := p + 4, eip := back } := by
      rw [park, espR]
      rfl
    rw [caller]
    refine saved.same fun a low high => write_outside ?_
    rw [length_wordBytes]
    omega
  · rw [store, write_outside (by rw [length_wordBytes]; omega)]
    exact outside a pushes context

end Switch

end OhMyOs.Kernel.TrapFrames
