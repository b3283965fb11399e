/- GID: OhMyOs/Kernel/CpuStart
   generality: I
   digest: The bring-up chain of kernel/smp.c over the slots that the table scan leaves. -/

import OhMyOs.Include.Constants
import OhMyOs.Kernel.MpTable
import OhMyOs.Lib.Runs

set_option autoImplicit false
set_option relaxedAutoImplicit false

namespace OhMyOs.Kernel.CpuStart

open OhMyOs.Include.Constants
open OhMyOs.Kernel.MpTable OhMyOs.Lib.Outcome OhMyOs.Lib.Runs

/-! ### The code -/

/-- Where a CPU is: in `start_kernel` or `start_secondary` before the call of `cpu_up`, in the loop
of `cpu_up` until another CPU has started, or behind it. -/
inductive Phase
  | off
  | kernel
  | secondary
  | waiting (cpu : Nat)
  | up
  deriving DecidableEq

/-- `ipis` records the ids that startup interrupts were sent to. -/
structure Boot where
  cpus : Nat → Cpu
  phase : Nat → Phase
  ipis : List Nat

def Boot.markStarted (s : Boot) (self : Nat) : Boot :=
  { s with
    cpus := Function.update s.cpus self { s.cpus self with started := true }
    phase := Function.update s.phase self .up }

def lapicStartap (s : Boot) (id : Nat) : Boot :=
  { s with phase := Function.update s.phase id .secondary, ipis := id :: s.ipis }

/-- `cpu_up` up to its loop, or what it returns before that. -/
def cpuUp (mem : Memory) (s : Boot) (cpu : Nat) : Except Fault (Boot ⊕ Int) :=
  if cpu ≥ maxCpu then .ok (.inr (-enodev))
  else if (s.cpus cpu).init = false then .ok (.inr (-einval))
  else
    match (s.cpus cpu).processor with
    | none => .error .nullPointer
    | some processor => do
      let lapicId := (← field mem processor 1).toNat
      if (s.cpus cpu).id = lapicId then .ok (.inl (lapicStartap s lapicId))
      else .error .assertion

/-- `cpu_up(next)` and what follows it once it has returned. -/
def bringNext (mem : Memory) (s : Boot) (self next : Nat) : Option Boot :=
  match cpuUp mem s next with
  | .ok (.inl s) => some { s with phase := Function.update s.phase self (.waiting next) }
  | .ok (.inr _) => some (s.markStarted self)
  | .error _ => none

def bootStep (mem : Memory) (s : Boot) (self : Nat) : Option Boot :=
  match s.phase self with
  | .kernel => bringNext mem s self 1
  | .secondary =>
    if self + 1 < maxCpu ∧ (s.cpus (self + 1)).init = true then bringNext mem s self (self + 1)
    else some (s.markStarted self)
  | .waiting cpu => if (s.cpus cpu).started then some (s.markStarted self) else none
  | .off | .up => none

def booted (cpus : Nat → Cpu) (bsp : Nat) : Boot :=
  ⟨cpus, Function.update (fun _ => .off) bsp .kernel, []⟩

/-! ### What the scan leaves -/

def Listed (entries : List Entry) (id : Nat) : Prop := ∃ e ∈ entries, e.isProcessor id = true

def Usable (entries : List Entry) (id : Nat) : Prop :=
  ∃ e ∈ entries, e.isProcessor id = true ∧ e.cpuEn = true

def SlotsNamed (mem : Memory) (cpus : Nat → Cpu) : Prop :=
  ∀ i, (cpus i).init = true → (cpus i).id = i ∧
    ∃ processor b, (cpus i).processor = some processor ∧ field mem processor 1 = .ok b ∧ b.toNat = i

section Scan
variable {mem : Memory} {s : Scan} {e : Entry} {entries : List Entry}

private theorem takeEntry_init (i : Nat) :
    ((takeEntry s e).cpus i).init = true ↔ (s.cpus i).init = true ∨ e.isProcessor i = true := by
  unfold takeEntry Entry.isProcessor
  cases e.type with
  | processor =>
    by_cases same : i = e.lapicId
    · subst same
      simp [Scan.advance, Scan.setCpu]
    · have other : e.lapicId ≠ i := fun eq => same eq.symm
      simp [Scan.advance, Scan.setCpu, Function.update_of_ne same, other]
  | bus | ioapic | iointr | lintr => simp [Scan.advance]

theorem fold_init (i : Nat) :
    ((entries.foldl takeEntry s).cpus i).init = true ↔
      (s.cpus i).init = true ∨ Listed entries i := by
  induction entries generalizing s with
  | nil => simp [Listed]
  | cons e rest ih => simp [ih, takeEntry_init, Listed, or_assoc]

private theorem takeEntry_named (named : SlotsNamed mem s.cpus) (table : Holds mem s.p e.bytes)
    (space : s.p + e.type.size < 2 ^ 32) : SlotsNamed mem (takeEntry s e).cpus := by
  unfold takeEntry
  cases e.type with
  | processor =>
    intro i init
    by_cases same : i = e.lapicId
    · subst same
      obtain ⟨-, id⟩ := field_entry table space
      simp only [Scan.advance, Scan.setCpu, Function.update_self]
      exact ⟨trivial, s.p, _, rfl, id, rfl⟩
    · simp only [Scan.advance, Scan.setCpu, Function.update_of_ne same] at init ⊢
      exact named i init
  | bus | ioapic | iointr | lintr => exact named

theorem fold_named (named : SlotsNamed mem s.cpus) (table : Holds mem s.p (tableBytes entries))
    (space : s.p + (tableBytes entries).length < 2 ^ 32) :
    SlotsNamed mem (entries.foldl takeEntry s).cpus := by
  induction entries generalizing s with
  | nil => exact named
  | cons e rest ih =>
    rw [tableBytes_cons] at table space
    rw [List.length_append, e.bytes_length] at space
    obtain ⟨here, there⟩ := table.append
    have p : (takeEntry s e).p = s.p + e.type.size := takeEntry_p (by omega)
    rw [e.bytes_length, ← p] at there
    exact ih (takeEntry_named named here (by omega)) there (by omega)

end Scan

/-! ### The chain -/

section Chain
variable {mem : Memory} {s t : Boot} {self next : Nat}

structure BootInv (mem : Memory) (cpus : Nat → Cpu) (s : Boot) : Prop where
  init : ∀ i, (s.cpus i).init = (cpus i).init
  named : SlotsNamed mem s.cpus
  woken : ∀ id ∈ s.ipis, (cpus id).init = true

variable {cpus : Nat → Cpu}

private theorem BootInv.markStarted (inv : BootInv mem cpus s) :
    BootInv mem cpus (s.markStarted self) := by
  have same : ∀ i, ((s.markStarted self).cpus i).init = (s.cpus i).init ∧
      ((s.markStarted self).cpus i).id = (s.cpus i).id ∧
      ((s.markStarted self).cpus i).processor = (s.cpus i).processor := by
    intro i
    unfold Boot.markStarted
    by_cases here : i = self
    · subst here
      simp
    · simp [Function.update_of_ne here]
  refine ⟨fun i => (same i).1.trans (inv.init i), fun i init => ?_, inv.woken⟩
  obtain ⟨sameInit, sameId, sameProcessor⟩ := same i
  rw [sameId, sameProcessor]
  exact inv.named i (sameInit ▸ init)

private theorem cpuUp_inl (named : SlotsNamed mem s.cpus) (done : cpuUp mem s next = .ok (.inl t)) :
    (s.cpus next).init = true ∧ t = lapicStartap s next := by
  unfold cpuUp at done
  split_ifs at done with large unused
  · cases done
  · cases done
  · have init : (s.cpus next).init = true := by simpa using unused
    obtain ⟨-, processor, b, pointer, id, rfl⟩ := named next init
    rw [pointer] at done
    simp only [id, ok_bind] at done
    split_ifs at done with same
    cases done
    exact ⟨init, rfl⟩

private theorem BootInv.bringNext (inv : BootInv mem cpus s)
    (step : bringNext mem s self next = some t) :
    BootInv mem cpus t := by
  unfold CpuStart.bringNext at step
  split at step
  · rename_i u done
    obtain ⟨init, rfl⟩ := cpuUp_inl inv.named done
    cases step
    refine ⟨inv.init, inv.named, fun id member => ?_⟩
    rcases List.mem_cons.mp member with rfl | before
    · exact inv.init id ▸ init
    · exact inv.woken id before
  · cases step
    exact inv.markStarted
  · cases step

private theorem bootStep_inv (inv : BootInv mem cpus s) (step : bootStep mem s self = some t) :
    BootInv mem cpus t := by
  unfold bootStep at step
  split at step
  · exact inv.bringNext step
  · split_ifs at step with used
    · exact inv.bringNext step
    · cases step
      exact inv.markStarted
  · split_ifs at step with started
    cases step
    exact inv.markStarted
  · cases step
  · cases step

private theorem boot_run_woken {bsp : Nat} (named : SlotsNamed mem cpus)
    (run : Run (bootStep mem) Free (booted cpus bsp) t) (id : Nat) (sent : id ∈ t.ipis) :
    (cpus id).init = true := by
  have start : BootInv mem cpus (booted cpus bsp) :=
    ⟨fun _ => rfl, named, fun id member => (nomatch member)⟩
  have inv : BootInv mem cpus t :=
    run.invariant start fun _ _ _ inv _ step => bootStep_inv inv step
  exact inv.woken id sent

end Chain

theorem noCpus_named (mem : Memory) : SlotsNamed mem noCpus := fun _ init => by cases init

/-- The scan returns 0, a slot is in use just when the table has a usable processor for it, and the
chain only ever wakes such processors. -/
def UpExact (mem : Memory) (start stack : Nat) (ioapicId : Byte) (entries : List Entry) : Prop :=
  ∃ fuel s,
    scanMpEntry mem fuel start (start + (tableBytes entries).length) stack noCpus ioapicId =
      some (.ok (s, 0)) ∧
    (∀ i, (s.cpus i).init = true ↔ Usable entries i) ∧
    ∀ bsp t, Run (bootStep mem) Free (booted s.cpus bsp) t → ∀ id ∈ t.ipis, Usable entries id

/-- Only usable processors are brought up if and only if every processor id of the table has an
entry with the enable flag set, and what the messages of the scan read is mapped. -/
theorem upExact_iff (mem : Memory) (start stack : Nat) (ioapicId : Byte) (entries : List Entry)
    (table : Holds mem start (tableBytes entries))
    (space : start + (tableBytes entries).length < 2 ^ 32) (fits : AllFit entries) :
    UpExact mem start stack ioapicId entries ↔
      (∀ id, Listed entries id → Usable entries id) ∧ Printable mem start stack entries := by
  have init (i : Nat) :
      ((entries.foldl takeEntry ⟨start, stack, noCpus, ioapicId, [], []⟩).cpus i).init = true ↔
        Listed entries i := by
    rw [fold_init]
    exact or_iff_right Bool.false_ne_true
  constructor
  · rintro ⟨fuel, s, done, exact_, -⟩
    obtain ⟨-, printable, rfl⟩ :=
      scanLoop_needs (s := ⟨start, stack, noCpus, ioapicId, [], []⟩) table rfl space done
    exact ⟨fun id listed => (exact_ id).mp ((init id).mpr listed), printable⟩
  · rintro ⟨usable, printable⟩
    refine ⟨entries.length + 1, _, scanLoop_takes _ (Nat.lt_succ_self _) table space fits printable,
      fun i => ?_, fun bsp t run id sent => ?_⟩
    · rw [init i]
      exact ⟨usable i, fun ⟨e, member, processor, _⟩ => ⟨e, member, processor⟩⟩
    · have named := fold_named (s := ⟨start, stack, noCpus, ioapicId, [], []⟩) (noCpus_named mem)
        table space
      exact usable id ((init id).mp (boot_run_woken named run id sent))

def usableTable : List Entry := [processorEntry 0 3, processorEntry 3 0, processorEntry 3 1]

theorem upExact_iff_sample :
    UpExact (only 0x9FC2C (tableBytes usableTable)) 0x9FC2C 0 0 usableTable := by
  refine (upExact_iff _ _ _ _ _ (only_holds _ _) (by decide) ?_).mpr
    ⟨?_, .inl rfl, nofun, nofun, nofun, trivial⟩
  · unfold AllFit
    decide
  · rintro id ⟨e, member, processor⟩
    rcases List.mem_cons.mp member with rfl | member
    · exact ⟨_, List.mem_cons_self, processor, rfl⟩
    · have last : processorEntry 3 1 ∈ usableTable := by simp [usableTable]
      rcases List.mem_cons.mp member with rfl | member
      · exact ⟨_, last, processor, rfl⟩
      · obtain rfl := List.mem_singleton.mp member
        exact ⟨_, last, processor, rfl⟩

/-- A processor whose enable flag is clear is put into its slot, and woken by the boot
processor. -/
theorem upExact_fails :
    ¬ ∀ mem start stack ioapicId entries, Holds mem start (tableBytes entries) →
      start + (tableBytes entries).length < 2 ^ 32 → AllFit entries →
      UpExact mem start stack ioapicId entries := by
  intro claim
  have fits : AllFit [processorEntry 1 0] := by
    unfold AllFit
    decide
  obtain ⟨fuel, s, done, -, chain⟩ := claim (only 0x9FC2C (tableBytes [processorEntry 1 0])) 0x9FC2C
    0 0 [processorEntry 1 0] (only_holds _ _) (by decide) fits
  obtain ⟨-, -, rfl⟩ := scanLoop_needs (s := ⟨0x9FC2C, 0, noCpus, 0, [], []⟩)
    (only_holds _ (tableBytes [processorEntry 1 0])) rfl (by decide) done
  have step : (bootStep (only 0x9FC2C (tableBytes [processorEntry 1 0]))
      (booted ([processorEntry 1 0].foldl takeEntry ⟨0x9FC2C, 0, noCpus, 0, [], []⟩).cpus 0) 0).map
        Boot.ipis = some [1] := by decide +kernel
  obtain ⟨t, eq, sent⟩ := Option.map_eq_some_iff.mp step
  obtain ⟨e, member, -, enabled⟩ :=
    chain 0 t (.single ⟨0, trivial, eq⟩) 1 (sent ▸ List.mem_cons_self)
  obtain rfl := List.mem_singleton.mp member
  cases enabled

end OhMyOs.Kernel.CpuStart
