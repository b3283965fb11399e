/- GID: OhMyOs/Kernel/CpuEntry
   generality: I
   digest: From kern_entry to the halt loop: the entry counter of entry.S and the bring-up chain. -/

import Mathlib.Algebra.Order.BigOperators.Group.Finset
import OhMyOs.Include.Constants
import OhMyOs.Kernel.CpuStart

set_option autoImplicit false
set_option relaxedAutoImplicit false

namespace OhMyOs.Kernel.CpuEntry

open OhMyOs.Include.Constants
open OhMyOs.Kernel.MpTable OhMyOs.Kernel.CpuStart OhMyOs.Lib.Outcome OhMyOs.Lib.Runs

/-! ### The code -/

inductive Stub
  /-- `movl (__entry_cnt), %ecx`; also where a CPU that is off will start -/
  | relocated
  /-- the stack is computed from ecx -/
  | loaded (ecx : Nat)
  /-- `incl (__entry_cnt)` -/
  | stacked
  /-- `cmp $1, (__entry_cnt)` and the jump -/
  | counted
  /-- `start_kernel` or `start_secondary` up to `schedule_init` -/
  | called
  | passed
  deriving DecidableEq

/-- The upper half of `__entry_cnt`, which is a `.word`, is the start of the null descriptor, so it
counts as a zero of 32 bits. `inits` records the calls of `schedule_init`, each of which sets its
place of `current_threads`. -/
structure BringUp where
  boot : Boot
  stub : Nat → Stub
  entryCnt : Nat
  esp : Nat → Option Nat
  inits : List Nat

def BringUp.goto (s : BringUp) (self : Nat) (stub : Stub) : BringUp :=
  { s with stub := Function.update s.stub self stub }

def stackOf (bootstack ecx : Nat) : Nat :=
  ((kernelStackSize * ecx % 2 ^ 32 + bootstack) % 2 ^ 32 + kernelStackSize) % 2 ^ 32

def BringUp.jump (s : BringUp) (self : Nat) (phase : Phase) : BringUp :=
  { s with boot := { s.boot with phase := Function.update s.boot.phase self phase } }.goto self
    .called

/-- The next step of a CPU; one that is off has none. `stale` is what `start_secondary` gets from
`cpu_id` for its first `current`: paging is off there, and the boot segments send the read of the
local APIC to some RAM. Without a thread in that place of `current_threads` the CPU goes astray. -/
def entryStep (mem : Memory) (stale bootstack : Nat) (s : BringUp) (self : Nat) :
    Option BringUp :=
  if s.boot.phase self = .off then none
  else match s.stub self with
  | .relocated => some (s.goto self (.loaded s.entryCnt))
  | .loaded ecx =>
    some ({ s with esp := Function.update s.esp self (some (stackOf bootstack ecx)) }.goto self
      .stacked)
  | .stacked => some ({ s with entryCnt := (s.entryCnt + 1) % 2 ^ 32 }.goto self .counted)
  | .counted => some (s.jump self (if s.entryCnt = 1 then .kernel else .secondary))
  | .called =>
    if s.boot.phase self = .secondary ∧ stale ∉ s.inits then none
    else some ({ s with inits := self :: s.inits }.goto self .passed)
  | .passed => (bootStep mem s.boot self).map fun boot => { s with boot := boot }

def powered (cpus : Nat → Cpu) : BringUp :=
  ⟨booted cpus 0, fun _ => .relocated, 0, fun _ => none, []⟩

/-! ### The chain -/

def Stub.rank : Stub → Nat
  | .relocated => 0
  | .loaded _ => 1
  | .stacked => 2
  | .counted => 3
  | .called => 4
  | .passed => 5

/-- `kernel` on the boot processor, `secondary` on the others. -/
def role (cpu : Nat) : Phase := if cpu = 0 then .kernel else .secondary

def Last (cpus : Nat → Cpu) (k : Nat) : Prop := ¬(k + 1 < maxCpu ∧ (cpus (k + 1)).init = true)

/-- CPU `k` was woken last. The CPUs before `m` wait for the next one, and those from `m` to `k`
are up; before that `m` is `k + 1`. -/
structure Chain (cpus : Nat → Cpu) (bootstack : Nat) (s : BringUp) (k m : Nat) : Prop where
  bound : k < maxCpu
  used : ∀ i, 1 ≤ i → i ≤ k → (cpus i).init = true
  ipis : s.boot.ipis = (List.range' 1 k).reverse
  slots : ∀ i, s.boot.cpus i = { cpus i with started := decide (m ≤ i ∧ i ≤ k) }
  off : ∀ i, k < i → s.boot.phase i = .off ∧ s.stub i = .relocated ∧ s.esp i = none
  waits : ∀ i, i < k → i < m → s.boot.phase i = .waiting (i + 1)
  ups : ∀ i, m ≤ i → i ≤ k → s.boot.phase i = .up
  passed : ∀ i, i < k → s.stub i = .passed
  front : m = k + 1 → s.boot.phase k = role k
  back : m ≤ k → Last cpus k ∧ s.stub k = .passed
  inside : m ≤ k + 1
  ecx : ∀ ecx, s.stub k = .loaded ecx → ecx = k
  count : s.entryCnt = if 3 ≤ (s.stub k).rank then k + 1 else k
  esp : ∀ i, i < k → s.esp i = some (bootstack + kernelStackSize * (i + 1))
  espLast : s.esp k =
    if 2 ≤ (s.stub k).rank then some (bootstack + kernelStackSize * (k + 1)) else none
  inits : s.inits = (List.range (if 5 ≤ (s.stub k).rank then k + 1 else k)).reverse

section Chain
variable {mem : Memory} {cpus : Nat → Cpu} {bootstack k m : Nat} {s t : BringUp} {self : Nat}

private theorem powered_chain (idle : ∀ i, (cpus i).started = false) :
    Chain cpus bootstack (powered cpus) 0 1 where
  bound := by decide
  used i low high := by omega
  ipis := rfl
  slots i := by
    have none : ¬(1 ≤ i ∧ i ≤ 0) := by omega
    simp only [powered, booted, none, decide_false, ← idle i]
  off i above := by
    refine ⟨?_, rfl, rfl⟩
    simp only [powered, booted, Function.update_of_ne (Nat.ne_of_gt above)]
  waits i below := by omega
  ups i low high := by omega
  passed i below := by omega
  front _ := by simp [powered, booted, role]
  back none := by omega
  inside := Nat.le_refl 1
  ecx ecx loaded := by cases loaded
  count := rfl
  esp i below := by omega
  espLast := rfl
  inits := rfl

private theorem Chain.advance {stub : Stub} (chain : Chain cpus bootstack s k (k + 1))
    (boot : t.boot = s.boot) (stubs : t.stub = Function.update s.stub k stub)
    (ecx : ∀ ecx, stub = .loaded ecx → ecx = k)
    (count : t.entryCnt = if 3 ≤ stub.rank then k + 1 else k)
    (others : ∀ i, i ≠ k → t.esp i = s.esp i)
    (esp : t.esp k =
      if 2 ≤ stub.rank then some (bootstack + kernelStackSize * (k + 1)) else none)
    (inits : t.inits = (List.range (if 5 ≤ stub.rank then k + 1 else k)).reverse) :
    Chain cpus bootstack t k (k + 1) := by
  have here : t.stub k = stub := by rw [stubs, Function.update_self]
  have there : ∀ i, i ≠ k → t.stub i = s.stub i := by
    intro i differ
    rw [stubs, Function.update_of_ne differ]
  exact {
    bound := chain.bound
    used := chain.used
    ipis := boot ▸ chain.ipis
    slots := boot ▸ chain.slots
    off := by
      intro i above
      obtain ⟨phase, relocated, none⟩ := chain.off i above
      have differ : i ≠ k := Nat.ne_of_gt above
      rw [boot, there i differ, others i differ]
      exact ⟨phase, relocated, none⟩
    waits := boot ▸ chain.waits
    ups := boot ▸ chain.ups
    passed := fun i below => (there i (Nat.ne_of_lt below)).trans (chain.passed i below)
    front := boot ▸ chain.front
    back := fun past => absurd past (Nat.not_succ_le_self k)
    inside := chain.inside
    ecx := here ▸ ecx
    count := here ▸ count
    esp := fun i below => (others i (Nat.ne_of_lt below)).trans (chain.esp i below)
    espLast := here ▸ esp
    inits := here ▸ inits }

private theorem Chain.mark (chain : Chain cpus bootstack s k (self + 1)) (bound : self ≤ k)
    (last : Last cpus k) (passed : s.stub k = .passed) :
    Chain cpus bootstack { s with boot := s.boot.markStarted self } k self where
  bound := chain.bound
  used := chain.used
  ipis := chain.ipis
  slots i := by
    by_cases here : i = self
    · subst here
      simp only [Boot.markStarted, Function.update_self, chain.slots, Nat.le_refl, bound, and_self,
        decide_true]
    · have same : (self + 1 ≤ i ∧ i ≤ k) = (self ≤ i ∧ i ≤ k) := by
        rw [eq_iff_iff]
        omega
      simp only [Boot.markStarted, Function.update_of_ne here, chain.slots, same]
  off i above := by
    have differ : i ≠ self := by omega
    simp only [Boot.markStarted, Function.update_of_ne differ]
    exact chain.off i above
  waits i below before := by
    simp only [Boot.markStarted, Function.update_of_ne (Nat.ne_of_lt before)]
    exact chain.waits i below (by omega)
  ups i low high := by
    by_cases here : i = self
    · simp only [Boot.markStarted, here, Function.update_self]
    · simp only [Boot.markStarted, Function.update_of_ne here]
      exact chain.ups i (by omega) high
  passed := chain.passed
  front past := by omega
  back _ := ⟨last, passed⟩
  inside := by omega
  ecx := chain.ecx
  count := chain.count
  esp := chain.esp
  espLast := chain.espLast
  inits := chain.inits

private theorem Chain.wake (chain : Chain cpus bootstack s k (k + 1)) (small : k + 1 < maxCpu)
    (init : (cpus (k + 1)).init = true) (passed : s.stub k = .passed) :
    Chain cpus bootstack { s with
      boot := { lapicStartap s.boot (k + 1) with
        phase := Function.update (lapicStartap s.boot (k + 1)).phase k (.waiting (k + 1)) } }
      (k + 1) (k + 2) := by
  obtain ⟨-, fresh, noStack⟩ := chain.off (k + 1) (Nat.lt_succ_self k)
  have count := chain.count
  have espLast := chain.espLast
  have inits := chain.inits
  rw [passed] at count espLast inits
  exact {
    bound := small
    used := by
      intro i low high
      by_cases here : i = k + 1
      · exact here ▸ init
      · exact chain.used i low (by omega)
    ipis := by
      have ipis := chain.ipis
      simp only [lapicStartap, ipis, List.range'_1_concat, List.reverse_append,
        List.reverse_singleton, List.singleton_append, Nat.add_comm 1 k]
    slots := by
      intro i
      have old : ¬(k + 1 ≤ i ∧ i ≤ k) := by omega
      have new : ¬(k + 2 ≤ i ∧ i ≤ k + 1) := by omega
      have slots := chain.slots i
      simp only [old, decide_false] at slots
      simp only [lapicStartap, slots, new, decide_false]
    off := by
      intro i above
      have last : i ≠ k := by omega
      have next : i ≠ k + 1 := by omega
      simp only [lapicStartap, Function.update_of_ne last, Function.update_of_ne next]
      exact chain.off i (by omega)
    waits := by
      intro i below _
      by_cases here : i = k
      · subst here
        simp only [lapicStartap, Function.update_self]
      · have next : i ≠ k + 1 := by omega
        simp only [lapicStartap, Function.update_of_ne here, Function.update_of_ne next]
        exact chain.waits i (by omega) (by omega)
    ups := by
      intro i low high
      omega
    passed := by
      intro i below
      by_cases here : i = k
      · exact here ▸ passed
      · exact chain.passed i (by omega)
    front := by
      intro _
      have next : k + 1 ≠ k := by omega
      simp only [lapicStartap, Function.update_of_ne next, Function.update_self, role]
      rw [if_neg (Nat.succ_ne_zero k)]
    back := by
      intro past
      omega
    inside := Nat.le_refl _
    ecx := by
      intro ecx loaded
      rw [fresh] at loaded
      cases loaded
    count := by
      simp only [fresh]
      exact count
    esp := by
      intro i below
      by_cases here : i = k
      · rw [here]
        exact espLast
      · exact chain.esp i (by omega)
    espLast := by
      simp only [fresh]
      exact noStack
    inits := by
      simp only [fresh]
      exact inits }

private theorem Chain.named (chain : Chain cpus bootstack s k m) (named : SlotsNamed mem cpus) :
    SlotsNamed mem s.boot.cpus := by
  intro i init
  rw [chain.slots i] at init ⊢
  exact named i init

private theorem cpuUp_named {boot : Boot} {next : Nat} (named : SlotsNamed mem boot.cpus)
    (small : next < maxCpu) (init : (boot.cpus next).init = true) :
    cpuUp mem boot next = .ok (.inl (lapicStartap boot next)) := by
  obtain ⟨id, processor, b, pointer, read, value⟩ := named next init
  simp only [cpuUp, Nat.not_le.mpr small, if_false, init, pointer, read, ok_bind, value,
    id, if_true, Bool.true_eq_false]

private theorem cpuUp_unused (mem : Memory) {boot : Boot} {next : Nat}
    (unused : ¬(next < maxCpu ∧ (boot.cpus next).init = true)) :
    ∃ err, cpuUp mem boot next = .ok (.inr err) := by
  unfold cpuUp
  by_cases large : next ≥ maxCpu
  · exact ⟨_, if_pos large⟩
  · have off : (boot.cpus next).init = false := by
      by_contra used
      exact unused ⟨by omega, by simpa using used⟩
    rw [if_neg large, if_pos off]
    exact ⟨_, rfl⟩

private theorem bringNext_eq {boot : Boot} {next : Nat} (named : SlotsNamed mem boot.cpus) :
    bringNext mem boot self next = some
      (if next < maxCpu ∧ (boot.cpus next).init = true then
        { lapicStartap boot next with
          phase := Function.update (lapicStartap boot next).phase self (.waiting next) }
      else boot.markStarted self) := by
  unfold bringNext
  split_ifs with used
  · rw [cpuUp_named named used.1 used.2]
  · obtain ⟨err, eq⟩ := cpuUp_unused mem used
    rw [eq]

private theorem bootStep_role {boot : Boot} (named : SlotsNamed mem boot.cpus)
    (phase : boot.phase self = role self) :
    bootStep mem boot self = bringNext mem boot self (self + 1) := by
  unfold bootStep
  rw [phase, role]
  by_cases zero : self = 0
  · rw [if_pos zero, zero]
  · rw [if_neg zero]
    by_cases used : self + 1 < maxCpu ∧ (boot.cpus (self + 1)).init = true
    · exact if_pos used
    · have next : bringNext mem boot self (self + 1) = _ := bringNext_eq named
      rw [if_neg used] at next
      exact (if_neg used).trans next.symm

private theorem stackOf_eq (space : bootstack + kernelStackSize * maxCpu < 2 ^ 32)
    (small : k < maxCpu) :
    stackOf bootstack k = bootstack + kernelStackSize * (k + 1) := by
  unfold stackOf
  simp only [kernelStackSize, maxCpu] at *
  omega

def phaseLeft : Phase → Nat
  | .off | .kernel | .secondary => 2
  | .waiting _ => 1
  | .up => 0

def stepsLeft (s : BringUp) (cpu : Nat) : Nat :=
  (5 - (s.stub cpu).rank) + phaseLeft (s.boot.phase cpu)

def left (s : BringUp) : Nat := ∑ cpu ∈ Finset.range maxCpu, stepsLeft s cpu

def Nearer (s t : BringUp) (self : Nat) : Prop :=
  stepsLeft t self < stepsLeft s self ∧ ∀ cpu, stepsLeft t cpu ≤ stepsLeft s cpu

private theorem Nearer.left_lt (nearer : Nearer s t self) (small : self < maxCpu) :
    left t < left s :=
  Finset.sum_lt_sum (fun cpu _ => nearer.2 cpu) ⟨self, Finset.mem_range.mpr small, nearer.1⟩

private theorem Nearer.of_others (mine : stepsLeft t self < stepsLeft s self)
    (others : ∀ cpu, cpu ≠ self → stepsLeft t cpu ≤ stepsLeft s cpu) : Nearer s t self := by
  refine ⟨mine, fun cpu => ?_⟩
  by_cases here : cpu = self
  · exact here ▸ Nat.le_of_lt mine
  · exact others cpu here

private theorem Nearer.stub {stub : Stub} (boot : t.boot = s.boot)
    (stubs : t.stub = Function.update s.stub self stub) (ahead : (s.stub self).rank < stub.rank)
    (most : stub.rank ≤ 5) : Nearer s t self := by
  refine .of_others ?_ fun cpu differ => ?_
  · simp only [stepsLeft, boot, stubs, Function.update_self]
    omega
  · simp only [stepsLeft, boot, stubs, Function.update_of_ne differ, Nat.le_refl]

private theorem Nearer.mark (ahead : 0 < phaseLeft (s.boot.phase self)) :
    Nearer s { s with boot := s.boot.markStarted self } self := by
  refine .of_others ?_ fun cpu differ => ?_
  · have done : phaseLeft .up = 0 := rfl
    simp only [stepsLeft, Boot.markStarted, Function.update_self]
    omega
  · simp only [stepsLeft, Boot.markStarted, Function.update_of_ne differ, Nat.le_refl]

private theorem Chain.mover (chain : Chain cpus bootstack s k m)
    (stepped : entryStep mem 0 bootstack s self = some t) :
    self + 1 = m ∧ s.boot.phase self ≠ .off ∧ self ≤ k := by
  have on : s.boot.phase self ≠ .off := by
    intro off
    simp only [entryStep, if_pos off] at stepped
    cases stepped
  have woken : self ≤ k := by
    by_contra above
    exact on (chain.off self (by omega)).1
  refine ⟨?_, on, woken⟩
  have inside := chain.inside
  by_contra elsewhere
  have passed : s.stub self = .passed := by
    by_cases last : self = k
    · rw [last]
      exact (chain.back (by omega)).2
    · exact chain.passed self (by omega)
  simp only [entryStep, if_neg on, passed, Option.map_eq_some_iff] at stepped
  obtain ⟨boot, moved, -⟩ := stepped
  by_cases up : m ≤ self
  · simp only [bootStep, chain.ups self up woken] at moved
    cases moved
  · -- it waits for a CPU that has not started
    have waits := chain.waits self (by omega) (by omega)
    have down : (s.boot.cpus (self + 1)).started = false := by
      rw [chain.slots (self + 1)]
      exact decide_eq_false (by omega)
    simp only [bootStep, waits, down] at moved
    cases moved

/-- The CPU can step, and gets the chain nearer to its end. -/
def Advances (mem : Memory) (cpus : Nat → Cpu) (bootstack : Nat) (s : BringUp) (self : Nat) :
    Prop :=
  ∃ t, entryStep mem 0 bootstack s self = some t ∧ (∃ k m, Chain cpus bootstack t k m) ∧
    (t.boot = s.boot ∨ bootStep mem s.boot self = some t.boot) ∧ Nearer s t self

private theorem role_on (cpu : Nat) : role cpu ≠ .off := by
  rw [role]
  split_ifs
  · exact Phase.noConfusion
  · exact Phase.noConfusion

private theorem phaseLeft_role (cpu : Nat) : phaseLeft (role cpu) = 2 := by
  rw [role]
  split_ifs
  · rfl
  · rfl

private theorem Chain.calledStep (chain : Chain cpus bootstack s k (k + 1))
    (here : s.stub k = .called) : Advances mem cpus bootstack s k := by
  have phase := chain.front rfl
  have count := chain.count
  have esp := chain.espLast
  have inits := chain.inits
  rw [here] at count esp inits
  have before : s.inits = (List.range k).reverse := inits
  -- the thread of the boot processor is there for all others
  have first : ¬(s.boot.phase k = .secondary ∧ 0 ∉ s.inits) := by
    rintro ⟨secondary, missing⟩
    have later : k ≠ 0 := by
      rintro rfl
      rw [phase] at secondary
      cases secondary
    rw [before, List.mem_reverse, List.mem_range] at missing
    omega
  have on : s.boot.phase k ≠ .off := phase ▸ role_on k
  simp only [Advances, entryStep, if_neg on, here, if_neg first]
  refine ⟨_, rfl, ⟨k, k + 1, chain.advance rfl rfl (by simp) count (fun _ _ => rfl) esp ?_⟩,
    .inl rfl, .stub rfl rfl (by simp [here, Stub.rank]) (by simp [Stub.rank])⟩
  change k :: s.inits = (List.range (k + 1)).reverse
  rw [before, List.range_succ, List.reverse_append]
  rfl

private theorem Chain.passedStep (chain : Chain cpus bootstack s k (k + 1))
    (named : SlotsNamed mem cpus) (here : s.stub k = .passed) :
    Advances mem cpus bootstack s k := by
  have phase := chain.front rfl
  have on : s.boot.phase k ≠ .off := phase ▸ role_on k
  have ahead : phaseLeft (s.boot.phase k) = 2 := phase ▸ phaseLeft_role k
  have step := bootStep_role (chain.named named) phase
  rw [bringNext_eq (chain.named named)] at step
  simp only [Advances, entryStep, if_neg on, here, step]
  refine ⟨_, rfl, ?_⟩
  have sameInit : (s.boot.cpus (k + 1)).init = (cpus (k + 1)).init := by rw [chain.slots]
  rw [sameInit]
  split_ifs with used
  · refine ⟨⟨_, _, chain.wake used.1 used.2 here⟩, .inr rfl, .of_others ?_ fun cpu differ => ?_⟩
    · have waits : phaseLeft (.waiting (k + 1)) = 1 := rfl
      simp only [stepsLeft, Function.update_self]
      omega
    · simp only [stepsLeft, lapicStartap, Function.update_of_ne differ]
      by_cases next : cpu = k + 1
      · rw [next, Function.update_self, (chain.off (k + 1) (Nat.lt_succ_self k)).1]
        exact Nat.le_refl _
      · rw [Function.update_of_ne next]
  · exact ⟨⟨_, _, chain.mark (Nat.le_refl k) used here⟩, .inr rfl, .mark (by omega)⟩

private theorem Chain.frontStep (chain : Chain cpus bootstack s k (k + 1))
    (named : SlotsNamed mem cpus)
    (space : bootstack + kernelStackSize * maxCpu < 2 ^ 32) :
    Advances mem cpus bootstack s k := by
  have phase := chain.front rfl
  have on : s.boot.phase k ≠ .off := phase ▸ role_on k
  have count := chain.count
  have esp := chain.espLast
  have inits := chain.inits
  cases here : s.stub k with
  | relocated =>
    rw [here] at count esp inits
    simp only [Advances, entryStep, if_neg on, here]
    refine ⟨_, rfl, ⟨k, k + 1, chain.advance rfl rfl ?_ count (fun _ _ => rfl) esp inits⟩, .inl rfl,
      .stub rfl rfl (by simp [here, Stub.rank]) (by simp [Stub.rank])⟩
    rintro ecx ⟨⟩
    exact count
  | loaded ecx =>
    obtain rfl := chain.ecx ecx here
    rw [here] at count esp inits
    simp only [Advances, entryStep, if_neg on, here]
    refine ⟨_, rfl, ⟨ecx, ecx + 1, chain.advance rfl rfl (by simp) count
      (fun i differ => Function.update_of_ne differ ..) ?_ inits⟩, .inl rfl,
      .stub rfl rfl (by simp [here, Stub.rank]) (by simp [Stub.rank])⟩
    rw [← stackOf_eq space chain.bound]
    exact Function.update_self ..
  | stacked =>
    rw [here] at count esp inits
    simp only [Advances, entryStep, if_neg on, here]
    refine ⟨_, rfl, ⟨k, k + 1, chain.advance rfl rfl (by simp) ?_ (fun _ _ => rfl) esp inits⟩,
      .inl rfl, .stub rfl rfl (by simp [here, Stub.rank]) (by simp [Stub.rank])⟩
    have value : s.entryCnt = k := count
    have small : k < 8 := chain.bound
    change (s.entryCnt + 1) % 2 ^ 32 = k + 1
    omega
  | counted =>
    rw [here] at count esp inits
    have value : s.entryCnt = k + 1 := count
    -- the counter tells the boot processor from the others
    have same : (s.jump k (if s.entryCnt = 1 then .kernel else .secondary)).boot = s.boot := by
      have branch : (if s.entryCnt = 1 then Phase.kernel else .secondary) = s.boot.phase k := by
        simp only [phase, role, value, Nat.add_eq_right]
      simp only [BringUp.jump, BringUp.goto, branch, Function.update_eq_self]
    simp only [Advances, entryStep, if_neg on, here]
    exact ⟨_, rfl, ⟨k, k + 1, chain.advance same rfl (by simp) count (fun _ _ => rfl) esp inits⟩,
      .inl same, .stub same rfl (by simp [here, Stub.rank]) (by simp [Stub.rank])⟩
  | called => exact chain.calledStep here
  | passed => exact chain.passedStep named here

private theorem Chain.backStep (chain : Chain cpus bootstack s k (self + 1)) (mem : Memory)
    (behind : self < k) :
    ∃ t, entryStep mem 0 bootstack s self = some t ∧ Chain cpus bootstack t k self ∧
      bootStep mem s.boot self = some t.boot ∧ Nearer s t self := by
  have waits := chain.waits self behind (Nat.lt_succ_self self)
  have started : (s.boot.cpus (self + 1)).started = true := by
    rw [chain.slots (self + 1)]
    exact decide_eq_true ⟨Nat.le_refl _, behind⟩
  obtain ⟨last, passed⟩ := chain.back behind
  have step : bootStep mem s.boot self = some (s.boot.markStarted self) := by
    simp only [bootStep, waits, started, if_true]
  refine ⟨{ s with boot := s.boot.markStarted self }, ?_,
    chain.mark (Nat.le_of_lt behind) last passed, step, .mark (by rw [waits]; exact Nat.one_pos)⟩
  simp only [entryStep, waits, chain.passed self behind, step, Option.map_some, if_false,
    reduceCtorEq]

private theorem Chain.step (chain : Chain cpus bootstack s k m) (named : SlotsNamed mem cpus)
    (space : bootstack + kernelStackSize * maxCpu < 2 ^ 32) (self : Nat) (next : m = self + 1) :
    Advances mem cpus bootstack s self := by
  subst next
  have inside := chain.inside
  by_cases last : self = k
  · subst last
    exact chain.frontStep named space
  · obtain ⟨t, stepped, after, whole, nearer⟩ := chain.backStep mem (by omega)
    exact ⟨t, stepped, ⟨k, self, after⟩, .inr whole, nearer⟩

def Followed (mem : Memory) (cpus : Nat → Cpu) (bootstack : Nat) (s : BringUp) : Prop :=
  Run (bootStep mem) Free (booted cpus 0) s.boot ∧ ∃ k m, Chain cpus bootstack s k m

private theorem entryStep_followed (named : SlotsNamed mem cpus)
    (space : bootstack + kernelStackSize * maxCpu < 2 ^ 32)
    (followed : Followed mem cpus bootstack s)
    (stepped : entryStep mem 0 bootstack s self = some t) : Followed mem cpus bootstack t := by
  obtain ⟨whole, k, m, chain⟩ := followed
  obtain ⟨next, -, -⟩ := chain.mover stepped
  obtain ⟨t', stepped', after, boot, -⟩ := chain.step named space self next.symm
  obtain rfl := Option.some.inj (stepped.symm.trans stepped')
  refine ⟨?_, after⟩
  rcases boot with same | moved
  · exact same ▸ whole
  · exact whole.tail ⟨self, trivial, moved⟩

end Chain

/-! ### Whole runs -/

private theorem fold_started {entries : List Entry} {scan : Scan} (i : Nat)
    (down : (scan.cpus i).started = false) :
    ((entries.foldl takeEntry scan).cpus i).started = false := by
  induction entries generalizing scan with
  | nil => exact down
  | cons e rest ih =>
    refine ih ?_
    unfold takeEntry
    cases e.type with
    | processor =>
      by_cases here : i = e.lapicId
      · simp [Scan.advance, Scan.setCpu, here]
      · simp [Scan.advance, Scan.setCpu, Function.update_of_ne here, down]
    | bus | ioapic | iointr | lintr => exact down

/-- The CPUs up to `k` were woken, each once and in order, each one entered the kernel alone and
got a stack of its own, and a CPU that has started has a run queue, as have all after it. -/
structure BroughtUp (entries : List Entry) (bootstack : Nat) (s : BringUp) (k : Nat) : Prop where
  bound : k < maxCpu
  listed : ∀ i, 1 ≤ i → i ≤ k → Listed entries i
  woken : s.boot.ipis = (List.range' 1 k).reverse
  alone : ∀ i, s.boot.phase i ≠ .off → s.stub i ≠ .passed → i = k
  tops : ∀ i top, s.esp i = some top → i ≤ k ∧ top = bootstack + kernelStackSize * (i + 1)
  inits : s.inits = (List.range k).reverse ∨ s.inits = (List.range (k + 1)).reverse
  started : ∀ i, (s.boot.cpus i).started = true →
    i ∈ s.inits ∧ ∀ j, i ≤ j → j ≤ k → (s.boot.cpus j).started = true

structure Finished (entries : List Entry) (s : BringUp) (k : Nat) : Prop where
  last : k + 1 < maxCpu → ¬Listed entries (k + 1)
  up : ∀ i, i ≤ k → s.boot.phase i = .up ∧ (s.boot.cpus i).started = true

private theorem Chain.broughtUp {entries : List Entry} {cpus : Nat → Cpu} {bootstack k m : Nat}
    {s : BringUp} (chain : Chain cpus bootstack s k m)
    (listed : ∀ i, (cpus i).init = true → Listed entries i) :
    BroughtUp entries bootstack s k where
  bound := chain.bound
  listed i low high := listed i (chain.used i low high)
  woken := chain.ipis
  alone i on inside := by
    by_contra differ
    rcases Nat.lt_or_gt_of_ne differ with before | after
    · exact inside (chain.passed i before)
    · exact on (chain.off i after).1
  tops i top here := by
    rcases Nat.lt_trichotomy i k with before | rfl | after
    · rw [chain.esp i before] at here
      exact ⟨Nat.le_of_lt before, (Option.some.inj here).symm⟩
    · rw [chain.espLast] at here
      split_ifs at here
      exact ⟨Nat.le_refl i, (Option.some.inj here).symm⟩
    · rw [(chain.off i after).2.2] at here
      cases here
  inits := by
    rw [chain.inits]
    split_ifs
    · exact .inr rfl
    · exact .inl rfl
  started i here := by
    rw [chain.slots i] at here
    obtain ⟨low, high⟩ := of_decide_eq_true here
    have inits := chain.inits
    rw [(chain.back (Nat.le_trans low high)).2] at inits
    have all : s.inits = (List.range (k + 1)).reverse := inits
    refine ⟨?_, fun j after most => ?_⟩
    · rw [all, List.mem_reverse, List.mem_range]
      omega
    · rw [chain.slots j]
      exact decide_eq_true ⟨Nat.le_trans low after, most⟩

private theorem Chain.finished {entries : List Entry} {cpus : Nat → Cpu} {bootstack k : Nat}
    {s : BringUp} (chain : Chain cpus bootstack s k 0)
    (used : ∀ i, Listed entries i → (cpus i).init = true) : Finished entries s k where
  last small listed := (chain.back (Nat.zero_le k)).1 ⟨small, used _ listed⟩
  up i most := by
    refine ⟨chain.ups i (Nat.zero_le i) most, ?_⟩
    rw [chain.slots i]
    exact decide_eq_true ⟨Nat.zero_le i, most⟩

/-- From a table that the scan gets through, every interleaving of the CPUs follows the chain, and
ends with all the CPUs up whose ids follow on each other from 0, if the secondary CPUs find the
thread of the boot processor as `current`. -/
theorem entry_run_brings_up (mem : Memory) (fuel start stack stale bootstack : Nat)
    (ioapicId : Byte) (entries : List Entry) (scan : Scan)
    (table : Holds mem start (tableBytes entries))
    (space : start + (tableBytes entries).length < 2 ^ 32)
    (done : scanMpEntry mem fuel start (start + (tableBytes entries).length) stack noCpus ioapicId =
      some (.ok (scan, 0)))
    (found : stale = 0) (room : bootstack + kernelStackSize * maxCpu < 2 ^ 32) (s : BringUp)
    (run : Run (entryStep mem stale bootstack) Free (powered scan.cpus) s) :
    Run (bootStep mem) Free (booted scan.cpus 0) s.boot ∧
      ∃ k, BroughtUp entries bootstack s k ∧
        (Finished entries s k ∨ ∃ self t, entryStep mem stale bootstack s self = some t ∧
          left t < left s ∧
          ∀ other, other ≠ self → entryStep mem stale bootstack s other = none) := by
  subst found
  obtain ⟨-, -, rfl⟩ :=
    scanLoop_needs (s := ⟨start, stack, noCpus, ioapicId, [], []⟩) table rfl space done
  have named := fold_named (s := ⟨start, stack, noCpus, ioapicId, [], []⟩) (noCpus_named mem)
    table space
  have init (i : Nat) :
      ((entries.foldl takeEntry ⟨start, stack, noCpus, ioapicId, [], []⟩).cpus i).init = true ↔
        Listed entries i := by
    rw [fold_init]
    exact or_iff_right Bool.false_ne_true
  have idle (i : Nat) :
      ((entries.foldl takeEntry ⟨start, stack, noCpus, ioapicId, [], []⟩).cpus i).started = false :=
    fold_started i rfl
  obtain ⟨whole, k, m, chain⟩ : Followed mem _ bootstack s :=
    run.invariant ⟨.refl, 0, 1, powered_chain idle⟩ fun _ _ _ followed _ stepped =>
      entryStep_followed named room followed stepped
  refine ⟨whole, k, chain.broughtUp fun i => (init i).mp, ?_⟩
  cases m with
  | zero => exact .inl (chain.finished fun i => (init i).mpr)
  | succ self =>
    obtain ⟨t, stepped, -, -, nearer⟩ := chain.step named room self rfl
    obtain ⟨-, -, most⟩ := chain.mover stepped
    refine .inr ⟨self, t, stepped, nearer.left_lt (Nat.lt_of_le_of_lt most chain.bound), ?_⟩
    intro other differ
    by_contra moves
    obtain ⟨u, moved⟩ := Option.ne_none_iff_exists'.mp moves
    obtain ⟨next, -, -⟩ := chain.mover moved
    exact differ (Nat.succ.inj next)

def gapTable : List Entry := [processorEntry 0 3, processorEntry 1 1, processorEntry 3 1]

def gapMemory : Memory := only 0x9FC2C (tableBytes gapTable)

def gapScan : Scan := gapTable.foldl takeEntry ⟨0x9FC2C, 0, noCpus, 0, [], []⟩

/-- Processor 1 is up and processor 3 is never woken. -/
theorem entry_run_brings_up_gap :
    ∃ s, exec (entryStep gapMemory 0 0xC0112000) (fun _ _ => true) (powered gapScan.cpus)
        (List.replicate 6 0 ++ List.replicate 6 1 ++ [0]) = some s ∧
      s.boot.ipis = [1] ∧ s.boot.phase 3 = .off ∧
      ∃ k, BroughtUp gapTable 0xC0112000 s k ∧ (Finished gapTable s k ∨
        ∃ self t, entryStep gapMemory 0 0xC0112000 s self = some t ∧ left t < left s ∧
          ∀ other, other ≠ self → entryStep gapMemory 0 0xC0112000 s other = none) := by
  have result : (exec (entryStep gapMemory 0 0xC0112000) (fun _ _ => true)
      (powered gapScan.cpus) (List.replicate 6 0 ++ List.replicate 6 1 ++ [0])).map
        (fun s => (s.boot.ipis, s.boot.phase 3)) = some ([1], .off) := by decide +kernel
  obtain ⟨s, eq, fields⟩ := Option.map_eq_some_iff.mp result
  simp only [Prod.mk.injEq] at fields
  obtain ⟨woken, off⟩ := fields
  have fits : AllFit gapTable := by
    unfold AllFit
    decide
  have done : scanMpEntry gapMemory 4 0x9FC2C (0x9FC2C + (tableBytes gapTable).length) 0 noCpus 0 =
      some (.ok (gapScan, 0)) :=
    scanLoop_takes 4 (by decide) (only_holds _ _) (by decide) fits
      ⟨.inl rfl, nofun, nofun, nofun, trivial⟩
  exact ⟨s, eq, woken, off, (entry_run_brings_up gapMemory 4 0x9FC2C 0 0 0xC0112000 0 gapTable
    gapScan (only_holds _ _) (by decide) done rfl (by decide) s
    ((Run.of_exec eq).mono fun _ _ _ => trivial)).2⟩

end OhMyOs.Kernel.CpuEntry
