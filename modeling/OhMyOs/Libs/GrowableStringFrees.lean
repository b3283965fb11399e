/- GID: OhMyOs/Libs/GrowableStringFrees
   generality: I
   digest: Runs over many strings: when kfree only gets memory from kmalloc, and a run where not. -/

import Mathlib.Data.List.Nodup
import OhMyOs.Libs.GrowableStringBounds

set_option autoImplicit false
set_option relaxedAutoImplicit false

namespace OhMyOs.Libs.GrowableString

open OhMyOs.Include.Constants
open OhMyOs.Lib.Outcome OhMyOs.Lib.Runs

variable {m m' : Mem} {s s' : KString} {str dst : Option Nat} {size i len : Nat} {c : Byte}

/-! ### What a call does to the heap -/

structure SameHeap (m m' : Mem) : Prop where
  heap : m'.heap = m.heap
  frees : m'.frees = m.frees

private theorem SameHeap.trans {m'' : Mem} (first : SameHeap m m') (second : SameHeap m' m'') :
    SameHeap m m'' :=
  ⟨second.heap.trans first.heap, second.frees.trans first.frees⟩

private theorem put_sameHeap (done : put m str size i c = .ok m') : SameHeap m m' := by
  cases str with
  | none => cases done
  | some p =>
    cases done
    exact ⟨rfl, rfl⟩

private theorem strncpy_sameHeap {src : Mem → Nat → Byte} {j : Nat}
    (done : strncpy dst size src len m i j = .ok m') : SameHeap m m' := by
  induction len generalizing m i j with
  | zero =>
    cases done
    exact ⟨rfl, rfl⟩
  | succ len ih =>
    obtain ⟨m1, first, rest⟩ := bind_eq_ok done
    exact (put_sameHeap first).trans (ih rest)

private theorem fitLoop_sameHeap (done : fitLoop dst size c len m i = .ok m') : SameHeap m m' := by
  induction len generalizing m i with
  | zero =>
    cases done
    exact ⟨rfl, rfl⟩
  | succ len ih =>
    obtain ⟨m1, first, rest⟩ := bind_eq_ok done
    exact (put_sameHeap first).trans (ih rest)

/-- A call keeps the buffer, or moves the string to a new one and frees the old one, which
happens only when more than the capacity is asked for. -/
inductive Effect (m m' : Mem) (s s' : KString) (size : Nat) (str : Option Nat) : Prop
  | stays (same : SameHeap m m') (buffer : s'.str = s.str)
  | fills {new : Nat} (grows : s.capacity < size) (allocated : str = some new)
      (empty : s.str = none)
      (same : SameHeap (kmalloc m new) m') (buffer : s'.str = some new)
  | moves {new old : Nat} (grows : s.capacity < size) (allocated : str = some new)
      (previous : s.str = some old) (same : SameHeap (kfree (kmalloc m new) old) m')
      (buffer : s'.str = some new)

private theorem Effect.andThen {m'' : Mem} {s'' : KString} (effect : Effect m m' s s' size str)
    (same : SameHeap m' m'') (buffer : s''.str = s'.str) : Effect m m'' s s'' size str := by
  cases effect with
  | stays first kept => exact .stays (first.trans same) (buffer.trans kept)
  | fills grows allocated empty first now =>
    exact .fills grows allocated empty (first.trans same) (buffer.trans now)
  | moves grows allocated previous first now =>
    exact .moves grows allocated previous (first.trans same) (buffer.trans now)

private theorem stringTryExpand_effect {ret : Int}
    (done : stringTryExpand m s size str = .ok (m', s', ret)) : Effect m m' s s' size str := by
  unfold stringTryExpand at done
  split_ifs at done with small
  · cases done
    exact .stays ⟨rfl, rfl⟩ rfl
  · have grows : s.capacity < size := by omega
    obtain ⟨u, -, done⟩ := bind_eq_ok done
    cases str with
    | none =>
      cases done
      exact .stays ⟨rfl, rfl⟩ rfl
    | some new =>
      obtain ⟨m1, move, done⟩ := bind_eq_ok done
      cases done
      unfold moveBuffer at move
      cases previous : s.str with
      | none =>
        rw [previous] at move
        cases move
        exact .fills grows rfl previous ⟨rfl, rfl⟩ rfl
      | some old =>
        rw [previous] at move
        obtain ⟨m2, copy, move⟩ := bind_eq_ok move
        obtain ⟨m3, mark, move⟩ := bind_eq_ok move
        cases move
        obtain ⟨heap, frees⟩ := (strncpy_sameHeap copy).trans (put_sameHeap mark)
        exact .moves grows rfl previous ⟨by simp [kfree, heap], by simp [kfree, heap, frees]⟩ rfl

/-- The size passed to `string_try_expand`, 0 if it is not called. -/
def request (s : KString) (op : StrOp) : Nat :=
  match appendArgs op, op with
  | some (text, length), _ => (s.length + appended text length) % 2 ^ 32
  | none, .appendChar _ _ => (s.length + 1) % 2 ^ 32
  | none, .fit _ n _ => n
  | none, _ => 0

private theorem ksappendStrn_effect {text : List Byte} {ret : Int}
    (done : ksappendStrn m s (some text) len str = .ok (m', s', ret)) :
    Effect m m' s s' ((s.length + appended text len) % 2 ^ 32) str := by
  unfold appended
  simp only [ksappendStrn] at done
  generalize (if strlen text < len then strlen text else len) = count at done ⊢
  obtain ⟨⟨m1, s1, ret1⟩, grow, done⟩ := bind_eq_ok done
  have effect := stringTryExpand_effect grow
  simp only at done
  split_ifs at done with failed
  · cases done
    exact effect
  · obtain ⟨m2, copy, done⟩ := bind_eq_ok done
    obtain ⟨m3, last, done⟩ := bind_eq_ok done
    cases done
    exact effect.andThen ((strncpy_sameHeap copy).trans (put_sameHeap last)) rfl

private theorem strCall_effect {op : StrOp} {r : StrRun} (done : strCall m s op = .ok r) :
    Effect m r.mem s r.s (request s op) (newBuffer op) := by
  unfold request
  cases args : appendArgs op with
  | some arg =>
    obtain ⟨text, length⟩ := arg
    rw [strCall_append args] at done
    obtain ⟨result, ran, rfl⟩ := map_eq_ok done
    exact ksappendStrn_effect ran
  | none =>
    cases op with
    | appendChar c str =>
      obtain ⟨result, ran, rfl⟩ := map_eq_ok done
      obtain ⟨⟨m1, s1, ret1⟩, grow, ran⟩ := bind_eq_ok ran
      have effect := stringTryExpand_effect grow
      simp only at ran
      split_ifs at ran with failed
      · cases ran
        exact effect
      · obtain ⟨m2, first, ran⟩ := bind_eq_ok ran
        obtain ⟨m3, last, ran⟩ := bind_eq_ok ran
        cases ran
        exact effect.andThen ((put_sameHeap first).trans (put_sameHeap last)) rfl
    | appendStrn text length str =>
      cases text with
      | some text => cases args
      | none =>
        cases done
        exact .stays ⟨rfl, rfl⟩ rfl
    | popChar =>
      obtain ⟨result, ran, rfl⟩ := map_eq_ok done
      unfold kspopChar at ran
      split_ifs at ran with empty
      · cases ran
        exact .stays ⟨rfl, rfl⟩ rfl
      · cases eq : s.str with
        | none =>
          rw [eq] at ran
          cases ran
        | some p =>
          rw [eq] at ran
          obtain ⟨m1, last, ran⟩ := bind_eq_ok ran
          cases ran
          exact .stays (put_sameHeap last) eq.symm
    | fit c n str =>
      obtain ⟨result, ran, rfl⟩ := map_eq_ok done
      obtain ⟨⟨m1, s1, ret1⟩, grow, ran⟩ := bind_eq_ok ran
      have effect := stringTryExpand_effect grow
      simp only at ran
      split_ifs at ran with failed
      · cases ran
        exact effect
      · obtain ⟨m2, fill, ran⟩ := bind_eq_ok ran
        obtain ⟨m3, last, ran⟩ := bind_eq_ok ran
        cases ran
        exact effect.andThen ((fitLoop_sameHeap fill).trans (put_sameHeap last)) rfl
    | appendStr | appendInt | appendHex => cases args

/-! ### Calls that fit -/

private theorem reverseLoop_length (fuel : Nat) (buf : List Byte) (i j : Nat) :
    (reverseLoop fuel buf i j).length = buf.length := by
  induction fuel generalizing buf i j with
  | zero => rfl
  | succ fuel ih =>
    rw [reverseLoop]
    split_ifs with apart
    · rw [ih, List.length_set, List.length_set]
    · rfl

private theorem digitLoop_length {base : Nat} (digit : Nat → Byte) (fuel : Nat) {val digits : Nat}
    (buf : List Byte) (small : val < base ^ digits) :
    (digitLoop base digit fuel val buf).length ≤ buf.length + digits := by
  induction fuel generalizing val digits buf with
  | zero => exact Nat.le_add_right _ _
  | succ fuel ih =>
    rw [digitLoop]
    split_ifs with positive
    · cases digits with
      | zero =>
        rw [Nat.pow_zero] at small
        omega
      | succ digits =>
        have rest := ih (buf ++ [digit (val % base)])
          (Nat.div_lt_of_lt_mul (by rwa [Nat.mul_comm, ← Nat.pow_succ]))
        rw [List.length_append, List.length_singleton] at rest
        omega
    · exact Nat.le_add_right _ _

theorem toStr_length (val : Int) (int : val ≤ 0x7fffffff) : (toStr val).length ≤ 11 := by
  unfold toStr
  split_ifs with zero negative
  · simp
  · have small : ((val * -1).bmod (2 ^ 32)).toNat < 10 ^ 10 := by
      have := Int.bmod_lt (x := val * -1) (m := 2 ^ 32) (by decide)
      omega
    have bound := digitLoop_length (fun d => BitVec.ofNat 8 (48 + d)) 32 [45] small
    rw [List.length_singleton] at bound
    simp only [reverseStr, reverseLoop_length]
    omega
  · have small : val.toNat < 10 ^ 10 := by omega
    have bound := digitLoop_length (fun d => BitVec.ofNat 8 (48 + d)) 32 [] small
    rw [List.length_nil] at bound
    simp only [reverseStr, reverseLoop_length]
    omega

private theorem strncpy_returns {p : Nat} (src : Mem → Nat → Byte) (size len : Nat) (m : Mem)
    (i j : Nat) :
    ∃ m', strncpy (some p) size src len m i j = .ok m' := by
  induction len generalizing m i j with
  | zero => exact ⟨m, rfl⟩
  | succ len ih => exact ih _ _ _

theorem ksappendStrn_fits {p : Nat} (buffer : s.str = some p) (text : List Byte) (len : Nat)
    (fits : s.length + len ≤ s.capacity) (word : s.capacity < 2 ^ 32) (str : Option Nat) :
    Ensures (ksappendStrn m s (some text) len str) fun (m', s', _) =>
      SameHeap m m' ∧ s'.str = some p := by
  simp only [ksappendStrn]
  have short : (if strlen text < len then strlen text else len) ≤ len := by
    split_ifs with less
    · omega
    · exact Nat.le_refl _
  generalize (if strlen text < len then strlen text else len) = count at short ⊢
  have room : (s.length + count) % 2 ^ 32 ≤ s.capacity := by
    rw [Nat.mod_eq_of_lt (by omega)]
    omega
  obtain ⟨m1, copy⟩ :=
    strncpy_returns (p := p) (fun _ j => text.getD j 0) s.capacity count m s.length 0
  rw [stringTryExpand, if_pos room]
  simp only [ok_bind, buffer, copy]
  exact .ok ⟨(strncpy_sameHeap copy).trans ⟨rfl, rfl⟩, rfl⟩

/-! ### Runs over many strings -/

/-- The memory, the strings by name, and which of them `ksalloc` made. The structs are not in the
memory: a store that leaves its buffer could hit one of them. -/
structure World where
  mem : Mem
  strings : Nat → Option KString
  owned : Nat → Bool

/-- A string is made, set up on a buffer of the caller, called, or cut to length 0 as
`print_debug` does; the pointers are what kmalloc returns. -/
inductive WorldOp
  | alloc (name : Nat) (s str : Option Nat)
  | init (name : Nat) (buf : Option Nat) (size : Nat)
  | call (name : Nat) (op : StrOp)
  | reset (name : Nat)

def World.set (w : World) (name : Nat) (m : Mem) (s : KString) (own : Bool) : World :=
  { mem := m
    strings := Function.update w.strings name (some s)
    owned := Function.update w.owned name own }

def worldStep (w : World) : WorldOp → Option World
  | .alloc name s str =>
    match ksalloc w.mem s str with
    | .ok (m, some new) => some (w.set name m new true)
    | .ok (m, none) => some { w with mem := m }
    | .error _ => none
  | .init name buf size => some (w.set name w.mem (ksinit buf size) false)
  | .call name op =>
    (w.strings name).bind fun s =>
      (strCall w.mem s op).toOption.map fun r => w.set name r.mem r.s (w.owned name)
  | .reset name =>
    (w.strings name).map fun s => w.set name w.mem { s with length := 0 } (w.owned name)

def kmallocFresh (w : World) : WorldOp → Bool
  | .alloc _ (some s) (some str) => s ∉ w.mem.heap && str ∉ w.mem.heap && s ≠ str
  | .alloc _ (some s) none => s ∉ w.mem.heap
  | .call _ op => ((newBuffer op).all fun new => new ∉ w.mem.heap)
  | _ => true

/-- No string set up by `ksinit` grows. -/
def keepsBorrowed (w : World) : WorldOp → Bool
  | .call name op =>
    match w.strings name with
    | some s => w.owned name || request s op ≤ s.capacity || newBuffer op = none
    | none => true
  | _ => true

/-- The call has room for the terminator before and after it. -/
def staysInside (w : World) : WorldOp → Bool
  | .call name op =>
    match w.strings name with
    | some s =>
      addressable s op && (target s op).all fun n => s.length < s.capacity && n ≠ s.capacity
    | none => true
  | .init _ _ size => size < 2 ^ 32
  | _ => true

def FreesOk (w : World) : Prop := ∀ f ∈ w.mem.frees, f.2 = true

structure Empty (w : World) : Prop where
  strings : ∀ name, w.strings name = none
  writes : w.mem.writes = []
  frees : w.mem.frees = []
  heap : w.mem.heap.Nodup

structure WorldInv (w : World) : Prop where
  frees : FreesOk w
  heap : w.mem.heap.Nodup
  block : ∀ name s, w.strings name = some s → w.owned name = true →
    ∃ p, s.str = some p ∧ p ∈ w.mem.heap
  apart : ∀ name name' s s', name ≠ name' → w.strings name = some s → w.strings name' = some s' →
    w.owned name = true → w.owned name' = true → s.str ≠ s'.str

variable {w t : World} {name : Nat}

private theorem Empty.inv (empty : Empty w) : WorldInv w := by
  refine ⟨?_, empty.heap, ?_, ?_⟩
  · intro f member
    rw [empty.frees] at member
    cases member
  · intro name s here
    rw [empty.strings] at here
    cases here
  · intro name name' s s' differ here
    rw [empty.strings] at here
    cases here

private theorem WorldInv.set {own : Bool} (inv : WorldInv w) (frees : ∀ f ∈ m'.frees, f.2 = true)
    (heap : m'.heap.Nodup) (mine : own = true → ∃ p, s'.str = some p ∧ p ∈ m'.heap)
    (others : ∀ other s p, other ≠ name → w.strings other = some s → w.owned other = true →
      s.str = some p → p ∈ m'.heap ∧ (own = true → s'.str ≠ some p)) :
    WorldInv (w.set name m' s' own) := by
  refine ⟨frees, heap, ?_, ?_⟩
  · intro other s here owner
    by_cases same : other = name
    · subst same
      simp only [World.set, Function.update_self, Option.some.injEq] at here owner
      obtain rfl := here
      exact mine owner
    · simp only [World.set, Function.update_of_ne same] at here owner
      obtain ⟨p, buffer, -⟩ := inv.block other s here owner
      exact ⟨p, buffer, (others other s p same here owner buffer).1⟩
  · intro left right s s' differ here there owner owner'
    by_cases atLeft : left = name
    · subst atLeft
      have atRight : right ≠ left := differ.symm
      simp only [World.set, Function.update_self, Option.some.injEq, Function.update_of_ne atRight]
        at here there owner owner'
      obtain rfl := here
      obtain ⟨p, buffer, -⟩ := inv.block right s' there owner'
      rw [buffer]
      exact (others right s' p atRight there owner' buffer).2 owner
    · by_cases atRight : right = name
      · subst atRight
        simp only [World.set, Function.update_self, Option.some.injEq, Function.update_of_ne atLeft]
          at here there owner owner'
        obtain rfl := there
        obtain ⟨p, buffer, -⟩ := inv.block left s here owner
        rw [buffer]
        exact ((others left s p atLeft here owner buffer).2 owner').symm
      · simp only [World.set, Function.update_of_ne atLeft, Function.update_of_ne atRight]
          at here there owner owner'
        exact inv.apart left right s s' differ here there owner owner'

private theorem WorldInv.stay (inv : WorldInv w) (here : w.strings name = some s)
    (same : SameHeap w.mem m') (buffer : s'.str = s.str) :
    WorldInv (w.set name m' s' (w.owned name)) := by
  obtain ⟨heap, frees⟩ := same
  refine inv.set ?_ ?_ ?_ ?_
  · rw [frees]
    exact inv.frees
  · rw [heap]
    exact inv.heap
  · intro owner
    rw [buffer, heap]
    exact inv.block name s here owner
  · intro other s2 p differ there owner found
    obtain ⟨q, found', member⟩ := inv.block other s2 there owner
    obtain rfl := Option.some.inj (found.symm.trans found')
    rw [heap, buffer]
    exact ⟨member,
      fun owner' => found ▸ (inv.apart other name s2 s differ there here owner owner').symm⟩

private theorem WorldInv.move {new old : Nat} (inv : WorldInv w) (here : w.strings name = some s)
    (owner : w.owned name = true) (previous : s.str = some old) (fresh : new ∉ w.mem.heap)
    (same : SameHeap (kfree (kmalloc w.mem new) old) m') (buffer : s'.str = some new) :
    WorldInv (w.set name m' s' (w.owned name)) := by
  obtain ⟨heap, frees⟩ := same
  obtain ⟨q, found, member⟩ := inv.block name s here owner
  obtain rfl := Option.some.inj (found.symm.trans previous)
  have nodup : (new :: w.mem.heap).Nodup := List.nodup_cons.mpr ⟨fresh, inv.heap⟩
  have differ : new ≠ q := fun eq => fresh (eq ▸ member)
  refine inv.set ?_ ?_ ?_ ?_
  · intro f mem
    rw [frees] at mem
    rcases List.mem_cons.mp mem with rfl | old
    · exact decide_eq_true (List.mem_cons_of_mem new member)
    · exact inv.frees f old
  · rw [heap]
    exact nodup.erase q
  · intro _
    refine ⟨new, buffer, ?_⟩
    rw [heap]
    exact nodup.mem_erase_iff.mpr ⟨differ, List.mem_cons_self⟩
  · intro other s2 p apart there owner' foundP
    obtain ⟨p', foundP', memberP⟩ := inv.block other s2 there owner'
    obtain rfl := Option.some.inj (foundP.symm.trans foundP')
    have unlike : p ≠ q := fun eq => by
      refine inv.apart other name s2 s apart there here owner' owner ?_
      rw [foundP, found, eq]
    rw [heap, buffer]
    refine ⟨nodup.mem_erase_iff.mpr ⟨unlike, List.mem_cons_of_mem new memberP⟩, fun _ eq => ?_⟩
    exact fresh (Option.some.inj eq ▸ memberP)

private theorem WorldInv.alloc {new str : Nat} (inv : WorldInv w) (fresh : new ∉ w.mem.heap)
    (freshStr : str ∉ w.mem.heap) (differ : new ≠ str)
    (same : SameHeap (kmalloc (kmalloc w.mem new) str) m') (buffer : s'.str = some str) :
    WorldInv (w.set name m' s' true) := by
  obtain ⟨heap, frees⟩ := same
  have heap' : m'.heap = str :: new :: w.mem.heap := heap
  have unused : str ∉ new :: w.mem.heap := by
    rintro (_ | ⟨_, member⟩)
    · exact differ rfl
    · exact freshStr member
  refine inv.set ?_ ?_ ?_ ?_
  · rw [frees]
    exact inv.frees
  · rw [heap']
    exact List.nodup_cons.mpr ⟨unused, List.nodup_cons.mpr ⟨fresh, inv.heap⟩⟩
  · intro _
    exact ⟨str, buffer, heap' ▸ List.mem_cons_self⟩
  · intro other s2 p apart there owner found
    obtain ⟨q, found', member⟩ := inv.block other s2 there owner
    obtain rfl := Option.some.inj (found.symm.trans found')
    rw [heap', buffer]
    refine ⟨List.mem_cons_of_mem _ (List.mem_cons_of_mem _ member), fun _ eq => ?_⟩
    exact freshStr (Option.some.inj eq ▸ member)

private theorem ksalloc_inv {new str : Option Nat} (inv : WorldInv w)
    (fresh : kmallocFresh w (.alloc name new str) = true)
    (stepped : worldStep w (.alloc name new str) = some t) : WorldInv t := by
  cases new with
  | none =>
    cases stepped
    exact inv
  | some new =>
    cases str with
    | none =>
      -- The struct is freed again when there is no buffer.
      cases stepped
      have heap : (kfree (kmalloc w.mem new) new).heap = w.mem.heap := by simp [kfree, kmalloc]
      refine ⟨?_, heap ▸ inv.heap, fun name s here owner => ?_, inv.apart⟩
      · intro f member
        rcases List.mem_cons.mp member with rfl | old
        · exact decide_eq_true List.mem_cons_self
        · exact inv.frees f old
      · obtain ⟨p, buffer, member⟩ := inv.block name s here owner
        exact ⟨p, buffer, heap ▸ member⟩
    | some str =>
      cases stepped
      simp only [kmallocFresh, ne_eq, decide_not, Bool.and_eq_true, Bool.not_eq_true',
        decide_eq_false_iff_not] at fresh
      exact inv.alloc fresh.1.1 fresh.1.2 fresh.2 ⟨rfl, rfl⟩ rfl

private theorem ksinit_inv {buf : Option Nat} (inv : WorldInv w) :
    WorldInv (w.set name w.mem (ksinit buf size) false) := by
  refine inv.set inv.frees inv.heap (fun own => by cases own) ?_
  intro other s p _ there owner found
  obtain ⟨q, found', member⟩ := inv.block other s there owner
  obtain rfl := Option.some.inj (found.symm.trans found')
  exact ⟨member, fun own => by cases own⟩

private theorem strCall_inv {op : StrOp} {r : StrRun} (inv : WorldInv w)
    (here : w.strings name = some s) (fresh : kmallocFresh w (.call name op) = true)
    (keeps : keepsBorrowed w (.call name op) = true) (done : strCall w.mem s op = .ok r) :
    WorldInv (w.set name r.mem r.s (w.owned name)) := by
  have owner : s.capacity < request s op → newBuffer op ≠ none → w.owned name = true := by
    intro grows allocated
    simp only [keepsBorrowed, here, allocated, Bool.or_eq_true,
      decide_eq_true_eq, or_false] at keeps
    rcases keeps with owner | small
    · exact owner
    · omega
  cases strCall_effect done with
  | stays same buffer => exact inv.stay here same buffer
  | fills grows allocated empty =>
    obtain ⟨p, buffer, -⟩ := inv.block name s here (owner grows (by simp [allocated]))
    rw [empty] at buffer
    cases buffer
  | moves grows allocated previous same buffer =>
    simp only [kmallocFresh, allocated, Option.all_some, decide_eq_true_eq] at fresh
    exact inv.move here (owner grows (by simp [allocated])) previous fresh same buffer

private theorem worldStep_inv {op : WorldOp} (inv : WorldInv w)
    (allowed : (kmallocFresh w op && keepsBorrowed w op) = true)
    (stepped : worldStep w op = some t) :
    WorldInv t := by
  obtain ⟨fresh, keeps⟩ := Bool.and_eq_true_iff.mp allowed
  cases op with
  | alloc name new str => exact ksalloc_inv inv fresh stepped
  | init name buf size =>
    cases stepped
    exact ksinit_inv inv
  | call name op =>
    obtain ⟨s, here, stepped⟩ := Option.bind_eq_some_iff.mp stepped
    obtain ⟨r, done, rfl⟩ := Option.map_eq_some_iff.mp stepped
    exact strCall_inv inv here fresh keeps (of_toOption done)
  | reset name =>
    obtain ⟨s, here, rfl⟩ := Option.map_eq_some_iff.mp stepped
    exact inv.stay here ⟨rfl, rfl⟩ rfl

/-! ### Stores stay inside -/

/-- No store left its buffer, so no struct was hit, and the capacities are sizes. -/
structure Contained (w : World) : Prop where
  bounds : InBounds w.mem
  word : ∀ name s, w.strings name = some s → s.capacity < 2 ^ 32

private theorem Empty.contained (empty : Empty w) : Contained w := by
  refine ⟨fun write member => ?_, fun name s here => ?_⟩
  · rw [empty.writes] at member
    cases member
  · rw [empty.strings] at here
    cases here

private theorem Contained.set {own : Bool} (inside : Contained w) (bounds : InBounds m')
    (word : s'.capacity < 2 ^ 32) : Contained (w.set name m' s' own) := by
  refine ⟨bounds, fun other s here => ?_⟩
  by_cases same : other = name
  · subst same
    simp only [World.set, Function.update_self, Option.some.injEq] at here
    exact here ▸ word
  · simp only [World.set, Function.update_of_ne same] at here
    exact inside.word other s here

private theorem strCall_contained {op : StrOp} {r : StrRun} (inside : Contained w)
    (here : w.strings name = some s) (stays : staysInside w (.call name op) = true)
    (done : strCall w.mem s op = .ok r) : Contained (w.set name r.mem r.s (w.owned name)) := by
  simp only [staysInside, here, Bool.and_eq_true] at stays
  obtain ⟨fits, asked⟩ := stays
  have word := inside.word name s here
  have room : ∀ n, target s op = some n → s.length < s.capacity ∧ n ≠ s.capacity := by
    intro n eq
    rw [eq] at asked
    simpa using asked
  rcases strCall_kept inside.bounds word fits room done with kept | ⟨-, mem, same⟩
  · exact inside.set kept.bounds kept.word
  · exact inside.set (mem ▸ inside.bounds) (same ▸ word)

private theorem worldStep_contained {op : WorldOp} (inside : Contained w)
    (stays : staysInside w op = true) (stepped : worldStep w op = some t) : Contained t := by
  cases op with
  | alloc name new str =>
    cases new with
    | none =>
      cases stepped
      exact inside
    | some new =>
      cases str with
      | none =>
        cases stepped
        exact ⟨inside.bounds, inside.word⟩
      | some str =>
        cases stepped
        have room : 0 < stringMinSize := by decide
        have word : stringMinSize < 2 ^ 32 := by decide
        have start : InBounds (kmalloc (kmalloc w.mem new) str) := inside.bounds
        have first : put (kmalloc (kmalloc w.mem new) str) (some str) stringMinSize 0 0 = .ok _ :=
          rfl
        exact inside.set (put_inBounds start room first) word
  | init name buf size =>
    cases stepped
    exact inside.set inside.bounds (of_decide_eq_true stays)
  | call name op =>
    obtain ⟨s, here, stepped⟩ := Option.bind_eq_some_iff.mp stepped
    obtain ⟨r, done, rfl⟩ := Option.map_eq_some_iff.mp stepped
    exact strCall_contained inside here stays (of_toOption done)
  | reset name =>
    obtain ⟨s, here, rfl⟩ := Option.map_eq_some_iff.mp stepped
    exact inside.set inside.bounds (inside.word name s here)

/-- The calls of a run: no string on a buffer of the caller grows, and each call has room for its
terminator. -/
def worldOk (w : World) (op : WorldOp) : Bool :=
  kmallocFresh w op && keepsBorrowed w op && staysInside w op

/-- In every run of such calls only live memory of kmalloc is freed, and no store leaves its
buffer. -/
theorem strings_run_frees_heap (w : World) (empty : Empty w) (t : World)
    (run : Run worldStep (fun w op => worldOk w op = true) w t) : FreesOk t ∧ InBounds t.mem := by
  have both : WorldInv t ∧ Contained t := by
    apply run.invariant ⟨empty.inv, empty.contained⟩
    rintro w op t ⟨inv, inside⟩ allowed stepped
    obtain ⟨calls, stays⟩ := Bool.and_eq_true_iff.mp allowed
    exact ⟨worldStep_inv inv calls stepped, worldStep_contained inside stays stepped⟩
  exact ⟨both.1.frees, both.2.bounds⟩

def noStrings : World := ⟨blank, fun _ => none, fun _ => false⟩

private theorem noStrings_empty : Empty noStrings := ⟨fun _ => rfl, rfl, rfl, List.nodup_nil⟩

def sampleWorldOps : List WorldOp :=
  [.alloc 0 (some 1) (some 2), .init 1 (some 100) 128, .call 0 (.fit 0x20 40 (some 3)),
    .call 1 (.appendStr (List.replicate 100 0x61) none), .reset 1, .call 0 .popChar,
    .alloc 2 (some 4) none]

/-- The old buffer and the struct of the failed `ksalloc` are freed, both from kmalloc. -/
theorem strings_run_frees_heap_sample :
    ∃ t, exec worldStep worldOk noStrings sampleWorldOps = some t ∧
      t.mem.frees = [(4, true), (2, true)] ∧ FreesOk t ∧ InBounds t.mem := by
  have result : (exec worldStep worldOk noStrings sampleWorldOps).map (fun t => t.mem.frees) =
      some [(4, true), (2, true)] := by decide +kernel
  obtain ⟨t, eq, frees⟩ := Option.map_eq_some_iff.mp result
  exact ⟨t, eq, frees, strings_run_frees_heap noStrings noStrings_empty t (Run.of_exec eq)⟩

/-- A log line of 129 characters passes the static buffer of the line to kfree. -/
theorem strings_run_frees_static :
    ¬ ∀ w, Empty w → ∀ t, Run worldStep (fun w op => kmallocFresh w op = true) w t → FreesOk t := by
  intro claim
  have result : (exec worldStep kmallocFresh noStrings
      [.init 0 (some 100) 128, .call 0 (.appendStr (List.replicate 129 0x61) (some 1))]).map
        (fun t => t.mem.frees) = some [(100, false)] := by decide +kernel
  obtain ⟨t, eq, frees⟩ := Option.map_eq_some_iff.mp result
  have freed := claim noStrings noStrings_empty t (Run.of_exec eq) (100, false)
    (frees ▸ List.mem_cons_self)
  cases freed

end OhMyOs.Libs.GrowableString
