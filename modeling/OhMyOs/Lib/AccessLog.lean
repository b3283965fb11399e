/- GID: OhMyOs/Lib/AccessLog
   generality: G
   digest: Logs of reads and frees of objects, and reads of what is freed before. -/

import Mathlib.Data.List.Basic

set_option autoImplicit false
set_option relaxedAutoImplicit false

namespace OhMyOs.Lib.AccessLog

inductive Event (α : Type)
  | read (x : α)
  | free (x : α)
  deriving DecidableEq

variable {α : Type} {log pre post : List (Event α)} {x : α}

def Event.freed? : Event α → Option α
  | .read _ => none
  | .free x => some x

def freed (log : List (Event α)) : List α := log.filterMap Event.freed?

@[simp] theorem freed_nil : freed ([] : List (Event α)) = [] := rfl

@[simp] theorem freed_read : freed (.read x :: log) = freed log := rfl

@[simp] theorem freed_free : freed (.free x :: log) = x :: freed log := rfl

@[simp] theorem freed_append : freed (pre ++ post) = freed pre ++ freed post :=
  List.filterMap_append

def Stale (log : List (Event α)) : Prop :=
  ∃ pre x post, log = pre ++ .read x :: post ∧ x ∈ freed pre

theorem stale_read_after (gone : x ∈ freed log) : Stale (log ++ .read x :: post) :=
  ⟨log, x, post, rfl, gone⟩

theorem Stale.append (stale : Stale log) (pre post : List (Event α)) :
    Stale (pre ++ log ++ post) := by
  obtain ⟨before, x, rest, rfl, gone⟩ := stale
  refine ⟨pre ++ before, x, rest ++ post, by simp, ?_⟩
  rw [freed_append]
  exact List.mem_append_right _ gone

theorem not_stale_of_free_last (log : List (Event α)) (none : freed log = []) :
    ¬ Stale (log ++ [.free x]) := by
  rintro ⟨before, y, rest, split, gone⟩
  obtain ⟨rest', rfl⟩ : ∃ rest', log = before ++ .read y :: rest' := by
    rcases List.eq_nil_or_concat rest with rfl | ⟨rest', last, rfl⟩
    · have ends := congrArg List.getLast? split
      simp at ends
    · refine ⟨rest', ?_⟩
      rw [List.concat_eq_append, ← List.cons_append, ← List.append_assoc] at split
      exact (List.append_inj' split rfl).1
  rw [freed_append, List.append_eq_nil_iff] at none
  rw [none.1] at gone
  cases gone

end OhMyOs.Lib.AccessLog
