/- GID: OhMyOs/Lib/Runs
   generality: G
   digest: Runs of a partial step function under a guard, and the invariant rule. -/

import Mathlib.Logic.Relation
import Mathlib.Tactic.SplitIfs

set_option autoImplicit false
set_option relaxedAutoImplicit false

namespace OhMyOs.Lib.Runs

variable {σ Op : Type}

def Move (step : σ → Op → Option σ) (guard : σ → Op → Prop) (s t : σ) : Prop :=
  ∃ op, guard s op ∧ step s op = some t

/-- Some finite sequence of guarded steps leads from `s` to `t`. -/
def Run (step : σ → Op → Option σ) (guard : σ → Op → Prop) : σ → σ → Prop :=
  Relation.ReflTransGen (Move step guard)

def Free (_ : σ) (_ : Op) : Prop := True

variable {step : σ → Op → Option σ} {guard : σ → Op → Prop}

theorem Run.invariant {inv : σ → Prop} {s t : σ} (run : Run step guard s t) (start : inv s)
    (keep : ∀ s op t, inv s → guard s op → step s op = some t → inv t) : inv t := by
  induction run with
  | refl => exact start
  | tail _ move ih =>
    obtain ⟨op, ok, eq⟩ := move
    exact keep _ op _ ih ok eq

/-- Execute a list of operations, stopping where the guard fails or no step exists. -/
def exec (step : σ → Op → Option σ) (ok : σ → Op → Bool) : σ → List Op → Option σ
  | s, [] => some s
  | s, op :: ops => if ok s op then (step s op).bind (fun t => exec step ok t ops) else none

theorem Run.of_exec {ok : σ → Op → Bool} {s t : σ} {ops : List Op}
    (done : exec step ok s ops = some t) : Run step (fun s op => ok s op = true) s t := by
  induction ops generalizing s with
  | nil =>
    obtain rfl := Option.some.inj done
    exact Relation.ReflTransGen.refl
  | cons op ops ih =>
    unfold exec at done
    split_ifs at done with hok
    obtain ⟨u, first, rest⟩ := Option.bind_eq_some_iff.mp done
    exact Relation.ReflTransGen.head ⟨op, hok, first⟩ (ih rest)

theorem Run.mono {weak : σ → Op → Prop} {s t : σ} (run : Run step guard s t)
    (weaker : ∀ s op, guard s op → weak s op) : Run step weak s t := by
  induction run with
  | refl => exact Relation.ReflTransGen.refl
  | tail _ move ih =>
    obtain ⟨op, ok, eq⟩ := move
    exact ih.tail ⟨op, weaker _ op ok, eq⟩

/-- The operations lead from `s` to `t`, and `p` holds in every state on the way. -/
def Along (step : σ → Op → Option σ) (p : σ → Prop) (s : σ) : List Op → σ → Prop
  | [], t => p s ∧ s = t
  | op :: ops, t => p s ∧ ∃ u, step s op = some u ∧ Along step p u ops t

theorem Along.append {p : σ → Prop} {s t u : σ} {ops ops' : List Op}
    (first : Along step p s ops t) (second : Along step p t ops' u) :
    Along step p s (ops ++ ops') u := by
  induction ops generalizing s with
  | nil =>
    obtain ⟨-, rfl⟩ := first
    exact second
  | cons op ops ih =>
    obtain ⟨here, mid, move, rest⟩ := first
    exact ⟨here, mid, move, ih rest⟩

theorem Along.exec {p : σ → Prop} {s t : σ} {ops : List Op} (along : Along step p s ops t) :
    exec step (fun _ _ => true) s ops = some t := by
  induction ops generalizing s with
  | nil =>
    obtain ⟨-, rfl⟩ := along
    rfl
  | cons op ops ih =>
    obtain ⟨-, mid, move, rest⟩ := along
    rw [Runs.exec, if_pos rfl, move, Option.bind_some, ih rest]

end OhMyOs.Lib.Runs
