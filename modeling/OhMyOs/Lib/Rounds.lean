/- GID: OhMyOs/Lib/Rounds
   generality: G
   digest: Loops as repeated rounds: a measure that falls ends them, and what a round keeps holds at
   the end. -/

set_option autoImplicit false
set_option relaxedAutoImplicit false

namespace OhMyOs.Lib.Rounds

variable {σ : Type} {round : σ → Option σ} {s : σ} {n : Nat}

/-- At most `n` rounds; `none` is the end of the loop. -/
def rounds (round : σ → Option σ) : Nat → σ → σ
  | 0, s => s
  | n + 1, s =>
    match round s with
    | none => s
    | some t => rounds round n t

private theorem rounds_of_none (ended : round s = none) : rounds round n s = s := by
  cases n with
  | zero => rfl
  | succ n => simp only [rounds, ended]

private theorem rounds_of_some {t : σ} (next : round s = some t) :
    rounds round (n + 1) s = rounds round n t := by
  simp only [rounds, next]

theorem eq_rounds (loop : Nat → σ → σ) (zero : ∀ s, loop 0 s = s)
    (stop : ∀ n s, round s = none → loop (n + 1) s = s)
    (next : ∀ n s t, round s = some t → loop (n + 1) s = loop n t) (n : Nat) (s : σ) :
    loop n s = rounds round n s := by
  induction n generalizing s with
  | zero => exact zero s
  | succ n ih =>
    cases result : round s with
    | none => rw [rounds_of_none result, stop n s result]
    | some t => rw [rounds_of_some result, next n s t result, ih]

theorem rounds_ends (measure : σ → Nat) (falls : ∀ s t, round s = some t → measure t < measure s)
    (enough : measure s ≤ n) : round (rounds round n s) = none := by
  induction n generalizing s with
  | zero =>
    cases next : round s with
    | none => exact next
    | some t =>
      have less := falls s t next
      omega
  | succ n ih =>
    cases next : round s with
    | none => rwa [rounds_of_none next]
    | some t =>
      have less := falls s t next
      rw [rounds_of_some next]
      exact ih (by omega)

theorem rounds_invariant (inv : σ → Prop) (keep : ∀ s t, inv s → round s = some t → inv t)
    (start : inv s) : inv (rounds round n s) := by
  induction n generalizing s with
  | zero => exact start
  | succ n ih =>
    cases next : round s with
    | none => rwa [rounds_of_none next]
    | some t =>
      rw [rounds_of_some next]
      exact ih (keep s t start next)

end OhMyOs.Lib.Rounds
