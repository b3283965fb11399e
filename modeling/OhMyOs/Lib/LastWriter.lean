/- GID: OhMyOs/Lib/LastWriter
   generality: G
   digest: What a place holds after a list of writes: the last one that covers it decides. -/

import Mathlib.Data.List.Basic

set_option autoImplicit false
set_option relaxedAutoImplicit false

namespace OhMyOs.Lib.LastWriter

variable {α β : Type} {covers : α → Bool} {value : α → β} {initial : β} {w : α} {writes : List α}

def lastWins (covers : α → Bool) (value : α → β) (initial : β) (writes : List α) : β :=
  match writes.reverse.find? covers with
  | some w => value w
  | none => initial

@[simp] theorem lastWins_nil : lastWins covers value initial [] = initial := rfl

theorem lastWins_cons :
    lastWins covers value initial (w :: writes) =
      lastWins covers value (if covers w = true then value w else initial) writes := by
  unfold lastWins
  rw [List.reverse_cons, List.find?_append]
  cases writes.reverse.find? covers with
  | some last => rfl
  | none =>
    by_cases here : covers w = true
    · simp [List.find?, here]
    · simp [List.find?, here]

theorem lastWins_of_find {last : α} (found : writes.reverse.find? covers = some last) :
    lastWins covers value initial writes = value last := by
  rw [lastWins, found]

theorem exists_last (member : w ∈ writes) (here : covers w = true) :
    ∃ last, writes.reverse.find? covers = some last := by
  apply Option.isSome_iff_exists.mp
  rw [List.find?_isSome]
  exact ⟨w, List.mem_reverse.mpr member, here⟩

end OhMyOs.Lib.LastWriter
