/- GID: OhMyOs/Lib/Outcome
   generality: G
   digest: Total-correctness postconditions for programs that may fault. -/

set_option autoImplicit false
set_option relaxedAutoImplicit false

namespace OhMyOs.Lib.Outcome

variable {ε α β : Type}

/-- The program returns, and what it returns satisfies the postcondition. -/
def Ensures (prog : Except ε α) (post : α → Prop) : Prop :=
  ∃ a, prog = .ok a ∧ post a

theorem ok_bind (a : α) (next : α → Except ε β) : ((Except.ok a : Except ε α) >>= next) = next a :=
  rfl

theorem pure_eq_ok (a : α) : (pure a : Except ε α) = .ok a := rfl

theorem bind_eq_ok {prog : Except ε α} {next : α → Except ε β} {b : β}
    (done : (prog >>= next) = .ok b) : ∃ a, prog = .ok a ∧ next a = .ok b := by
  cases prog with
  | error e => cases done
  | ok a => exact ⟨a, rfl, done⟩

theorem map_eq_ok {prog : Except ε α} {g : α → β} {b : β} (done : prog.map g = .ok b) :
    ∃ a, prog = .ok a ∧ g a = b := by
  cases prog with
  | error e => cases done
  | ok a => exact ⟨a, rfl, Except.ok.inj done⟩

theorem of_toOption {prog : Except ε α} {a : α} (done : prog.toOption = some a) : prog = .ok a := by
  cases prog with
  | error e => cases done
  | ok b => exact congrArg Except.ok (Option.some.inj done)

theorem mapError_ok {ε' : Type} (convert : ε → ε') (a : α) :
    (Except.ok a : Except ε α).mapError convert = .ok a :=
  rfl

theorem Ensures.ok {post : α → Prop} {a : α} (holds : post a) :
    Ensures (Except.ok a : Except ε α) post :=
  ⟨a, rfl, holds⟩

theorem Ensures.bind {prog : Except ε α} {next : α → Except ε β} {mid : α → Prop}
    {post : β → Prop} (first : Ensures prog mid) (rest : ∀ a, mid a → Ensures (next a) post) :
    Ensures (prog >>= next) post := by
  obtain ⟨a, rfl, holds⟩ := first
  exact rest a holds

theorem Ensures.mono {prog : Except ε α} {strong weak : α → Prop} (holds : Ensures prog strong)
    (imp : ∀ a, strong a → weak a) : Ensures prog weak := by
  obtain ⟨a, eq, post⟩ := holds
  exact ⟨a, eq, imp a post⟩

theorem Ensures.map {prog : Except ε α} {g : α → β} {mid : α → Prop} {post : β → Prop}
    (holds : Ensures prog mid) (imp : ∀ a, mid a → post (g a)) : Ensures (prog.map g) post := by
  obtain ⟨a, rfl, here⟩ := holds
  exact ⟨g a, rfl, imp a here⟩

end OhMyOs.Lib.Outcome
