/- GID: OhMyOs/Lib/LockOrder
   generality: G
   digest: Programs that take and release locks, and the rule that ranked locks never wait. -/

set_option autoImplicit false
set_option relaxedAutoImplicit false

namespace OhMyOs.Lib.LockOrder

variable {Lock : Type} [DecidableEq Lock]

/-- What a program does to locks. A fault ends it where it stands, and after an access through a
wild pointer nothing is known. -/
inductive Act (Lock : Type)
  | take (lock : Lock)
  | release (lock : Lock)
  | fault
  | wild

inductive Stop (Lock : Type)
  | waits (lock : Lock)
  | fault
  | wild

def exec (held : List Lock) : List (Act Lock) → Except (Stop Lock) (List Lock)
  | [] => .ok held
  | .take lock :: rest => if lock ∈ held then .error (.waits lock) else exec (lock :: held) rest
  | .release lock :: rest => exec (held.erase lock) rest
  | .fault :: _ => .error .fault
  | .wild :: _ => .error .wild

def locked (lock : Lock) (body : List (Act Lock)) : List (Act Lock) :=
  .take lock :: (body ++ [.release lock])

theorem exec_append (held : List Lock) (first second : List (Act Lock)) :
    exec held (first ++ second) = (exec held first >>= fun held => exec held second) := by
  induction first generalizing held with
  | nil => rfl
  | cons act rest ih =>
    cases act with
    | take lock =>
      simp only [List.cons_append, exec]
      split
      · rfl
      · exact ih _
    | release lock => exact ih _
    | fault => rfl
    | wild => rfl

/-! ### Ranked locks -/

section
variable (rank : Lock → Nat)

/-- Started with locks above a level only, the program returns with the same locks if it is fine,
and does not return otherwise. -/
def Verdict (level : Nat) (prog : List (Act Lock)) (fine : Bool) : Prop :=
  ∀ held, (∀ lock ∈ held, level < rank lock) →
    if fine then exec held prog = .ok held else ∃ stop, exec held prog = .error stop

end

variable {rank : Lock → Nat} {level : Nat}

theorem Verdict.nil : Verdict rank level [] true := fun _ _ => rfl

theorem Verdict.fault : Verdict rank level [.fault] false := fun _ _ => ⟨_, rfl⟩

theorem Verdict.wild : Verdict rank level [.wild] false := fun _ _ => ⟨_, rfl⟩

theorem Verdict.mono {low : Nat} {prog : List (Act Lock)} {fine : Bool}
    (verdict : Verdict rank low prog fine) (le : low ≤ level) : Verdict rank level prog fine :=
  fun held above => verdict held fun lock mem => Nat.lt_of_le_of_lt le (above lock mem)

theorem Verdict.stops {first : List (Act Lock)} (verdict : Verdict rank level first false)
    (second : List (Act Lock)) : Verdict rank level (first ++ second) false := by
  intro held above
  obtain ⟨stop, eq⟩ := verdict held above
  exact ⟨stop, by rw [exec_append, eq]; rfl⟩

theorem Verdict.seq {first second : List (Act Lock)} {fine fine' : Bool}
    (verdict : Verdict rank level first fine) (verdict' : Verdict rank level second fine') :
    Verdict rank level (first ++ second) (fine && fine') := by
  cases fine with
  | false => exact verdict.stops second
  | true =>
    intro held above
    rw [exec_append, show exec held first = .ok held from verdict held above]
    exact verdict' held above

private theorem Verdict.inside {lock : Lock} {low : Nat} {body : List (Act Lock)} {fine : Bool}
    (verdict : Verdict rank low body fine) (lower : low < rank lock) (le : rank lock ≤ level)
    {held : List Lock} (above : ∀ lock ∈ held, level < rank lock) :
    lock ∉ held ∧ if fine then exec (lock :: held) body = .ok (lock :: held)
      else ∃ stop, exec (lock :: held) body = .error stop := by
  constructor
  · intro mem
    have := above lock mem
    omega
  · apply verdict
    intro other mem
    rcases List.mem_cons.mp mem with rfl | mem
    · exact lower
    · have := above other mem
      omega

theorem Verdict.take {lock : Lock} {low : Nat} {body : List (Act Lock)}
    (verdict : Verdict rank low body false) (lower : low < rank lock) (le : rank lock ≤ level) :
    Verdict rank level (.take lock :: body) false := by
  intro held above
  obtain ⟨free, stops⟩ := verdict.inside lower le above
  rw [exec, if_neg free]
  exact stops

theorem Verdict.locked {lock : Lock} {low : Nat} {body : List (Act Lock)} {fine : Bool}
    (verdict : Verdict rank low body fine) (lower : low < rank lock) (le : rank lock ≤ level) :
    Verdict rank level (locked lock body) fine := by
  intro held above
  obtain ⟨free, inner⟩ := verdict.inside lower le above
  rw [LockOrder.locked, exec, if_neg free, exec_append]
  cases fine with
  | false =>
    obtain ⟨stop, eq⟩ := inner
    exact ⟨stop, by rw [eq]; rfl⟩
  | true =>
    rw [show exec (lock :: held) body = .ok (lock :: held) from inner]
    show exec ((lock :: held).erase lock) [] = .ok held
    rw [List.erase_cons_head]
    rfl

theorem Verdict.leaf {lock : Lock} (positive : 0 < rank lock) (le : rank lock ≤ level) :
    Verdict rank level (LockOrder.locked lock []) true :=
  Verdict.nil.locked positive le

theorem Verdict.ite (cond : Bool) {first second : List (Act Lock)} {fine fine' : Bool}
    (verdict : Verdict rank level first fine) (verdict' : Verdict rank level second fine') :
    Verdict rank level (if cond then first else second) (if cond then fine else fine') := by
  cases cond with
  | false => exact verdict'
  | true => exact verdict

theorem Verdict.flatMap {α : Type} {prog : α → List (Act Lock)} {fine : α → Bool}
    (each : ∀ a, Verdict rank level (prog a) (fine a)) (as : List α) :
    Verdict rank level (as.flatMap prog) (as.all fine) := by
  induction as with
  | nil => exact Verdict.nil
  | cons a as ih => exact (each a).seq ih

theorem Verdict.returns_iff {prog : List (Act Lock)} {fine : Bool}
    (verdict : Verdict rank level prog fine) : exec [] prog = .ok [] ↔ fine = true := by
  have outcome := verdict [] fun _ mem => absurd mem List.not_mem_nil
  cases fine with
  | true => exact ⟨fun _ => rfl, fun _ => outcome⟩
  | false =>
    obtain ⟨stop, eq⟩ := outcome
    rw [eq]
    exact ⟨nofun, nofun⟩

/-! ### The locks a program needs -/

/-- Whatever locks are held, the program waits for one of them if it needs one of them, and else
returns with the same locks. -/
structure Needs (prog : List (Act Lock)) (needs : List Lock) : Prop where
  free : ∀ held, (∀ lock ∈ needs, lock ∉ held) → exec held prog = .ok held
  waits : ∀ held, (∃ lock ∈ needs, lock ∈ held) →
    ∃ lock ∈ needs, lock ∈ held ∧ exec held prog = .error (.waits lock)

theorem Needs.nil : Needs ([] : List (Act Lock)) [] where
  free _ _ := rfl
  waits held := by
    intro ⟨lock, mem, _⟩
    exact absurd mem List.not_mem_nil

theorem Needs.locked {lock : Lock} {body : List (Act Lock)} {needs : List Lock}
    (inner : Needs body needs) (other : lock ∉ needs) :
    Needs (locked lock body) (lock :: needs) where
  free held clear := by
    have here : lock ∉ held := clear lock List.mem_cons_self
    have there : ∀ need ∈ needs, need ∉ lock :: held := by
      intro need mem held_mem
      rcases List.mem_cons.mp held_mem with rfl | held_mem
      · exact other mem
      · exact clear need (List.mem_cons_of_mem _ mem) held_mem
    rw [LockOrder.locked, exec, if_neg here, exec_append, inner.free _ there]
    show exec ((lock :: held).erase lock) [] = .ok held
    rw [List.erase_cons_head]
    rfl
  waits held := by
    intro ⟨need, mem, held_mem⟩
    by_cases here : lock ∈ held
    · exact ⟨lock, List.mem_cons_self, here, by rw [LockOrder.locked, exec, if_pos here]⟩
    · have deeper : need ∈ needs := by
        rcases List.mem_cons.mp mem with rfl | mem
        · exact absurd held_mem here
        · exact mem
      obtain ⟨found, found_mem, found_held, eq⟩ :=
        inner.waits (lock :: held) ⟨need, deeper, List.mem_cons_of_mem _ held_mem⟩
      have below : found ∈ held := by
        rcases List.mem_cons.mp found_held with rfl | below
        · exact absurd found_mem other
        · exact below
      refine ⟨found, List.mem_cons_of_mem _ found_mem, below, ?_⟩
      rw [LockOrder.locked, exec, if_neg here, exec_append, eq]
      rfl

theorem Needs.leaf (lock : Lock) : Needs (LockOrder.locked lock []) [lock] :=
  Needs.nil.locked List.not_mem_nil

theorem Needs.seq {first second : List (Act Lock)} {needs needs' : List Lock}
    (one : Needs first needs) (two : Needs second needs') :
    Needs (first ++ second) (needs ++ needs') where
  free held clear := by
    rw [exec_append, one.free held fun need mem => clear need (List.mem_append_left _ mem)]
    exact two.free held fun need mem => clear need (List.mem_append_right _ mem)
  waits held := by
    intro ⟨need, mem, held_mem⟩
    rw [exec_append]
    by_cases early : ∃ lock ∈ needs, lock ∈ held
    · obtain ⟨found, found_mem, found_held, eq⟩ := one.waits held early
      exact ⟨found, List.mem_append_left _ found_mem, found_held, by rw [eq]; rfl⟩
    · have clear : ∀ lock ∈ needs, lock ∉ held := fun lock mem held => early ⟨lock, mem, held⟩
      have later : need ∈ needs' := (List.mem_append.mp mem).resolve_left fun mem =>
        clear need mem held_mem
      obtain ⟨found, found_mem, found_held, eq⟩ := two.waits held ⟨need, later, held_mem⟩
      refine ⟨found, List.mem_append_right _ found_mem, found_held, ?_⟩
      rw [one.free held clear]
      exact eq

theorem Needs.ite (cond : Bool) {first second : List (Act Lock)} {needs needs' : List Lock}
    (one : cond = true → Needs first needs) (two : cond = false → Needs second needs') :
    Needs (if cond then first else second) (if cond then needs else needs') := by
  cases cond with
  | false => exact two rfl
  | true => exact one rfl

theorem Needs.flatMap {α : Type} {prog : α → List (Act Lock)} {needs : α → List Lock}
    {as : List α} (each : ∀ a ∈ as, Needs (prog a) (needs a)) :
    Needs (as.flatMap prog) (as.flatMap needs) := by
  induction as with
  | nil => exact Needs.nil
  | cons a as ih =>
    have rest := ih fun other mem => each other (List.mem_cons_of_mem _ mem)
    exact (each a List.mem_cons_self).seq rest

end OhMyOs.Lib.LockOrder
