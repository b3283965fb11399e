/- GID: OhMyOs/Lib/Ownership
   generality: G
   digest: Elements with an owner, each held once by its owner and by nobody else. -/

import Mathlib.Data.List.Nodup
import Mathlib.Data.List.Perm.Basic
import Mathlib.Logic.Function.Basic

set_option autoImplicit false
set_option relaxedAutoImplicit false

namespace OhMyOs.Lib.Ownership

variable {ι α : Type} [DecidableEq ι] [DecidableEq α]

structure Custody (owner : α → Option ι) (held : ι → List α) : Prop where
  nodup : ∀ i, (held i).Nodup
  mem_iff : ∀ i a, a ∈ held i ↔ owner a = some i

variable {owner : α → Option ι} {held held' : ι → List α} {i j : ι} {a : α}

namespace Custody

omit [DecidableEq ι] [DecidableEq α] in
theorem elsewhere (custody : Custody owner held) (mine : owner a = some i) (differ : j ≠ i) :
    a ∉ held j := by
  intro member
  rw [custody.mem_iff, mine] at member
  exact differ (Option.some.inj member).symm

omit [DecidableEq ι] [DecidableEq α] in
theorem perm (custody : Custody owner held) (moved : ∀ i, (held' i).Perm (held i)) :
    Custody owner held' := by
  refine ⟨fun i => (moved i).nodup_iff.mpr (custody.nodup i), fun i a => ?_⟩
  rw [(moved i).mem_iff]
  exact custody.mem_iff i a

theorem add (custody : Custody owner held) (free : owner a = none)
    (here : (held' i).Perm (a :: held i)) (others : ∀ j, j ≠ i → held' j = held j) :
    Custody (Function.update owner a (some i)) held' := by
  have fresh : ∀ j, a ∉ held j := by
    intro j member
    rw [custody.mem_iff, free] at member
    cases member
  refine ⟨fun j => ?_, fun j b => ?_⟩
  · by_cases same : j = i
    · rw [same, here.nodup_iff]
      exact List.nodup_cons.mpr ⟨fresh i, custody.nodup i⟩
    · rw [others j same]
      exact custody.nodup j
  · by_cases isNew : b = a
    · subst isNew
      rw [Function.update_self, Option.some.injEq]
      by_cases same : j = i
      · rw [same, here.mem_iff]
        simp
      · rw [others j same]
        exact ⟨fun member => absurd member (fresh j), fun eq => absurd eq.symm same⟩
    · rw [Function.update_of_ne isNew, ← custody.mem_iff]
      by_cases same : j = i
      · rw [same, here.mem_iff]
        simp [isNew]
      · rw [others j same]

theorem drop (custody : Custody owner held) (here : (held i).Perm (a :: held' i))
    (others : ∀ j, j ≠ i → held' j = held j) : Custody (Function.update owner a none) held' := by
  have split : (a :: held' i).Nodup := here.nodup_iff.mp (custody.nodup i)
  have mine : owner a = some i := (custody.mem_iff i a).mp (here.mem_iff.mpr List.mem_cons_self)
  refine ⟨fun j => ?_, fun j b => ?_⟩
  · by_cases same : j = i
    · rw [same]
      exact split.of_cons
    · rw [others j same]
      exact custody.nodup j
  · by_cases gone : b = a
    · subst gone
      rw [Function.update_self]
      refine ⟨fun member => ?_, fun eq => by cases eq⟩
      by_cases same : j = i
      · subst same
        exact absurd member (List.nodup_cons.mp split).1
      · rw [others j same] at member
        exact absurd member (custody.elsewhere mine same)
    · rw [Function.update_of_ne gone, ← custody.mem_iff]
      by_cases same : j = i
      · rw [same, here.mem_iff]
        simp [gone]
      · rw [others j same]

end Custody

end OhMyOs.Lib.Ownership
