/- GID: OhMyOs/Lib/SlotStack
   generality: G
   digest: A fixed range of slots divided into used ones and a stack of free ones. -/

import Mathlib.Data.List.Nodup
import Mathlib.Data.List.Perm.Basic
import Mathlib.Data.List.Range

set_option autoImplicit false
set_option relaxedAutoImplicit false

namespace OhMyOs.Lib.SlotStack

def Slots (n : Nat) (used free : List Nat) : Prop := (used ++ free).Perm (List.range n)

variable {n i : Nat} {used free : List Nat}

theorem Slots.start (n : Nat) : Slots n [] (List.range n) := List.Perm.refl _

private theorem Slots.nodup (slots : Slots n used free) : (used ++ free).Nodup :=
  slots.nodup_iff.mpr List.nodup_range

theorem Slots.used_lt (slots : Slots n used free) (member : i ∈ used) : i < n :=
  List.mem_range.mp (slots.subset (List.mem_append_left _ member))

theorem Slots.used_nodup (slots : Slots n used free) : used.Nodup :=
  slots.nodup.of_append_left

theorem Slots.not_used (slots : Slots n used (i :: free)) : i ∉ used := fun member =>
  (List.nodup_append'.mp slots.nodup).2.2 member List.mem_cons_self

theorem Slots.take (slots : Slots n used (i :: free)) : Slots n (i :: used) free :=
  List.perm_middle.symm.trans slots

theorem Slots.give (slots : Slots n used free) (member : i ∈ used) :
    Slots n (used.erase i) (i :: free) :=
  (List.perm_middle.trans ((List.perm_cons_erase member).symm.append_right free)).trans slots

end OhMyOs.Lib.SlotStack
