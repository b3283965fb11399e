/- GID: OhMyOs/Mm/PageSafety
   generality: I
   digest: Whole runs of the page allocator; blocks stay apart while merged buddies match. -/

import OhMyOs.Lib.Buddy
import OhMyOs.Lib.Runs
import OhMyOs.Mm.PageAllocator

set_option autoImplicit false
set_option relaxedAutoImplicit false

namespace OhMyOs.Mm.PageSafety

open OhMyOs.Lib.Ring OhMyOs.Lib.Dyadic OhMyOs.Lib.Buddy OhMyOs.Lib.Runs
open OhMyOs.Include.IntrusiveList OhMyOs.Include.Bitops OhMyOs.Mm.PageAllocator

def listKeys : List (Zone × Nat) :=
  (List.range (maxOrder + 1)).flatMap (fun k => [(.linear, k), (.highmem, k)])

theorem mem_listKeys (i : Zone × Nat) : i ∈ listKeys ↔ i.2 ≤ maxOrder := by
  obtain ⟨z, k⟩ := i
  simp only [listKeys, List.mem_flatMap, List.mem_range, List.mem_cons, List.not_mem_nil,
    or_false, Prod.mk.injEq]
  constructor
  · rintro ⟨j, hj, ⟨_, rfl⟩ | ⟨_, rfl⟩⟩ <;> simpa using Nat.le_of_lt_succ hj
  · intro hk
    refine ⟨k, Nat.lt_succ_of_le hk, ?_⟩
    cases z <;> simp

theorem listKeys_nodup : listKeys.Nodup := by decide

def view (s : PageState) : Store (Zone × Nat) where
  links := s.links
  order p := (s.pages p).order
  free p := s.test pageFree p

def Tiled (s : PageState) (hand out : List Block) (S : Set Nat) : Prop :=
  ∃ f, Held listKeys Prod.snd (view s) hand out S f

private theorem Tiled.congr {s : PageState} {hand out : List Block} {S T : Set Nat}
    (tiled : Tiled s hand out S) (same : ∀ n, n ∈ S ↔ n ∈ T) : Tiled s hand out T := by
  obtain ⟨f, held⟩ := tiled
  exact ⟨f, held.congr same⟩

def ValidOn (s : PageState) (V : Set Nat) : Prop := ∀ p, s.test pageValid p = true ↔ p ∈ V

section FieldLemmas

@[simp] theorem setOrder_test (s : PageState) (p k nr q : Nat) :
    (s.setOrder p k).test nr q = s.test nr q := by
  by_cases h : q = p
  · subst h
    simp [PageState.setOrder, PageState.test]
  · simp [PageState.setOrder, PageState.test, h]

@[simp] theorem setOrder_order_self (s : PageState) (p k : Nat) :
    ((s.setOrder p k).pages p).order = k := by
  simp [PageState.setOrder]

private theorem setOrder_order_ne (s : PageState) {p q : Nat} (k : Nat) (h : q ≠ p) :
    ((s.setOrder p k).pages q).order = (s.pages q).order := by
  simp [PageState.setOrder, h]

@[simp] theorem setFlags_order (s : PageState) (p : Nat) (w : BitVec 32) (q : Nat) :
    ((s.setFlags p w).pages q).order = (s.pages q).order := by
  by_cases h : q = p
  · subst h
    simp [PageState.setFlags]
  · simp [PageState.setFlags, h]

theorem setFlags_test_self (s : PageState) (p nr : Nat) (w : BitVec 32) :
    (s.setFlags p w).test nr p = testBit nr w := by
  simp [PageState.setFlags, PageState.test]

theorem setFlags_test_ne (s : PageState) {p q : Nat} (nr : Nat) (w : BitVec 32) (h : q ≠ p) :
    (s.setFlags p w).test nr q = s.test nr q := by
  simp [PageState.setFlags, PageState.test, h]

theorem setFlags_setBit_test (s : PageState) (p : Nat) {n m : Nat} (hn : n < 32) (h : m ≠ n)
    (q : Nat) : (s.setFlags p (setBit n (s.pages p).flags)).test m q = s.test m q := by
  by_cases e : q = p
  · subst e
    rw [setFlags_test_self, testBit_setBit_ne hn h]
    rfl
  · exact setFlags_test_ne s m _ e

private theorem setFlags_clearBit_test (s : PageState) (p : Nat) {n m : Nat} (hn : n < 32)
    (h : m ≠ n)
    (q : Nat) : (s.setFlags p (clearBit n (s.pages p).flags)).test m q = s.test m q := by
  by_cases e : q = p
  · subst e
    rw [setFlags_test_self, testBit_clearBit_ne hn h]
    rfl
  · exact setFlags_test_ne s m _ e

theorem assert_true (s : PageState) {cond : Bool} (h : cond = true) : s.assert cond = s := by
  simp [PageState.assert, h]

end FieldLemmas

/-! ### Frames and zones -/

structure Frame (s t : PageState) : Prop where
  flags : ∀ nr, nr ≠ pageFree → ∀ q, t.test nr q = s.test nr q
  bugs : t.bugs = s.bugs
  boundary : t.highmemStartPfn = s.highmemStartPfn

theorem Frame.refl (s : PageState) : Frame s s := ⟨fun _ _ _ => rfl, rfl, rfl⟩

theorem Frame.trans {s t u : PageState} (first : Frame s t) (second : Frame t u) : Frame s u where
  flags nr other q := (second.flags nr other q).trans (first.flags nr other q)
  bugs := second.bugs.trans first.bugs
  boundary := second.boundary.trans first.boundary

private theorem Frame.validOn {s t : PageState} {V : Set Nat} (frame : Frame s t)
    (valid : ValidOn s V) :
    ValidOn t V := by
  intro q
  rw [frame.flags pageValid (by decide)]
  exact valid q

def zoneOf (s : PageState) (page : Nat) : Zone :=
  if s.test pageHighmem page then .highmem else .linear

theorem Frame.zoneOf_eq {s t : PageState} (frame : Frame s t) (q : Nat) :
    zoneOf t q = zoneOf s q := by
  rw [zoneOf, zoneOf, frame.flags pageHighmem (by decide)]

def BlockIn (s : PageState) (b : Block) (zone : Zone) : Prop :=
  ∀ n, b.Covers n → s.test pageValid n = true ∧ zoneOf s n = zone

private theorem Frame.blockIn {s t : PageState} (frame : Frame s t) {b : Block} {zone : Zone}
    (inside : BlockIn s b zone) : BlockIn t b zone := by
  intro n covered
  rw [frame.flags pageValid (by decide), frame.zoneOf_eq]
  exact inside n covered

def Placed (s : PageState) (f : Zone × Nat → List Nat) : Prop :=
  ∀ i ∈ listKeys, ∀ p ∈ f i, BlockIn s ⟨p, i.2⟩ i.1

private theorem Frame.placed {s t : PageState} (frame : Frame s t) {f : Zone × Nat → List Nat}
    (placed : Placed s f) : Placed t f :=
  fun i key p mem => frame.blockIn (placed i key p mem)

private theorem Placed.insert {s : PageState} {f : Zone × Nat → List Nat}
    (placed : Placed s f) {i : Zone × Nat}
    {p : Nat} (inside : BlockIn s ⟨p, i.2⟩ i.1) : Placed s (Function.update f i (p :: f i)) := by
  intro j key q mem
  rcases mem_insert_iff.mp mem with ⟨rfl, rfl⟩ | old
  · exact inside
  · exact placed j key q old

private theorem Placed.erase {s : PageState} {f : Zone × Nat → List Nat}
    (placed : Placed s f) (i : Zone × Nat)
    (p : Nat) : Placed s (Function.update f i ((f i).erase p)) := by
  intro j key q mem
  refine placed j key q ?_
  by_cases same : j = i
  · subst same
    rw [Function.update_self] at mem
    exact List.mem_of_mem_erase mem
  · rwa [Function.update_of_ne same] at mem

private theorem setOrder_frame (s : PageState) (p k : Nat) : Frame s (s.setOrder p k) :=
  ⟨fun nr _ q => setOrder_test s p k nr q, rfl, rfl⟩

section FreePage

private theorem freePage_test (s : PageState) (p k : Nat) {nr : Nat} (h : nr ≠ pageFree) (q : Nat) :
    (freePage s p k).test nr q = s.test nr q := by
  have base : ((s.setFlags p (setBit pageFree (s.pages p).flags)).setOrder p k).test nr q =
      s.test nr q := by
    rw [setOrder_test, setFlags_setBit_test s p (by decide) h]
  unfold freePage
  simp only
  split <;> exact base

private theorem freePage_order_self (s : PageState) (p k : Nat) :
    ((freePage s p k).pages p).order = k := by
  unfold freePage
  simp only
  split <;> exact setOrder_order_self _ _ _

private theorem freePage_order_ne (s : PageState) {p q : Nat} (k : Nat) (h : q ≠ p) :
    ((freePage s p k).pages q).order = (s.pages q).order := by
  have base : (((s.setFlags p (setBit pageFree (s.pages p).flags)).setOrder p k).pages q).order =
      (s.pages q).order := by
    rw [setOrder_order_ne _ _ h, setFlags_order]
  unfold freePage
  simp only
  split <;> exact base

@[simp] theorem freePage_bugs (s : PageState) (p k : Nat) : (freePage s p k).bugs = s.bugs := by
  unfold freePage
  simp only
  split <;> rfl

@[simp] theorem freePage_highmem (s : PageState) (p k : Nat) :
    (freePage s p k).highmemStartPfn = s.highmemStartPfn := by
  unfold freePage
  simp only
  split <;> rfl

private theorem freePage_free (s : PageState) (p k : Nat) :
    (freePage s p k).test pageFree p = true ∧
      ∀ q, q ≠ p → (freePage s p k).test pageFree q = s.test pageFree q := by
  have self : ((s.setFlags p (setBit pageFree (s.pages p).flags)).setOrder p k).test pageFree p =
      true := by
    rw [setOrder_test, setFlags_test_self, testBit_setBit_self (by decide)]
  have others : ∀ q, q ≠ p →
      ((s.setFlags p (setBit pageFree (s.pages p).flags)).setOrder p k).test pageFree q =
        s.test pageFree q := by
    intro q h
    rw [setOrder_test, setFlags_test_ne _ _ _ h]
  unfold freePage
  simp only
  split
  · exact ⟨self, others⟩
  · exact ⟨self, others⟩

theorem freePage_frame (s : PageState) (p k : Nat) : Frame s (freePage s p k) :=
  ⟨fun _ other q => freePage_test s p k other q, freePage_bugs s p k, freePage_highmem s p k⟩

private theorem freePage_links (s : PageState) (p k : Nat) :
    (freePage s p k).links = linkAfter s.links (.head (zoneOf s p, k)) (.node p) := by
  have same : ((s.setFlags p (setBit pageFree (s.pages p).flags)).setOrder p k).test pageHighmem p =
      s.test pageHighmem p := by
    rw [setOrder_test, setFlags_setBit_test s p (by decide) (by decide)]
  unfold freePage zoneOf
  simp only [same]
  split
  · rfl
  · rfl

theorem freePage_held {s : PageState} {p k : Nat} {hand out : List Block} {S : Set Nat}
    {f : Zone × Nat → List Nat}
    (held : Held listKeys Prod.snd (view s) (⟨p, k⟩ :: hand) out S f) (small : k ≤ maxOrder) :
    Held listKeys Prod.snd (view (freePage s p k)) hand out S
      (Function.update f (zoneOf s p, k) (p :: f (zoneOf s p, k))) := by
  have free := freePage_free s p k
  apply held.push (i := (zoneOf s p, k)) listKeys_nodup ((mem_listKeys _).mpr small)
    (freePage_links s p k) (freePage_order_self s p k) free.1
  intro q h
  exact ⟨freePage_order_ne s k h, free.2 q h⟩

private theorem freePage_tiled {s : PageState} {p k : Nat} {hand out : List Block} {S : Set Nat}
    (tiled : Tiled s (⟨p, k⟩ :: hand) out S) (small : k ≤ maxOrder) :
    Tiled (freePage s p k) hand out S := by
  obtain ⟨f, held⟩ := tiled
  exact ⟨_, freePage_held held small⟩

end FreePage

section AllocPages

private theorem BlockIn.halves {s : PageState} {p k : Nat} {zone : Zone}
    (inside : BlockIn s ⟨p, k + 1⟩ zone)
    (aligned : 2 ^ (k + 1) ∣ p) :
    BlockIn s ⟨p, k⟩ zone ∧ BlockIn s ⟨p ^^^ 2 ^ k, k⟩ zone := by
  have step : 2 ^ (k + 1) = 2 ^ k + 2 ^ k := by ring
  have buddy : p ^^^ 2 ^ k = p + 2 ^ k := by
    rcases xor_two_pow ((pow_dvd_pow 2 (Nat.le_succ k)).trans aligned) with ⟨-, up⟩ | ⟨not, -⟩
    · exact up
    · exact absurd aligned not
  constructor
  · intro n covered
    refine inside n ?_
    simp only [Block.Covers, Block.stop] at covered ⊢
    omega
  · intro n covered
    refine inside n ?_
    rw [buddy] at covered
    simp only [Block.Covers, Block.stop] at covered ⊢
    omega

private theorem splitLoop_held (order p : Nat) {out : List Block} {S : Set Nat} (fuel : Nat) :
    ∀ (s : PageState) (k : Nat) (f : Zone × Nat → List Nat),
      Held listKeys Prod.snd (view s) [⟨p, k⟩] out S f → (∀ q ∈ S, s.test pageValid q = true) →
      (s.pages p).order = k → order ≤ k → k ≤ maxOrder → k ≤ order + fuel →
      ∃ g, Held listKeys Prod.snd (view (splitLoop order p fuel s)) [⟨p, order⟩] out S g ∧
        Frame s (splitLoop order p fuel s) ∧ ((splitLoop order p fuel s).pages p).order = order ∧
        ∀ zone, BlockIn s ⟨p, k⟩ zone → Placed s f →
          BlockIn (splitLoop order p fuel s) ⟨p, order⟩ zone ∧
            Placed (splitLoop order p fuel s) g := by
  induction fuel with
  | zero =>
    intro s k f held _ here low _ enough
    obtain rfl : k = order := by omega
    exact ⟨f, held, .refl s, here, fun _ inside placed => ⟨inside, placed⟩⟩
  | succ fuel ih =>
    intro s k f held valid here low small enough
    unfold splitLoop
    by_cases more : order < k
    · obtain ⟨j, rfl⟩ : ∃ j, k = j + 1 := ⟨k - 1, by omega⟩
      have pred : (s.pages p).order - 1 = j := by omega
      rw [if_pos (by omega)]
      simp only [pred]
      have buddy : pageBuddy (s.setOrder p j) p = p ^^^ 2 ^ j := by
        rw [pageBuddy, setOrder_order_self, Nat.one_shiftLeft]
      have aligned : 2 ^ (j + 1) ∣ p := held.tiling.aligned ⟨p, j + 1⟩ (by simp)
      -- lowering the order field first leaves a block in hand whose fields are free to change
      have halved :
          Held listKeys Prod.snd (view (s.setOrder p j)) [⟨p ^^^ 2 ^ j, j⟩, ⟨p, j⟩] out S f :=
        (held.touch rfl fun q h => ⟨setOrder_order_ne s j h, setOrder_test s p j pageFree q⟩ :
          Held listKeys Prod.snd (view (s.setOrder p j)) [⟨p, j + 1⟩] out S f).split
      have lowered : Frame s (s.setOrder p j) := setOrder_frame s p j
      have covered : p ^^^ 2 ^ j ∈ S :=
        (halved.tiling.cover _).mp ⟨⟨p ^^^ 2 ^ j, j⟩, by simp, Block.covers_base _⟩
      have ne : p ≠ p ^^^ 2 ^ j :=
        Ne.symm (xor_two_pow_ne ((pow_dvd_pow 2 (Nat.le_succ j)).trans aligned))
      have passes : (s.setOrder p j).test pageValid (p ^^^ 2 ^ j) = true := by
        rw [setOrder_test]
        exact valid _ covered
      rw [buddy, assert_true _ passes, setOrder_order_self]
      have step : Frame s (freePage (s.setOrder p j) (p ^^^ 2 ^ j) j) :=
        lowered.trans (freePage_frame _ _ _)
      obtain ⟨g, held', frame, order', zones⟩ := ih _ j _ (freePage_held halved (by omega))
        (fun q mem => (step.flags pageValid (by decide) q).trans (valid q mem))
        (by rw [freePage_order_ne _ _ ne, setOrder_order_self]) (by omega) (by omega) (by omega)
      refine ⟨g, held', step.trans frame, order', fun zone inside placed => ?_⟩
      obtain ⟨lower, upper⟩ := inside.halves aligned
      have head := (lowered.blockIn upper _ (Block.covers_base _)).2
      apply zones zone (step.blockIn lower)
      apply (freePage_frame _ _ _).placed
      apply (lowered.placed placed).insert
      rw [head]
      exact lowered.blockIn upper
    · obtain rfl : k = order := by omega
      rw [if_neg (by omega)]
      exact ⟨f, held, .refl s, here, fun _ inside placed => ⟨inside, placed⟩⟩

private theorem allocTake_held {s : PageState} {out : List Block} {S : Set Nat}
    {f : Zone × Nat → List Nat} {i : Zone × Nat} (order : Nat) {p : Nat} {xs : List Nat}
    (held : Held listKeys Prod.snd (view s) [] out S f) (valid : ∀ q ∈ S, s.test pageValid q = true)
    (hi : i.2 ≤ maxOrder) (first : f i = p :: xs) (low : order ≤ i.2) :
    ∃ g, Held listKeys Prod.snd (view (allocTake s i.2 order p)) [] (⟨p, order⟩ :: out) S g ∧
      Frame s (allocTake s i.2 order p) ∧
        (Placed s f → BlockIn (allocTake s i.2 order p) ⟨p, order⟩ i.1 ∧
          Placed (allocTake s i.2 order p) g) := by
  have key : i ∈ listKeys := (mem_listKeys i).mpr hi
  have mem : p ∈ f i := by rw [first]; simp
  have here : (s.pages p).order = i.2 := (held.listed i key p mem).1
  let u : PageState := { s with links := listRemove s.links (.node p) }
  have popped := held.pop listKeys_nodup key mem
  rw [show unlink (view s).links (.node p) = u.links from (listRemove_eq _ _).symm] at popped
  have asserted : u.assert (i.2 == (u.pages p).order) = u :=
    assert_true u (by simp [u, here])
  have unlinked : Frame s u := ⟨fun _ _ _ => rfl, rfl, rfl⟩
  have result : allocTake s i.2 order p =
      (splitLoop order p (s.pages p).order u).setFlags p
        (clearBit pageFree ((splitLoop order p (s.pages p).order u).pages p).flags) := by
    unfold allocTake
    simp only
    rw [asserted]
  rw [result]
  obtain ⟨g, cutHeld, cutFrame, cutOrder, zones⟩ :=
    splitLoop_held order p (s.pages p).order u i.2 _ popped valid here low hi (by omega)
  generalize splitLoop order p (s.pages p).order u = v at cutHeld cutFrame cutOrder zones ⊢
  have cleared : Frame v (v.setFlags p (clearBit pageFree (v.pages p).flags)) :=
    ⟨fun nr other q => setFlags_clearBit_test v p (by decide) other q, rfl, rfl⟩
  have touched : Held listKeys Prod.snd
      (view (v.setFlags p (clearBit pageFree (v.pages p).flags))) [⟨p, order⟩] out S g := by
    refine cutHeld.touch rfl ?_
    intro q h
    exact ⟨setFlags_order _ _ _ _, setFlags_test_ne _ _ _ h⟩
  refine ⟨g, touched.give ?_ ?_, (unlinked.trans cutFrame).trans cleared, fun placed => ?_⟩
  · exact (setFlags_order _ _ _ _).trans cutOrder
  · change PageState.test _ _ _ = false
    rw [setFlags_test_self, testBit_clearBit_self (by decide)]
  · obtain ⟨inside, placed'⟩ := zones i.1 (unlinked.blockIn (placed i key p mem))
      (unlinked.placed (placed.erase i p))
    exact ⟨cleared.blockIn inside, cleared.placed placed'⟩

private theorem getFreeList_eq (gfpMask : BitVec 32) (order i : Nat) :
    getFreeList gfpMask i = ((getFreeList gfpMask order).1, i) := by
  unfold getFreeList
  split
  · rfl
  · rfl

theorem allocScan_held {s : PageState} {out : List Block} {S : Set Nat} {f : Zone × Nat → List Nat}
    (held : Held listKeys Prod.snd (view s) [] out S f) (valid : ∀ q ∈ S, s.test pageValid q = true)
    (gfpMask : BitVec 32) (order n : Nat) : ∀ i, order ≤ i → i + n = maxOrder + 1 →
      ((∀ j, i ≤ j → j ≤ maxOrder → f (getFreeList gfpMask j) = []) ∧
          allocScan gfpMask order n s i = (none, s)) ∨
        ((∃ j, i ≤ j ∧ j ≤ maxOrder ∧ f (getFreeList gfpMask j) ≠ []) ∧
          ∃ p t g, allocScan gfpMask order n s i = (some p, t) ∧
            Held listKeys Prod.snd (view t) [] (⟨p, order⟩ :: out) S g ∧ Frame s t ∧
              (Placed s f → BlockIn t ⟨p, order⟩ (getFreeList gfpMask order).1 ∧ Placed t g)) := by
  have rings : Rings s.links {i | i ∈ listKeys} f := held.rings
  induction n with
  | zero =>
    intro i _ total
    exact .inl ⟨fun j above below => absurd below (by omega), rfl⟩
  | succ n ih =>
    intro i low total
    have hi : (getFreeList gfpMask i).2 = i := by rw [getFreeList_eq gfpMask order]
    have zone : (getFreeList gfpMask i).1 = (getFreeList gfpMask order).1 := by
      rw [getFreeList_eq gfpMask order]
    have key : getFreeList gfpMask i ∈ listKeys := (mem_listKeys _).mpr (by omega)
    unfold allocScan
    simp only
    cases first : f (getFreeList gfpMask i) with
    | nil =>
      rw [if_pos ((listEmpty_iff rings key).mpr first)]
      rcases ih (i + 1) (by omega) (by omega) with ⟨empty, none⟩ | ⟨⟨j, above, below, some'⟩, found⟩
      · refine .inl ⟨fun j above below => ?_, none⟩
        rcases Nat.eq_or_lt_of_le above with rfl | later
        · exact first
        · exact empty j later below
      · exact .inr ⟨⟨j, by omega, below, some'⟩, found⟩
    | cons p xs =>
      have filled : ¬ listEmpty s.links (.head (getFreeList gfpMask i)) = true := by
        rw [listEmpty_iff rings key, first]
        exact List.cons_ne_nil p xs
      rw [if_neg filled, listNext_cons rings key first]
      obtain ⟨g, taken, frame, zones⟩ := allocTake_held order held valid
        (i := getFreeList gfpMask i) (by omega) first (by omega)
      rw [hi, zone] at zones
      rw [hi] at taken frame
      refine .inr ⟨⟨i, le_rfl, by omega, ?_⟩, p, _, g, rfl, taken, frame, zones⟩
      rw [first]
      exact List.cons_ne_nil p xs

theorem allocPages_tiled {s : PageState} {out : List Block} {S : Set Nat}
    (tiled : Tiled s [] out S) (valid : ValidOn s S) (quiet : s.bugs = 0)
    (gfpMask : BitVec 32) (order : Nat) :
    allocPages s gfpMask order = (none, s) ∨
      ∃ p t, allocPages s gfpMask order = (some p, t) ∧ order ≤ maxOrder ∧
        Tiled t [] (⟨p, order⟩ :: out) S ∧ ValidOn t S ∧ t.bugs = 0 := by
  obtain ⟨f, held⟩ := tiled
  unfold allocPages
  split
  · exact .inl rfl
  · rcases allocScan_held held (fun q mem => (valid q).mpr mem) gfpMask order
      (maxOrder + 1 - order) order le_rfl (by omega) with
        ⟨-, fail⟩ | ⟨-, p, t, g, eq, taken, frame, -⟩
    · exact .inl fail
    · exact .inr ⟨p, t, eq, by omega, ⟨g, taken⟩, frame.validOn valid, frame.bugs.trans quiet⟩

end AllocPages

section FreePages

def mergeable (s : PageState) (p : Nat) : Bool := s.test pageValid p && s.test pageFree p

/-- Along the merge walk of `free_pages` every mergeable buddy carries the walk's order. -/
def mergesMatch (s : PageState) (page order : Nat) : Bool :=
  ordersMatch (mergeable s) (fun p => (s.pages p).order) (maxOrder - order) page order

private theorem mergeLoop_tiled (s₀ : PageState) {out : List Block} {S : Set Nat} (fuel : Nat) :
    ∀ (s : PageState) (p k : Nat), Tiled s [⟨p, k⟩] out S → ValidOn s S → s.bugs = 0 →
      (s.pages p).order = k → k ≤ maxOrder → maxOrder ≤ k + fuel →
      (∀ nr q, s.test nr q = s₀.test nr q) →
      Walk (mergeable s₀) (fun p => (s₀.pages p).order) maxOrder (view s) p k →
      ∃ j ≤ maxOrder, Tiled (mergeLoop fuel s p).1 [⟨(mergeLoop fuel s p).2, j⟩] out S ∧
        ValidOn (mergeLoop fuel s p).1 S ∧ (mergeLoop fuel s p).1.bugs = 0 ∧
        ((mergeLoop fuel s p).1.pages (mergeLoop fuel s p).2).order = j := by
  induction fuel with
  | zero =>
    intro s p k tiled valid quiet here small _ _ _
    exact ⟨k, small, tiled, valid, quiet, here⟩
  | succ fuel ih =>
    intro s p k tiled valid quiet here small enough flags walk
    unfold mergeLoop
    by_cases room : k < maxOrder
    swap
    · rw [if_neg (by omega)]
      exact ⟨k, small, tiled, valid, quiet, here⟩
    rw [if_pos (by omega)]
    have buddy : pageBuddy s p = p ^^^ 2 ^ k := by rw [pageBuddy, here, Nat.one_shiftLeft]
    simp only [buddy]
    by_cases free : mergeable s (p ^^^ 2 ^ k) = true
    swap
    · have stop : (!s.test pageValid (p ^^^ 2 ^ k) || !s.test pageFree (p ^^^ 2 ^ k)) = true := by
        rw [← Bool.not_and]
        exact Bool.not_eq_true' _ ▸ Bool.eq_false_of_not_eq_true free
      rw [if_pos stop]
      exact ⟨k, small, tiled, valid, quiet, here⟩
    have both := Bool.and_eq_true_iff.mp free
    rw [if_neg (by simp [both.1, both.2]), ← min_def_lt, min_comm]
    have marked : mergeable s₀ (p ^^^ 2 ^ k) = true := by
      rw [← free]
      simp only [mergeable, flags]
    obtain ⟨f, held⟩ := tiled
    let s1 : PageState :=
      { s with links := listRemove s.links (.node (p ^^^ 2 ^ k)) }.setOrder (min p (p ^^^ 2 ^ k))
        (k + 1)
    have links : (view s1).links = unlink (view s).links (.node (p ^^^ 2 ^ k)) := listRemove_eq _ _
    obtain ⟨same, walk', joined⟩ := walk.merge held listKeys_nodup room
      ((valid _).mp both.1) both.2 marked links fun q h =>
        ⟨setOrder_order_ne _ _ h, setOrder_test _ _ _ _ _⟩
    have raised : ((s.pages (min p (p ^^^ 2 ^ k))).order + 1) % 2 ^ 32 = k + 1 := by
      have buddyOrder : (s.pages (p ^^^ 2 ^ k)).order = k := same
      have small : k < 10 := room
      rcases min_choice p (p ^^^ 2 ^ k) with h | h <;> rw [h] <;> omega
    simp only [raised]
    apply ih s1 (min p (p ^^^ 2 ^ k)) (k + 1) joined
    · intro q
      rw [setOrder_test]
      exact valid q
    · exact quiet
    · exact setOrder_order_self _ _ _
    · omega
    · omega
    · intro nr q
      rw [setOrder_test]
      exact flags nr q
    · exact walk'

theorem freePages_tiled {s : PageState} {out : List Block} {S : Set Nat} {b : Block}
    (tiled : Tiled s [] out S) (valid : ValidOn s S) (quiet : s.bugs = 0) (mem : b ∈ out)
    (small : b.order ≤ maxOrder)
    (matched : mergesMatch s b.base b.order = true) :
    Tiled (freePages s b.base) [] (out.erase b) S ∧ ValidOn (freePages s b.base) S ∧
      (freePages s b.base).bugs = 0 := by
  obtain ⟨f, held⟩ := tiled
  have here : (s.pages b.base).order = b.order := (held.given b mem).1
  obtain ⟨j, hj, merged, valid', quiet', order'⟩ :=
    mergeLoop_tiled s mergeFuel s b.base b.order ⟨f, held.take mem⟩ valid quiet here small
      (by have : maxOrder ≤ mergeFuel := by decide
          omega) (fun _ _ => rfl) ⟨fun _ _ => rfl, matched⟩
  unfold freePages
  simp only
  rw [order']
  refine ⟨freePage_tiled merged hj, ?_, ?_⟩
  · intro q
    rw [freePage_test _ _ _ (by decide)]
    exact valid' q
  · rw [freePage_bugs]
    exact quiet'

end FreePages

end OhMyOs.Mm.PageSafety
