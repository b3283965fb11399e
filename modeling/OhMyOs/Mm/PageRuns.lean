/- GID: OhMyOs/Mm/PageRuns
   generality: I
   digest: Boot ranges and arbitrary runs of alloc_pages and free_pages. -/

import OhMyOs.Mm.PageSafety

set_option autoImplicit false
set_option relaxedAutoImplicit false

namespace OhMyOs.Mm.PageRuns

open OhMyOs.Lib.Ring OhMyOs.Lib.Dyadic OhMyOs.Lib.Buddy OhMyOs.Lib.Runs
open OhMyOs.Include.IntrusiveList OhMyOs.Include.Bitops
open OhMyOs.Mm.PageAllocator OhMyOs.Mm.PageSafety

section Init

private theorem pageInitLoop_rings (n : Nat) : ∀ (l : Links (Zone × Nat) Nat) (order : Nat),
    Rings l {i | i.2 < order} (fun _ => []) →
      Rings (pageInitLoop n l order) {i | i.2 < order + n} (fun _ => []) := by
  induction n with
  | zero =>
    intro l order rings
    exact rings
  | succ n ih =>
    intro l order rings
    unfold pageInitLoop
    simp only
    have high := listInit_rings_empty rings (.highmem, order) (by simp)
    have both := listInit_rings_empty high (.linear, order) (by simp)
    have same : insert (Zone.linear, order) (insert (Zone.highmem, order)
        {i : Zone × Nat | i.2 < order}) = {i | i.2 < order + 1} := by
      ext ⟨z, k⟩
      simp only [Set.mem_insert_iff, Prod.mk.injEq, Set.mem_ofPred_eq]
      cases z <;> simp <;> omega
    rw [same] at both
    have next := ih _ (order + 1) both
    rw [Nat.add_assoc, Nat.add_comm 1 n] at next
    exact next

theorem pageInit_held (links : Links (Zone × Nat) Nat) (highmem : Nat) :
    Held listKeys Prod.snd (view (pageInit links highmem)) [] [] ∅ (fun _ => []) := by
  have start : Rings links {i : Zone × Nat | i.2 < 0} (fun _ => []) :=
    ⟨by simp, by simp, by simp⟩
  have rings := pageInitLoop_rings (maxOrder + 1) links 0 start
  have keys : {i : Zone × Nat | i.2 < 0 + (maxOrder + 1)} = {i | i ∈ listKeys} := by
    ext i
    simp only [Set.mem_ofPred_eq, mem_listKeys]
    omega
  rw [keys] at rings
  have none : filed listKeys Prod.snd (fun _ => []) = [] := by simp [filed]
  refine ⟨rings, ?_, by simp, by simp⟩
  rw [none]
  exact Tiling.nil

private theorem pageInit_tiled (links : Links (Zone × Nat) Nat) (highmem : Nat) :
    Tiled (pageInit links highmem) [] [] ∅ :=
  ⟨_, pageInit_held links highmem⟩

end Init

section AddFreePages

@[simp] private theorem setFlags_highmem (s : PageState) (p : Nat) (w : BitVec 32) :
    (s.setFlags p w).highmemStartPfn = s.highmemStartPfn := rfl

private theorem setBit_view (s : PageState) (p nr : Nat) (small : nr < 32)
    (other : pageFree ≠ nr) : view (s.setFlags p (setBit nr (s.pages p).flags)) = view s := by
  simp only [view, Store.mk.injEq]
  refine ⟨rfl, ?_, ?_⟩
  · funext q
    exact setFlags_order s p _ q
  · funext q
    exact setFlags_setBit_test s p small other q

private def markPage (highmem : Bool) (s : PageState) (pfn : Nat) : PageState :=
  let s := s.setFlags pfn (setBit pageValid (s.pages pfn).flags)
  if highmem then s.setFlags pfn (setBit pageHighmem (s.pages pfn).flags) else s

private theorem markPage_spec (highmem : Bool) (s : PageState) (pfn : Nat) :
    view (markPage highmem s pfn) = view s ∧ (markPage highmem s pfn).bugs = s.bugs ∧
      (markPage highmem s pfn).highmemStartPfn = s.highmemStartPfn ∧
      (∀ q, (markPage highmem s pfn).test pageValid q =
        (decide (q = pfn) || s.test pageValid q)) ∧
      ∀ q, (markPage highmem s pfn).test pageHighmem q =
        (decide (q = pfn) && highmem || s.test pageHighmem q) := by
  have set : ∀ (u : PageState) (nr : Nat), nr < 32 → ∀ q,
      (u.setFlags pfn (setBit nr (u.pages pfn).flags)).test nr q =
        (decide (q = pfn) || u.test nr q) := by
    intro u nr small q
    by_cases h : q = pfn
    · subst h
      rw [setFlags_test_self, testBit_setBit_self small]
      simp
    · rw [setFlags_test_ne _ _ _ h]
      simp [h]
  have first := setBit_view s pfn pageValid (by decide) (by decide)
  have valid := set s pageValid (by decide)
  have keep : ∀ q, (s.setFlags pfn (setBit pageValid (s.pages pfn).flags)).test pageHighmem q =
      s.test pageHighmem q := setFlags_setBit_test s pfn (by decide) (by decide)
  unfold markPage
  cases highmem with
  | false => exact ⟨first, rfl, rfl, valid, by simpa using keep⟩
  | true =>
    refine ⟨(setBit_view _ pfn pageHighmem (by decide) (by decide)).trans first, rfl, rfl, ?_, ?_⟩
    · intro q
      rw [← valid q]
      exact setFlags_setBit_test _ pfn (by decide) (by decide) q
    · intro q
      rw [← keep q, Bool.and_true]
      exact set _ pageHighmem (by decide) q

private theorem markLoop_spec (highmem : Bool) (n : Nat) : ∀ (s : PageState) (pfn : Nat),
    view (markLoop highmem n s pfn) = view s ∧ (markLoop highmem n s pfn).bugs = s.bugs ∧
      (markLoop highmem n s pfn).highmemStartPfn = s.highmemStartPfn ∧
      (∀ q, (markLoop highmem n s pfn).test pageValid q =
        (decide (pfn ≤ q ∧ q < pfn + n) || s.test pageValid q)) ∧
      ∀ q, (markLoop highmem n s pfn).test pageHighmem q =
        (decide (pfn ≤ q ∧ q < pfn + n) && highmem || s.test pageHighmem q) := by
  induction n with
  | zero =>
    intro s pfn
    refine ⟨rfl, rfl, rfl, ?_, ?_⟩
    · intro q
      simp [markLoop]
    · intro q
      simp [markLoop]
  | succ n ih =>
    intro s pfn
    have unfolded : markLoop highmem (n + 1) s pfn =
        markLoop highmem n (markPage highmem s pfn) (pfn + 1) := rfl
    obtain ⟨free, bugs, zone, valid, high⟩ := markPage_spec highmem s pfn
    obtain ⟨ihView, ihBugs, ihZone, ihValid, ihHigh⟩ := ih (markPage highmem s pfn) (pfn + 1)
    have range : ∀ q, (decide (pfn + 1 ≤ q ∧ q < pfn + 1 + n) || decide (q = pfn)) =
        decide (pfn ≤ q ∧ q < pfn + (n + 1)) := by
      intro q
      rw [← Bool.decide_or]
      congr 1
      apply propext
      omega
    rw [unfolded]
    refine ⟨ihView.trans free, ihBugs.trans bugs, ihZone.trans zone, ?_, ?_⟩
    · intro q
      rw [ihValid q, valid q, ← Bool.or_assoc, range]
    · intro q
      rw [ihHigh q, high q, ← Bool.or_assoc, ← Bool.and_or_distrib_right, range]

/-- The lists `g` hold the blocks `new` besides those of `f`, each in the zone of its first page. -/
structure Filing (s : PageState) (f g : Zone × Nat → List Nat) (new : List Block) : Prop where
  perm : (filed listKeys Prod.snd g).Perm (new ++ filed listKeys Prod.snd f)
  zones : ∀ i ∈ listKeys, ∀ p ∈ g i, p ∈ f i ∨ ((⟨p, i.2⟩ : Block) ∈ new ∧ zoneOf s p = i.1)

private theorem Filing.refl (s : PageState) (f : Zone × Nat → List Nat) : Filing s f f [] :=
  ⟨.refl _, fun _ _ _ mem => .inl mem⟩

private theorem Filing.trans {s : PageState} {f g h : Zone × Nat → List Nat} {new new' : List Block}
    (first : Filing s f g new) (second : Filing s g h new') : Filing s f h (new' ++ new) where
  perm := by
    rw [List.append_assoc]
    exact second.perm.trans (first.perm.append_left new')
  zones i key p mem := by
    rcases second.zones i key p mem with old | ⟨inNew, zone⟩
    · rcases first.zones i key p old with old | ⟨inNew, zone⟩
      · exact .inl old
      · exact .inr ⟨List.mem_append_right _ inNew, zone⟩
    · exact .inr ⟨List.mem_append_left _ inNew, zone⟩

private theorem Filing.congr {s t : PageState} {f g : Zone × Nat → List Nat} {new : List Block}
    (filing : Filing s f g new) (same : ∀ b ∈ new, zoneOf t b.base = zoneOf s b.base) :
    Filing t f g new := by
  refine ⟨filing.perm, fun i key p mem => (filing.zones i key p mem).imp_right ?_⟩
  rintro ⟨inNew, zone⟩
  exact ⟨inNew, (same _ inNew).trans zone⟩

private theorem filing_cons {s : PageState} {f : Zone × Nat → List Nat} {p k : Nat}
    (small : k ≤ maxOrder) :
    Filing s f (Function.update f (zoneOf s p, k) (p :: f (zoneOf s p, k))) [⟨p, k⟩] := by
  refine ⟨filed_cons Prod.snd f listKeys_nodup ((mem_listKeys (zoneOf s p, k)).mpr small) p, ?_⟩
  intro i _ q mem
  rcases mem_insert_iff.mp mem with ⟨rfl, rfl⟩ | old
  · exact .inr ⟨List.mem_singleton.mpr rfl, rfl⟩
  · exact .inl old

structure Filled (s t : PageState) (f g : Zone × Nat → List Nat) (new : List Block) (a b : Nat) :
    Prop where
  frame : Frame s t
  filing : Filing s f g new
  tiling : Tiling new {n | a ≤ n ∧ n < b}

private theorem Filled.trans {s m t : PageState} {f g h : Zone × Nat → List Nat}
    {new new' : List Block}
    {a b c : Nat} (le : a ≤ b) (le' : b ≤ c) (first : Filled s m f g new a b)
    (second : Filled m t g h new' b c) : Filled s t f h (new' ++ new) a c where
  frame := first.frame.trans second.frame
  filing := first.filing.trans (second.filing.congr fun _ _ => (first.frame.zoneOf_eq _).symm)
  tiling := first.tiling.concat le le' second.tiling

private theorem filled_nil (s : PageState) (f : Zone × Nat → List Nat) (a : Nat) :
    Filled s s f f [] a a :=
  ⟨.refl s, .refl s f, Tiling.nil.congr fun n => by simp⟩

private theorem mem_union_range {S : Set Nat} {a b c : Nat} (le : a ≤ b) (le' : b ≤ c) (n : Nat) :
    n ∈ S ∪ {n | a ≤ n ∧ n < b} ∪ {n | b ≤ n ∧ n < c} ↔ n ∈ S ∪ {n | a ≤ n ∧ n < c} := by
  simp only [Set.mem_union, Set.mem_ofPred_eq, or_assoc]
  apply or_congr_right
  omega

private theorem freePage_filled {s : PageState} {f : Zone × Nat → List Nat} {S : Set Nat}
    {out : List Block}
    {p k : Nat} (small : k ≤ maxOrder) (aligned : 2 ^ k ∣ p)
    (fresh : ∀ n, p ≤ n → n < p + 2 ^ k → n ∉ S)
    (held : Held listKeys Prod.snd (view s) [] out S f) :
    ∃ g new, Held listKeys Prod.snd (view (freePage s p k)) [] out
        (S ∪ {n | p ≤ n ∧ n < p + 2 ^ k}) g ∧
      Filled s (freePage s p k) f g new p (p + 2 ^ k) := by
  have taken := held.add (b := ⟨p, k⟩) aligned fun n covered => fresh n covered.1 covered.2
  exact ⟨_, _, freePage_held taken small, freePage_frame s p k, filing_cons small,
    Tiling.single (b := ⟨p, k⟩) aligned⟩

private theorem initFreeLoop_held {start order : Nat} {S : Set Nat} {out : List Block}
    (m : Nat) (small : order ≤ maxOrder) (aligned : 2 ^ order ∣ start)
    (fresh : ∀ n, start ≤ n → n < start + m * 2 ^ order → n ∉ S) (fuel : Nat) :
    ∀ (s : PageState) (c : Nat) (f : Zone × Nat → List Nat), c ≤ m → m ≤ c + fuel →
      Held listKeys Prod.snd (view s) [] out (S ∪ {n | start ≤ n ∧ n < start + c * 2 ^ order}) f →
      ∃ t g new, initFreeLoop start (m * 2 ^ order) order fuel s (c * 2 ^ order) =
          (t, m * 2 ^ order) ∧
        Held listKeys Prod.snd (view t) [] out (S ∪ {n | start ≤ n ∧ n < start + m * 2 ^ order}) g ∧
        Filled s t f g new (start + c * 2 ^ order) (start + m * 2 ^ order) := by
  have pos := Nat.two_pow_pos order
  induction fuel with
  | zero =>
    intro s c f low enough held
    obtain rfl : c = m := by omega
    exact ⟨s, f, [], rfl, held, filled_nil s f _⟩
  | succ fuel ih =>
    intro s c f low enough held
    unfold initFreeLoop
    by_cases more : c < m
    · have below : (c + 1) * 2 ^ order ≤ m * 2 ^ order := Nat.mul_le_mul_right _ more
      have split : (c + 1) * 2 ^ order = c * 2 ^ order + 2 ^ order := by ring
      have next : start + c * 2 ^ order + 2 ^ order = start + (c + 1) * 2 ^ order := by omega
      rw [if_pos (by omega), Nat.one_shiftLeft, ← split]
      obtain ⟨f', new, held', first⟩ := freePage_filled small
        (Nat.dvd_add aligned (Nat.dvd_mul_left _ c)) (by
          rintro n above under (mem | mem)
          · exact fresh n (by omega) (by omega) mem
          · exact absurd mem.2 (by omega)) held
      rw [next] at held' first
      obtain ⟨t, g, new', eq, held'', rest⟩ := ih _ (c + 1) _ more (by omega)
        (held'.congr (mem_union_range (by omega) (by omega)))
      exact ⟨t, g, _, eq, held'', first.trans (by omega) (by omega) rest⟩
    · obtain rfl : c = m := by omega
      rw [if_neg (by omega)]
      exact ⟨s, f, [], rfl, held, filled_nil s f _⟩

private theorem initFreePages_held {order a b : Nat} {S : Set Nat} {out : List Block}
    {s : PageState} {f : Zone × Nat → List Nat} (le : a ≤ b) (word : b < 2 ^ 32)
    (small : order ≤ maxOrder) (first : 2 ^ order ∣ a) (last : 2 ^ order ∣ b)
    (fresh : ∀ n, a ≤ n → n < b → n ∉ S) (held : Held listKeys Prod.snd (view s) [] out S f) :
    ∃ g new, Held listKeys Prod.snd (view (initFreePages s a (wsub b a) order)) [] out
        (S ∪ {n | a ≤ n ∧ n < b}) g ∧
      Filled s (initFreePages s a (wsub b a) order) f g new a b := by
  obtain ⟨m, whole⟩ := Nat.dvd_sub last first
  rw [Nat.mul_comm] at whole
  have span : a + m * 2 ^ order = b := by omega
  have enough : m ≤ 0 + m * 2 ^ order := by
    have := Nat.le_mul_of_pos_right m (Nat.two_pow_pos order)
    omega
  have none : ∀ n, n ∈ S ↔ n ∈ S ∪ {n | a ≤ n ∧ n < a + 0 * 2 ^ order} := by
    intro n
    simp only [Set.mem_union, Set.mem_ofPred_eq, Nat.zero_mul]
    refine ⟨.inl, fun mem => mem.resolve_right ?_⟩
    omega
  obtain ⟨t, g, new, eq, held', filled⟩ := initFreeLoop_held m small first
    (fun n low high => fresh n low (by omega)) (m * 2 ^ order) s 0 f (Nat.zero_le m) enough
    (held.congr none)
  rw [Nat.zero_mul] at eq filled
  rw [span] at held' filled
  have result : initFreePages s a (wsub b a) order = t := by
    rw [wsub_eq le word, whole, initFreePages, eq]
    exact assert_true t (by simp)
  rw [result]
  exact ⟨g, new, held', filled⟩

/-- What `add_free_pages` does between the pages `a` and `b`: new blocks tile the range, each of
them on one side of the boundary, and the flags say so. -/
structure Added (s t : PageState) (f g : Zone × Nat → List Nat) (new : List Block) (a b : Nat) :
    Prop where
  filing : Filing t f g new
  tiling : Tiling new {n | a ≤ n ∧ n < b}
  uniform : ∀ c ∈ new, ∀ n, c.Covers n → (s.highmemStartPfn ≤ n ↔ s.highmemStartPfn ≤ c.base)
  bugs : t.bugs = s.bugs
  boundary : t.highmemStartPfn = s.highmemStartPfn
  valid : ∀ q, t.test pageValid q = (decide (a ≤ q ∧ q < b) || s.test pageValid q)
  highmem : ∀ q, t.test pageHighmem q =
    (decide (a ≤ q ∧ q < b) && decide (s.highmemStartPfn ≤ q) || s.test pageHighmem q)

private theorem initRuns_held {m : PageState} {f : Zone × Nat → List Nat} {S : Set Nat}
    {out : List Block} {a b u d : Nat} (le : a ≤ b) (bound : b ≤ totalPages)
    (up : a ≤ u) (down : d ≤ b) (upDvd : 2 ^ maxOrder ∣ u) (downDvd : 2 ^ maxOrder ∣ d)
    (fresh : ∀ n, a ≤ n → n < b → n ∉ S) (held : Held listKeys Prod.snd (view m) [] out S f)
    {t : PageState} (eq : t = if u ≥ d then initFreePages m a (wsub b a) 0
      else initFreePages (initFreePages (initFreePages m a (wsub u a) 0) u (wsub d u) maxOrder) d
        (wsub b d) 0) :
    ∃ g new, Held listKeys Prod.snd (view t) [] out (S ∪ {n | a ≤ n ∧ n < b}) g ∧
      Filled m t f g new a b := by
  have total : totalPages = 2 ^ 20 := by decide
  have unit : ∀ n, 2 ^ 0 ∣ n := fun n => by simp
  -- a page behind those filed so far is still fresh
  have beyond : ∀ c n, c ≤ n → n < b → a ≤ c → n ∉ S ∪ {n | a ≤ n ∧ n < c} := by
    rintro c n above under low (mem | mem)
    · exact fresh n (by omega) under mem
    · exact absurd mem.2 (by omega)
  subst eq
  split
  · exact initFreePages_held le (by omega) (by decide) (unit a) (unit b) fresh held
  · rename_i cut
    obtain ⟨g₁, new₁, held₁, filled₁⟩ := initFreePages_held up (by omega) (by decide) (unit a)
      (unit u) (fun n low high => fresh n low (by omega)) held
    generalize initFreePages m a (wsub u a) 0 = s₁ at held₁ filled₁ ⊢
    obtain ⟨g₂, new₂, held₂, filled₂⟩ := initFreePages_held (a := u) (b := d) (by omega) (by omega)
      le_rfl upDvd downDvd (fun n low high => beyond u n low (by omega) up) held₁
    generalize initFreePages s₁ u (wsub d u) maxOrder = s₂ at held₂ filled₂ ⊢
    have half := held₂.congr (mem_union_range up (by omega))
    obtain ⟨g₃, new₃, held₃, filled₃⟩ := initFreePages_held down (by omega) (by decide) (unit d)
      (unit b) (fun n low high => beyond d n low high (by omega)) half
    exact ⟨g₃, _, held₃.congr (mem_union_range (by omega) down),
      (filled₁.trans up (by omega) filled₂).trans (by omega) down filled₃⟩

private theorem addFreeZone_added {s : PageState} {f : Zone × Nat → List Nat} {S : Set Nat}
    {out : List Block} {a b : Nat} (highmem : Bool)
    (side : ∀ n, a ≤ n → n < b → (highmem = true ↔ s.highmemStartPfn ≤ n)) (le : a ≤ b)
    (bound : b ≤ totalPages) (fresh : ∀ n, a ≤ n → n < b → n ∉ S)
    (held : Held listKeys Prod.snd (view s) [] out S f) :
    ∃ g new, Held listKeys Prod.snd (view (addFreeZone s a b highmem)) [] out
        (S ∪ {n | a ≤ n ∧ n < b}) g ∧ Added s (addFreeZone s a b highmem) f g new a b := by
  have total : totalPages = 2 ^ 20 := by decide
  have group : 1 <<< maxOrder = 2 ^ maxOrder := Nat.one_shiftLeft maxOrder
  have span : a + (b - a) = b := by omega
  obtain ⟨mView, mBugs, mZone, mValid, mHigh⟩ := markLoop_spec highmem (b - a) s a
  rw [span] at mValid mHigh
  obtain ⟨up, -⟩ := roundUp_bounds (a := a) (n := 1 <<< maxOrder) (by decide)
    (by rw [group]; unfold maxOrder; omega)
  rw [← mView] at held
  have runs := initRuns_held le bound up (roundDown_le b (1 <<< maxOrder))
    (group ▸ dvd_roundUp a (1 <<< maxOrder)) (group ▸ dvd_roundDown b (1 <<< maxOrder)) fresh held
    (t := addFreeZone s a b highmem) rfl
  obtain ⟨g, new, held', frame, filing, tiling⟩ := runs
  refine ⟨g, new, held', filing.congr fun b _ => frame.zoneOf_eq _, tiling, ?_,
    frame.bugs.trans mBugs, frame.boundary.trans mZone, ?_, ?_⟩
  · intro c inNew n covered
    have inside := (tiling.cover n).mp ⟨c, inNew, covered⟩
    have base := (tiling.cover c.base).mp ⟨c, inNew, c.covers_base⟩
    exact (side n inside.1 inside.2).symm.trans (side c.base base.1 base.2)
  · intro q
    rw [frame.flags pageValid (by decide), mValid]
  · intro q
    rw [frame.flags pageHighmem (by decide), mHigh]
    congr 1
    by_cases inside : a ≤ q ∧ q < b
    · rw [Bool.eq_iff_iff]
      simpa [inside] using side q inside.1 inside.2
    · simp [inside]

private theorem Added.trans {s m t : PageState} {f g h : Zone × Nat → List Nat}
    {new new' : List Block} {a b c : Nat} (le : a ≤ b) (le' : b ≤ c) (first : Added s m f g new a b)
    (second : Added m t g h new' b c) : Added s t f h (new' ++ new) a c := by
  obtain ⟨filing, tiling, uniform, bugs, boundary, valid, highmem⟩ := first
  obtain ⟨filing', tiling', uniform', bugs', boundary', valid', highmem'⟩ := second
  rw [boundary] at uniform' boundary' highmem'
  refine ⟨(filing.congr fun d inNew => ?_).trans filing', tiling.concat le le' tiling', ?_,
    bugs'.trans bugs, boundary', ?_, ?_⟩
  · have base := (tiling.cover d.base).mp ⟨d, inNew, d.covers_base⟩
    have outside : ¬ (b ≤ d.base ∧ d.base < c) := fun both => absurd base.2 (by omega)
    simp [zoneOf, highmem', outside]
  · intro d inNew n covered
    rcases List.mem_append.mp inNew with inNew | inNew
    · exact uniform' d inNew n covered
    · exact uniform d inNew n covered
  · intro q
    rw [valid', valid, ← Bool.or_assoc, ← Bool.decide_or]
    congr 2
    apply propext
    omega
  · intro q
    rw [highmem', highmem, ← Bool.or_assoc, ← Bool.and_or_distrib_right, ← Bool.decide_or]
    congr 3
    apply propext
    omega

theorem addFreePages_added {s : PageState} {f : Zone × Nat → List Nat} {S : Set Nat}
    {out : List Block} {a b : Nat} (le : a ≤ b) (bound : b ≤ totalPages)
    (fresh : ∀ n, a ≤ n → n < b → n ∉ S) (held : Held listKeys Prod.snd (view s) [] out S f) :
    ∃ g new, Held listKeys Prod.snd (view (addFreePages s a b)) [] out
        (S ∪ {n | a ≤ n ∧ n < b}) g ∧ Added s (addFreePages s a b) f g new a b := by
  unfold addFreePages addFreePagesRec
  simp only [assert_true s (decide_eq_true le)]
  by_cases high : s.highmemStartPfn ≤ a
  · rw [if_pos high]
    exact addFreeZone_added true (fun n low _ => iff_of_true rfl (by omega)) le bound fresh held
  rw [if_neg high]
  by_cases low : b ≤ s.highmemStartPfn
  · rw [if_pos low]
    exact addFreeZone_added false (fun n _ high => iff_of_false (by simp) (by omega)) le bound fresh
      held
  rw [if_neg low]
  -- the boundary lies strictly inside, so each nested call stays in one zone
  have first : addFreePagesRec 0 s a s.highmemStartPfn =
      addFreeZone s a s.highmemStartPfn false := by
    unfold addFreePagesRec
    simp only [assert_true s (decide_eq_true (show a ≤ s.highmemStartPfn by omega))]
    rw [if_neg high, if_pos le_rfl]
  rw [first]
  obtain ⟨g, new, held₁, added₁⟩ := addFreeZone_added (a := a) (b := s.highmemStartPfn) false
    (fun n _ high => iff_of_false (by simp) (by omega)) (by omega) (by omega)
    (fun n h h' => fresh n h (by omega)) held
  generalize addFreeZone s a s.highmemStartPfn false = m at held₁ added₁ ⊢
  have zone := added₁.boundary
  have second : addFreePagesRec 0 m m.highmemStartPfn b =
      addFreeZone m m.highmemStartPfn b true := by
    unfold addFreePagesRec
    simp only [assert_true m (decide_eq_true (show m.highmemStartPfn ≤ b by omega))]
    rw [if_pos le_rfl]
  rw [second, zone]
  obtain ⟨h, new', held₂, added₂⟩ := addFreeZone_added (a := s.highmemStartPfn) (b := b) true
    (fun n low _ => iff_of_true rfl (by omega)) (by omega) bound (by
      rintro n low high (mem | mem)
      · exact fresh n (by omega) (by omega) mem
      · exact absurd mem.2 (by omega)) held₁
  exact ⟨h, _, held₂.congr (mem_union_range (by omega) (by omega)),
    added₁.trans (by omega) (by omega) added₂⟩

private theorem addFreePages_tiled {s : PageState} {S : Set Nat} {out : List Block} {a b : Nat}
    (le : a ≤ b) (bound : b ≤ totalPages) (fresh : ∀ n, a ≤ n → n < b → n ∉ S)
    (tiled : Tiled s [] out S) (valid : ValidOn s S) :
    Tiled (addFreePages s a b) [] out (S ∪ {n | a ≤ n ∧ n < b}) ∧
      ValidOn (addFreePages s a b) (S ∪ {n | a ≤ n ∧ n < b}) ∧
      (addFreePages s a b).bugs = s.bugs := by
  obtain ⟨f, held⟩ := tiled
  obtain ⟨g, new, held', added⟩ := addFreePages_added le bound fresh held
  refine ⟨⟨g, held'⟩, fun q => ?_, added.bugs⟩
  rw [added.valid, Bool.or_eq_true, decide_eq_true_iff, valid q]
  exact or_comm

end AddFreePages

section Runs

structure PageRun where
  state : PageState
  out : List Block

inductive PageOp
  | alloc (gfpMask : BitVec 32) (order : Nat)
  | free (page : Nat)

def pageStep (r : PageRun) : PageOp → Option PageRun
  | .alloc gfpMask order =>
      match allocPages r.state gfpMask order with
      | (some page, t) => some ⟨t, ⟨page, order⟩ :: r.out⟩
      | (none, t) => some ⟨t, r.out⟩
  | .free page =>
      (r.out.find? (fun b => b.base == page)).map
        (fun b => ⟨freePages r.state page, r.out.erase b⟩)

def boot (links : Links (Zone × Nat) Nat) (highmemStartPfn : Nat) (ranges : List (Nat × Nat)) :
    PageRun where
  state := ranges.foldl (fun s r => addFreePages s r.1 r.2) (pageInit links highmemStartPfn)
  out := []

def InRange (r : Nat × Nat) (n : Nat) : Prop := r.1 ≤ n ∧ n < r.2

def Ranges (ranges : List (Nat × Nat)) : Prop :=
  (∀ r ∈ ranges, r.1 ≤ r.2 ∧ r.2 ≤ totalPages) ∧
    ranges.Pairwise (fun a b => ∀ n, ¬ (InRange a n ∧ InRange b n))

def added (ranges : List (Nat × Nat)) : Set Nat := {n | ∃ r ∈ ranges, InRange r n}

def PageSafe (S : Set Nat) (r : PageRun) : Prop :=
  ∃ f, Rings r.state.links {i | i.2 ≤ maxOrder} f ∧ r.out.Pairwise Block.Apart ∧
    (filed listKeys Prod.snd f).Pairwise Block.Apart ∧
    (∀ a ∈ r.out, ∀ b ∈ filed listKeys Prod.snd f, a.Apart b) ∧
    ∀ n, ((∃ b ∈ r.out, b.Covers n) ∨ ∃ b ∈ filed listKeys Prod.snd f, b.Covers n) ↔ n ∈ S

def buddiesMatch (r : PageRun) : PageOp → Bool
  | .alloc _ _ => true
  | .free page => mergesMatch r.state page (r.state.pages page).order

structure PageInv (S : Set Nat) (r : PageRun) : Prop where
  tiled : Tiled r.state [] r.out S
  valid : ValidOn r.state S
  quiet : r.state.bugs = 0
  small : ∀ b ∈ r.out, b.order ≤ maxOrder

private theorem PageInv.safe {S : Set Nat} {r : PageRun} (inv : PageInv S r) : PageSafe S r := by
  obtain ⟨f, held⟩ := inv.tiled
  have keys : {i : Zone × Nat | i.2 ≤ maxOrder} = {i | i ∈ listKeys} := by
    ext i
    exact (mem_listKeys i).symm
  obtain ⟨outs, frees, across⟩ := List.pairwise_append.mp
    (show (r.out ++ filed listKeys Prod.snd f).Pairwise Block.Apart from held.tiling.apart)
  refine ⟨f, keys ▸ held.rings, outs, frees, across, ?_⟩
  intro n
  rw [← held.tiling.cover n]
  simp only [List.nil_append, List.mem_append, or_and_right, exists_or]

private theorem boot_fold {out : List Block} (ranges : List (Nat × Nat)) :
    ∀ (s : PageState) (S : Set Nat), Ranges ranges →
      (∀ r ∈ ranges, ∀ n, InRange r n → n ∉ S) →
      PageInv S ⟨s, out⟩ → PageInv (S ∪ added ranges)
        ⟨ranges.foldl (fun s r => addFreePages s r.1 r.2) s, out⟩ := by
  induction ranges with
  | nil =>
    intro s S _ _ inv
    have none : S ∪ added [] = S := by
      ext n
      simp [added]
    rw [none]
    exact inv
  | cons r ranges ih =>
    intro s S ok fresh inv
    obtain ⟨apart, rest⟩ := List.pairwise_cons.mp ok.2
    have here := ok.1 r (by simp)
    obtain ⟨tiled, valid, quiet⟩ := addFreePages_tiled here.1 here.2
      (fun n low high => fresh r (by simp) n ⟨low, high⟩) inv.tiled inv.valid
    have next := ih (addFreePages s r.1 r.2) (S ∪ {n | r.1 ≤ n ∧ n < r.2})
      ⟨fun q hq => ok.1 q (by simp [hq]), rest⟩ (by
        intro q hq n inside mem
        rcases mem with mem | mem
        · exact fresh q (by simp [hq]) n inside mem
        · exact apart q hq n ⟨mem, inside⟩) ⟨tiled, valid, quiet.trans inv.quiet, inv.small⟩
    have same : S ∪ {n | r.1 ≤ n ∧ n < r.2} ∪ added ranges = S ∪ added (r :: ranges) := by
      ext n
      simp only [added, InRange, Set.mem_union, Set.mem_ofPred_eq, List.mem_cons,
        exists_eq_or_imp, or_assoc]
    rw [same] at next
    exact next

theorem boot_inv (links : Links (Zone × Nat) Nat) (highmem : Nat) {ranges : List (Nat × Nat)}
    (ok : Ranges ranges) : PageInv (added ranges) (boot links highmem ranges) := by
  have start : PageInv ∅ ⟨pageInit links highmem, []⟩ := by
    refine ⟨pageInit_tiled links highmem, ?_, rfl, by simp⟩
    intro p
    have zero : (pageInit links highmem).test pageValid p = false := by
      change testBit pageValid 0#32 = false
      decide
    simp [zero]
  have done := boot_fold ranges _ ∅ ok (by simp) start
  rwa [Set.empty_union] at done

private theorem pageStep_inv {S : Set Nat} (r : PageRun) (op : PageOp) (t : PageRun)
    (inv : PageInv S r) (ok : buddiesMatch r op = true) (step : pageStep r op = some t) :
    PageInv S t := by
  cases op with
  | alloc gfpMask order =>
    simp only [pageStep] at step
    rcases allocPages_tiled inv.tiled inv.valid inv.quiet gfpMask order with
      fail | ⟨p, u, eq, small, tiled, valid, quiet⟩
    · rw [fail] at step
      obtain rfl := Option.some.inj step
      exact inv
    · rw [eq] at step
      obtain rfl := Option.some.inj step
      refine ⟨tiled, valid, quiet, ?_⟩
      intro b hb
      rcases List.mem_cons.mp hb with rfl | hb
      · exact small
      · exact inv.small b hb
  | free page =>
    obtain ⟨b, found, rfl⟩ := Option.map_eq_some_iff.mp step
    have mem : b ∈ r.out := List.mem_of_find?_eq_some found
    have base : b.base = page := by simpa using List.find?_some found
    subst base
    have field : (r.state.pages b.base).order = b.order := by
      obtain ⟨f, held⟩ := inv.tiled
      exact (held.given b mem).1
    simp only [buddiesMatch, field] at ok
    obtain ⟨tiled, valid, quiet⟩ :=
      freePages_tiled inv.tiled inv.valid inv.quiet mem (inv.small b mem) ok
    refine ⟨tiled, valid, quiet, ?_⟩
    intro c hc
    exact inv.small c (List.mem_of_mem_erase hc)

/-- In every run from boot whose frees only meet buddies of matching order, outstanding
and free blocks stay disjoint and cover exactly the added pages, and no assertion fails. -/
theorem page_run_safe (links : Links (Zone × Nat) Nat) (highmemStartPfn : Nat)
    (ranges : List (Nat × Nat)) (ok : Ranges ranges) (t : PageRun)
    (run : Run pageStep (fun r op => buddiesMatch r op = true)
      (boot links highmemStartPfn ranges) t) :
    PageSafe (added ranges) t ∧ t.state.bugs = 0 := by
  have inv : PageInv (added ranges) t :=
    run.invariant (boot_inv links highmemStartPfn ok) (fun s op u => pageStep_inv s op u)
  exact ⟨inv.safe, inv.quiet⟩

def twoPages : PageRun := boot ⟨id, id⟩ 0x38000 [(0, 2)]

def twoPagesOps : List PageOp := [.alloc 2#32 0, .free 1, .alloc 1#32 0]

/-- Two pages, one allocated and freed again: the two merge, and the run is safe. -/
theorem page_run_safe_two_pages :
    ∃ t, exec pageStep buddiesMatch twoPages twoPagesOps = some t ∧
      PageSafe (added [(0, 2)]) t ∧ t.state.bugs = 0 := by
  have some' : (exec pageStep buddiesMatch twoPages twoPagesOps).isSome = true := by decide
  obtain ⟨t, eq⟩ := Option.isSome_iff_exists.mp some'
  refine ⟨t, eq, page_run_safe ⟨id, id⟩ 0x38000 [(0, 2)] ⟨?_, by simp⟩ t (Run.of_exec eq)⟩
  intro r hr
  obtain rfl := List.mem_singleton.mp hr
  decide

def fourPages : PageRun := boot ⟨id, id⟩ 0x38000 [(0, 4)]

def fourPagesEnd : PageRun :=
  ⟨freePages (allocPages fourPages.state 2#32 0).2 3, []⟩

/-- Four single pages: allocating page 3 and freeing it merges page 0 of order 0 as if it
had order 1, and files `[0, 4)` while page 1 is still filed on its own. -/
theorem page_run_unsafe_four_pages :
    ¬ ∀ (links : Links (Zone × Nat) Nat) (highmemStartPfn : Nat) (ranges : List (Nat × Nat)),
      Ranges ranges → ∀ t, Run pageStep Free (boot links highmemStartPfn ranges) t →
        PageSafe (added ranges) t := by
  intro claim
  have run : Run pageStep Free fourPages fourPagesEnd := by
    have eq : exec pageStep (fun _ _ => true) fourPages [.alloc 2#32 0, .free 3] =
        some fourPagesEnd := by rfl
    exact (Run.of_exec eq).mono (fun _ _ _ => trivial)
  obtain ⟨f, rings, _, frees, _⟩ := claim ⟨id, id⟩ 0x38000 [(0, 4)]
    ⟨by intro r hr; obtain rfl := List.mem_singleton.mp hr; decide, by simp⟩ fourPagesEnd run
  have whole : 0 ∈ f (.linear, 2) := rings.first_mem (by decide) (by decide)
  have single : 1 ∈ f (.linear, 0) := rings.first_mem (by decide) (by decide)
  have wholeFiled : (⟨0, 2⟩ : Block) ∈ filed listKeys Prod.snd f :=
    mem_filed.mpr ⟨(.linear, 2), by decide, whole, rfl⟩
  have singleFiled : (⟨1, 0⟩ : Block) ∈ filed listKeys Prod.snd f :=
    mem_filed.mpr ⟨(.linear, 0), by decide, single, rfl⟩
  have apart := frees.forall wholeFiled singleFiled (by decide)
  revert apart
  decide

end Runs

end OhMyOs.Mm.PageRuns
