/- GID: OhMyOs/Graphic/Gpu
   generality: I
   digest: Which bytes of video memory gpu_fill_rect writes, for every screen and rectangle. -/

import Mathlib.Data.Nat.Basic
import Mathlib.Logic.Function.Basic
import Mathlib.Tactic.IntervalCases
import OhMyOs.Include.Constants

set_option autoImplicit false
set_option relaxedAutoImplicit false

namespace OhMyOs.Graphic.Gpu

open OhMyOs.Include.Constants

inductive Fault
  | assertion
  deriving DecidableEq

structure Color where
  b : Byte
  g : Byte
  r : Byte

structure GpuInfo where
  width : Nat
  height : Nat
  pixelbits : Nat
  vram : Nat
  width_lt : width < 2 ^ 16
  height_lt : height < 2 ^ 16
  pixelbits_lt : pixelbits < 2 ^ 8
  vram_lt : vram < 2 ^ 32

structure Mem where
  bytes : Nat → Byte
  writes : List Nat

def assert (expr : Bool) : Except Fault Unit :=
  if expr then .ok () else .error .assertion

def assertPoint (gpu : GpuInfo) (x y : Nat) : Except Fault Unit :=
  assert (x < gpu.width && y < gpu.height)

def pixelBytes (gpu : GpuInfo) : Nat := gpu.pixelbits >>> 3

def vramSize (gpu : GpuInfo) : Nat := gpu.height * gpu.width * pixelBytes gpu % 2 ^ 32

def vramPixel (gpu : GpuInfo) (x y : Nat) : Nat :=
  (gpu.vram + (gpu.width * y + x) * pixelBytes gpu) % 2 ^ 32

def put (m : Mem) (a : Nat) (byte : Byte) : Mem :=
  ⟨Function.update m.bytes (a % 2 ^ 32) byte, a % 2 ^ 32 :: m.writes⟩

def store (m : Mem) (p : Nat) (c : Color) : Mem := put (put (put m p c.b) (p + 1) c.g) (p + 2) c.r

def fillRow (c : Color) : Nat → Mem → Nat → Mem
  | 0, m, _ => m
  | n + 1, m, p => fillRow c n (store m p c) ((p + 3) % 2 ^ 32)

def fillRows (gpu : GpuInfo) (x1 x2 : Nat) (c : Color) : Nat → Mem → Nat → Mem
  | 0, m, _ => m
  | n + 1, m, y => fillRows gpu x1 x2 c n (fillRow c (x2 + 1 - x1) m (vramPixel gpu x1 y)) (y + 1)

def gpuFillRect (gpu : GpuInfo) (m : Mem) (x1 y1 x2 y2 : Nat) (c : Color) : Except Fault Mem := do
  assertPoint gpu x1 y1
  assertPoint gpu x2 y2
  assert (x1 < x2)
  assert (y1 < y2)
  return fillRows gpu x1 x2 c (y2 + 1 - y1) m y1

def pixelByte (gpu : GpuInfo) (x y k : Nat) : Nat := (vramPixel gpu x y + k) % 2 ^ 32

def Color.byte (c : Color) : Nat → Byte
  | 0 => c.b
  | 1 => c.g
  | _ => c.r

/-- The pixels of the rectangle have the colour, the others are as before, and the stores go to
video memory. -/
structure Filled (gpu : GpuInfo) (m m' : Mem) (x1 y1 x2 y2 : Nat) (c : Color) : Prop where
  filled : ∀ x y k, x1 ≤ x → x ≤ x2 → y1 ≤ y → y ≤ y2 → k < 3 →
    m'.bytes (pixelByte gpu x y k) = c.byte k
  kept : ∀ x y k, x < gpu.width → y < gpu.height →
    ¬ (x1 ≤ x ∧ x ≤ x2 ∧ y1 ≤ y ∧ y ≤ y2) → k < 3 →
      m'.bytes (pixelByte gpu x y k) = m.bytes (pixelByte gpu x y k)
  inside : ∀ a ∈ m'.writes, a ∈ m.writes ∨ gpu.vram ≤ a ∧ a < gpu.vram + vramSize gpu

def FillExact (gpu : GpuInfo) : Prop :=
  ∀ m x1 y1 x2 y2 c, x1 < x2 → x2 < gpu.width → y1 < y2 → y2 < gpu.height →
    ∃ m', gpuFillRect gpu m x1 y1 x2 y2 c = .ok m' ∧ Filled gpu m m' x1 y1 x2 y2 c

variable {gpu : GpuInfo} {m m' : Mem} {c : Color} {n p a : Nat}

private theorem gpuFillRect_ok {x1 y1 x2 y2 : Nat} (left : x1 < x2) (right : x2 < gpu.width)
    (top : y1 < y2) (bottom : y2 < gpu.height) :
    gpuFillRect gpu m x1 y1 x2 y2 c = .ok (fillRows gpu x1 x2 c (y2 + 1 - y1) m y1) := by
  simp only [gpuFillRect, assertPoint, assert, Bool.and_eq_true, decide_eq_true_eq]
  rw [if_pos ⟨by omega, by omega⟩, if_pos ⟨right, bottom⟩, if_pos left, if_pos top]
  rfl

/-! ### Bytes that are not written -/

structure Logged (m m' : Mem) : Prop where
  writes : ∀ a ∈ m.writes, a ∈ m'.writes
  bytes : ∀ a, a ∉ m'.writes → m'.bytes a = m.bytes a

private theorem Logged.trans {m'' : Mem} (first : Logged m m') (second : Logged m' m'') :
    Logged m m'' where
  writes a member := second.writes a (first.writes a member)
  bytes a other := (second.bytes a other).trans (first.bytes a fun member =>
    other (second.writes a member))

private theorem put_logged (m : Mem) (a : Nat) (byte : Byte) : Logged m (put m a byte) where
  writes b member := List.mem_cons_of_mem _ member
  bytes b other := by
    refine Function.update_of_ne (fun eq => other ?_) _ _
    rw [eq]
    exact List.mem_cons_self

private theorem store_logged (m : Mem) (p : Nat) (c : Color) : Logged m (store m p c) :=
  (put_logged m p c.b).trans ((put_logged _ (p + 1) c.g).trans (put_logged _ (p + 2) c.r))

private theorem fillRow_logged (c : Color) (n : Nat) (m : Mem) (p : Nat) :
    Logged m (fillRow c n m p) := by
  induction n generalizing m p with
  | zero => exact ⟨fun _ member => member, fun _ _ => rfl⟩
  | succ n ih => exact (store_logged m p c).trans (ih _ _)

private theorem fillRows_logged (gpu : GpuInfo) (x1 x2 : Nat) (c : Color) (n : Nat) (m : Mem)
    (y : Nat) :
    Logged m (fillRows gpu x1 x2 c n m y) := by
  induction n generalizing m y with
  | zero => exact ⟨fun _ member => member, fun _ _ => rfl⟩
  | succ n ih => exact (fillRow_logged c _ m _).trans (ih _ _)

private theorem fillRow_writes (member : a ∈ (fillRow c n m p).writes) :
    a ∈ m.writes ∨ ∃ j < 3 * n, a = (p + j) % 2 ^ 32 := by
  induction n generalizing m p with
  | zero => exact .inl member
  | succ n ih =>
    rcases ih member with before | ⟨j, small, eq⟩
    · simp only [store, put, List.mem_cons] at before
      rcases before with third | second | first | before
      · exact .inr ⟨2, by omega, third⟩
      · exact .inr ⟨1, by omega, second⟩
      · exact .inr ⟨0, by omega, first⟩
      · exact .inl before
    · exact .inr ⟨j + 3, by omega, by omega⟩

/-! ### Screens with three bytes a pixel -/

structure Painted (base : Nat) (c : Color) (P : Nat → Prop) (m m' : Mem) : Prop where
  paint : ∀ i k, P i → k < 3 → m'.bytes (base + 3 * i + k) = c.byte k
  keep : ∀ i k, ¬ P i → k < 3 → m'.bytes (base + 3 * i + k) = m.bytes (base + 3 * i + k)
  writes : ∀ a ∈ m'.writes, a ∈ m.writes ∨ ∃ i k, P i ∧ k < 3 ∧ a = base + 3 * i + k

private theorem Painted.refl (base : Nat) (c : Color) {P : Nat → Prop} (none : ∀ i, ¬ P i)
    (m : Mem) :
    Painted base c P m m :=
  ⟨fun i _ inside => absurd inside (none i), fun _ _ _ _ => rfl, fun _ member => .inl member⟩

private theorem Painted.trans {base : Nat} {P Q R : Nat → Prop} {m'' : Mem}
    (first : Painted base c P m m') (second : Painted base c Q m' m'') (or : ∀ i, R i ↔ P i ∨ Q i) :
    Painted base c R m m'' := by
  refine ⟨fun i k inside small => ?_, fun i k outside small => ?_, fun a member => ?_⟩
  · by_cases again : Q i
    · exact second.paint i k again small
    · rw [second.keep i k again small]
      exact first.paint i k (((or i).mp inside).resolve_right again) small
  · rw [or, not_or] at outside
    rw [second.keep i k outside.2 small, first.keep i k outside.1 small]
  · rcases second.writes a member with before | ⟨i, k, inside, rest⟩
    · rcases first.writes a before with start | ⟨i, k, inside, rest⟩
      · exact .inl start
      · exact .inr ⟨i, k, (or i).mpr (.inl inside), rest⟩
    · exact .inr ⟨i, k, (or i).mpr (.inr inside), rest⟩

private theorem put_bytes (small : p < 2 ^ 32) (byte : Byte) :
    (put m p byte).bytes = Function.update m.bytes p byte ∧
      (put m p byte).writes = p :: m.writes := by
  rw [put, Nat.mod_eq_of_lt small]
  exact ⟨rfl, rfl⟩

private theorem store_painted {base i : Nat} (fits : base + 3 * (i + 1) ≤ 2 ^ 32) :
    Painted base c (· = i) m (store m (base + 3 * i) c) := by
  have first := put_bytes (m := m) (show base + 3 * i < 2 ^ 32 by omega) c.b
  have second := put_bytes (m := put m (base + 3 * i) c.b)
    (show base + 3 * i + 1 < 2 ^ 32 by omega) c.g
  have third := put_bytes (m := put (put m (base + 3 * i) c.b) (base + 3 * i + 1) c.g)
    (show base + 3 * i + 2 < 2 ^ 32 by omega) c.r
  refine ⟨?_, fun j k other small => ?_, fun a member => ?_⟩
  · rintro j k rfl small
    rw [store, third.1, second.1, first.1]
    interval_cases k
    · rw [Function.update_of_ne (by omega), Function.update_of_ne (by omega)]
      exact Function.update_self ..
    · rw [Function.update_of_ne (by omega)]
      exact Function.update_self ..
    · exact Function.update_self ..
  · rw [store, third.1, second.1, first.1, Function.update_of_ne (by omega),
      Function.update_of_ne (by omega), Function.update_of_ne (by omega)]
  · rw [store, third.2, second.2, first.2] at member
    simp only [List.mem_cons] at member
    rcases member with rfl | rfl | rfl | before
    · exact .inr ⟨i, 2, rfl, by decide, rfl⟩
    · exact .inr ⟨i, 1, rfl, by decide, rfl⟩
    · exact .inr ⟨i, 0, rfl, by decide, rfl⟩
    · exact .inl before

private theorem fillRow_painted {base i : Nat} (fits : base + 3 * (i + n) ≤ 2 ^ 32) :
    Painted base c (fun j => i ≤ j ∧ j < i + n) m
      (fillRow c n m ((base + 3 * i) % 2 ^ 32)) := by
  induction n generalizing m i with
  | zero => exact .refl base c (fun j => by omega) m
  | succ n ih =>
    rw [Nat.mod_eq_of_lt (by omega), fillRow]
    refine (store_painted (by omega)).trans (ih (i := i + 1) (by omega)) fun j => ?_
    omega

private theorem fillRows_painted {x1 x2 y : Nat} (three : pixelBytes gpu = 3) (order : x1 ≤ x2)
    (right : x2 < gpu.width) (bottom : y + n ≤ gpu.height)
    (fits : gpu.vram + 3 * (gpu.width * gpu.height) ≤ 2 ^ 32) :
    Painted gpu.vram c
      (fun j => ∃ r, y ≤ r ∧ r < y + n ∧ gpu.width * r + x1 ≤ j ∧ j ≤ gpu.width * r + x2) m
      (fillRows gpu x1 x2 c n m y) := by
  induction n generalizing m y with
  | zero => exact .refl _ c (fun j => by rintro ⟨r, low, high, -⟩; omega) m
  | succ n ih =>
    have row : gpu.width * (y + 1) ≤ gpu.width * gpu.height :=
      Nat.mul_le_mul_left _ (by omega)
    rw [Nat.mul_succ] at row
    have start : vramPixel gpu x1 y = (gpu.vram + 3 * (gpu.width * y + x1)) % 2 ^ 32 := by
      rw [vramPixel, three, Nat.mul_comm _ 3]
    rw [fillRows, start]
    refine (fillRow_painted (by omega)).trans (ih (y := y + 1) (by omega)) fun j => ?_
    constructor
    · rintro ⟨r, low, high, inside⟩
      rcases Nat.eq_or_lt_of_le low with rfl | later
      · exact .inl (by omega)
      · exact .inr ⟨r, later, by omega, inside⟩
    · rintro (inside | ⟨r, low, high, inside⟩)
      · exact ⟨y, le_refl y, by omega, by omega⟩
      · exact ⟨r, by omega, by omega, inside⟩

private theorem fillExact_of_fits (three : pixelBytes gpu = 3)
    (fits : gpu.vram + 3 * (gpu.width * gpu.height) ≤ 2 ^ 32) : FillExact gpu := by
  intro m x1 y1 x2 y2 c left right top bottom
  refine ⟨_, gpuFillRect_ok left right top bottom, ?_⟩
  have painted := fillRows_painted (m := m) (c := c) (n := y2 + 1 - y1) three left.le right
    (y := y1) (by omega) fits
  have cell : ∀ x y, x < gpu.width → y < gpu.height →
      gpu.width * y + x < gpu.width * gpu.height := by
    intro x y inRow inColumn
    have row : gpu.width * (y + 1) ≤ gpu.width * gpu.height := Nat.mul_le_mul_left _ inColumn
    rw [Nat.mul_succ] at row
    omega
  have place : ∀ x y k, x < gpu.width → y < gpu.height → k < 3 →
      pixelByte gpu x y k = gpu.vram + 3 * (gpu.width * y + x) + k := by
    intro x y k inRow inColumn small
    have inside := cell x y inRow inColumn
    rw [pixelByte, vramPixel, three, Nat.mul_comm _ 3, Nat.mod_eq_of_lt (by omega),
      Nat.mod_eq_of_lt (by omega)]
  refine ⟨fun x y k low high first last small => ?_, fun x y k inRow inColumn outside small => ?_,
    fun a member => ?_⟩
  · rw [place x y k (by omega) (by omega) small]
    exact painted.paint _ k ⟨y, first, by omega, by omega, by omega⟩ small
  · rw [place x y k inRow inColumn small]
    refine painted.keep _ k ?_ small
    rintro ⟨r, first, last, low, high⟩
    -- the index is in one row only
    rcases Nat.lt_trichotomy r y with above | rfl | below
    · have rows : gpu.width * (r + 1) ≤ gpu.width * y := Nat.mul_le_mul_left _ above
      rw [Nat.mul_succ] at rows
      omega
    · exact outside (by omega)
    · have rows : gpu.width * (y + 1) ≤ gpu.width * r := Nat.mul_le_mul_left _ below
      rw [Nat.mul_succ] at rows
      omega
  · refine (painted.writes a member).imp_right ?_
    rintro ⟨i, k, ⟨r, first, last, low, high⟩, small, rfl⟩
    have inside := cell x2 r right (by omega)
    have size : vramSize gpu = 3 * (gpu.width * gpu.height) := by
      rw [vramSize, three, Nat.mul_comm gpu.height, Nat.mul_comm _ 3, Nat.mod_eq_of_lt]
      have := gpu.vram_lt
      omega
    omega

/-! ### Screens where it is not -/

def black : Mem := ⟨fun _ => 0, []⟩

def white : Color := ⟨255, 255, 255⟩

private theorem FillExact.inside (exact : FillExact gpu) {x1 y1 x2 y2 x y k : Nat} (left : x1 < x2)
    (right : x2 < gpu.width) (top : y1 < y2) (bottom : y2 < gpu.height) (low : x1 ≤ x)
    (high : x ≤ x2) (first : y1 ≤ y) (last : y ≤ y2) (small : k < 3) :
    gpu.vram ≤ pixelByte gpu x y k ∧ pixelByte gpu x y k < gpu.vram + vramSize gpu := by
  obtain ⟨m', done, filled⟩ := exact black x1 y1 x2 y2 white left right top bottom
  rw [gpuFillRect_ok left right top bottom] at done
  obtain rfl := Except.ok.inj done
  have coloured := filled.filled x y k low high first last small
  by_cases member : pixelByte gpu x y k ∈
      (fillRows gpu x1 x2 white (y2 + 1 - y1) black y1).writes
  · exact (filled.inside _ member).resolve_left nofun
  · rw [(fillRows_logged gpu x1 x2 white _ black y1).bytes _ member] at coloured
    interval_cases k <;> cases coloured

private theorem not_fillExact_four (four : pixelBytes gpu = 4) (wide : 2 ≤ gpu.width)
    (tall : 2 ≤ gpu.height) : ¬ FillExact gpu := by
  intro exact
  obtain ⟨m', done, filled⟩ := exact black 0 0 1 1 white (by decide) wide (by decide) tall
  rw [gpuFillRect_ok (by decide) wide (by decide) tall] at done
  obtain rfl := Except.ok.inj done
  have coloured := filled.filled 1 0 2 (by decide) (le_refl 1) (le_refl 0) (by decide) (by decide)
  have address : pixelByte gpu 1 0 2 = (gpu.vram + 6) % 2 ^ 32 := by
    rw [pixelByte, vramPixel, four]
    omega
  have narrow := gpu.width_lt
  have unwritten : pixelByte gpu 1 0 2 ∉
      (fillRows gpu 0 1 white (1 + 1 - 0) black 0).writes := by
    rw [address]
    intro member
    rcases fillRow_writes member with member | ⟨j, small, eq⟩
    · rcases fillRow_writes member with member | ⟨j, small, eq⟩
      · cases member
      · rw [vramPixel, four] at eq
        omega
    · rw [vramPixel, four] at eq
      omega
  rw [(fillRows_logged gpu 0 1 white _ black 0).bytes _ unwritten] at coloured
  cases coloured

/-- The index of the pixel whose first byte is the last one before the addresses start again. -/
def aliasIndex : Nat := 1431655765

private theorem not_fillExact_large (three : pixelBytes gpu = 3) (wide : 2 ≤ gpu.width)
    (tall : 2 ≤ gpu.height) (large : 2 ^ 32 < gpu.vram + 3 * (gpu.width * gpu.height)) :
    ¬ FillExact gpu := by
  intro exact
  have narrow := gpu.width_lt
  have low := gpu.vram_lt
  by_cases once : 3 * (gpu.width * gpu.height) ≤ 2 ^ 32
  · have last := (exact.inside (x := gpu.width - 1) (y := gpu.height - 1) (k := 2)
      (show gpu.width - 2 < gpu.width - 1 by omega) (by omega)
      (show gpu.height - 2 < gpu.height - 1 by omega) (by omega) (by omega) (le_refl _) (by omega)
      (le_refl _) (by decide)).1
    obtain ⟨h, height⟩ : ∃ h, gpu.height = h + 1 := ⟨gpu.height - 1, by omega⟩
    rw [pixelByte, vramPixel, three, height] at last
    rw [height, Nat.mul_succ] at large once
    rw [Nat.add_sub_cancel] at last
    omega
  · have row : aliasIndex / gpu.width < gpu.height := by
      rw [Nat.div_lt_iff_lt_mul (by omega), Nat.mul_comm]
      unfold aliasIndex
      omega
    have second : 2 ≤ aliasIndex / gpu.width := by
      rw [Nat.le_div_iff_mul_le (by omega)]
      unfold aliasIndex
      omega
    have column : aliasIndex % gpu.width < gpu.width := Nat.mod_lt _ (by omega)
    have index := Nat.div_add_mod aliasIndex gpu.width
    obtain ⟨x1, x2, left, right, start, stop⟩ : ∃ x1 x2, x1 < x2 ∧ x2 < gpu.width ∧
        x1 ≤ aliasIndex % gpu.width ∧ aliasIndex % gpu.width ≤ x2 := by
      by_cases inner : aliasIndex % gpu.width + 1 < gpu.width
      · exact ⟨_, _, Nat.lt_succ_self _, inner, le_refl _, Nat.le_succ _⟩
      · exact ⟨aliasIndex % gpu.width - 1, aliasIndex % gpu.width, by omega, column, by omega,
          le_refl _⟩
    obtain ⟨m', -, filled⟩ := exact black x1 (aliasIndex / gpu.width - 1) x2
      (aliasIndex / gpu.width) white left right (by omega) row
    have coloured := filled.filled (aliasIndex % gpu.width) (aliasIndex / gpu.width) 1 start stop
      (by omega) (le_refl _) (by decide)
    have kept := filled.kept 0 0 0 (by omega) (by omega) (by omega) (by decide)
    have same : pixelByte gpu (aliasIndex % gpu.width) (aliasIndex / gpu.width) 1 =
        pixelByte gpu 0 0 0 := by
      rw [pixelByte, vramPixel, pixelByte, vramPixel, three, index]
      unfold aliasIndex
      omega
    rw [same, kept] at coloured
    cases coloured

theorem fillExact_iff (gpu : GpuInfo) (bits : gpu.pixelbits = 24 ∨ gpu.pixelbits = 32) :
    FillExact gpu ↔
      gpu.pixelbits = 24 ∧ gpu.vram + 3 * (gpu.width * gpu.height) ≤ 2 ^ 32 ∨
        gpu.width < 2 ∨ gpu.height < 2 := by
  constructor
  · intro exact
    by_contra other
    rw [not_or, not_or, not_and_or, Nat.not_lt, Nat.not_lt, Nat.not_le] at other
    obtain ⟨cause, wide, tall⟩ := other
    rcases bits with three | four
    · have bytes : pixelBytes gpu = 3 := by rw [pixelBytes, three]; rfl
      exact not_fillExact_large bytes wide tall (cause.resolve_left (not_not_intro three)) exact
    · have bytes : pixelBytes gpu = 4 := by rw [pixelBytes, four]; rfl
      exact not_fillExact_four bytes wide tall exact
  · rintro (⟨three, fits⟩ | narrow | flat)
    · exact fillExact_of_fits (by rw [pixelBytes, three]; rfl) fits
    · intro m x1 y1 x2 y2 c left right
      omega
    · intro m x1 y1 x2 y2 c _ _ top bottom
      omega

/-- The mode 0x118 that setup.S asks the video BIOS for. -/
def screen (bits : Nat) (small : bits < 2 ^ 8) : GpuInfo :=
  ⟨1024, 768, bits, 0xFD000000, by decide, by decide, small, by decide⟩

theorem fillExact_iff_screen : FillExact (screen 24 (by decide)) :=
  (fillExact_iff (screen 24 (by decide)) (.inl rfl)).mpr (.inl ⟨rfl, by decide⟩)

/-- On the same screen with 32 bits a pixel, a fill of two by two pixels leaves the third byte of
the second one black. -/
theorem gpuFillRect_misses :
    ((gpuFillRect (screen 32 (by decide)) black 0 0 1 1 white).toOption.map fun m =>
        (List.range 8).map fun a => m.bytes (0xFD000000 + a)) =
      some [255, 255, 255, 255, 255, 255, 0, 0] ∧ ¬ FillExact (screen 32 (by decide)) :=
  ⟨by decide +kernel, not_fillExact_four rfl (by decide) (by decide)⟩

end OhMyOs.Graphic.Gpu
