/- GID: OhMyOs/Libs/HexText
   generality: I
   digest: The text that to_hex makes of a word, and what hex_to_value accepts. -/

import OhMyOs.Libs.DecimalText
import OhMyOs.Libs.GrowableStringContents

set_option autoImplicit false
set_option relaxedAutoImplicit false

namespace OhMyOs.Libs.GrowableString

open OhMyOs.Include.Constants
open OhMyOs.Lib.Digits OhMyOs.Lib.Outcome OhMyOs.Lib.Stores

/-! ### hex_to_value -/

def isNum (c : Byte) : Bool := within 48 57 c

def isDigit (c : Byte) : Bool := isNum c || within 97 102 c

def hexDigitValue (c : Byte) : Nat := if isNum c then c.toNat - 48 else 10 + c.toNat - 97

/-- The loop of `hex_to_value` from `i` on, with the rounds left before `i` is 10; `none` is
`return -1`. -/
def hexLoop (m : Mem) (p length : Nat) : Nat → Nat → Int → Option Int
  | 0, _, v => some v
  | rounds + 1, i, v =>
    if i < length then
      let c := m.bytes (p + i)
      if isDigit c then
        hexLoop m p length rounds (i + 1) ((v * 16 + hexDigitValue c).bmod (2 ^ 32))
      else none
    else some v

/-- `hex_to_value` returns its result, and what is then in `*value`. -/
def hexToValue (m : Mem) (s : KString) (value : Int) : Except Fault (Int × Int) :=
  match s.str with
  | none => .error .nullPointer
  | some p =>
    if m.bytes p ≠ 48 || m.bytes (p + 1) ≠ 120 then .ok (-1, value)
    else
      match hexLoop m p s.length 8 2 0 with
      | none => .ok (-1, value)
      | some v => .ok (0, v)

def hexPrefix : List Byte := [48, 120]

structure Chars (m : Mem) (s : KString) (p : Nat) (xs : List Byte) : Prop where
  buffer : s.str = some p
  length : s.length = xs.length
  holds : Holds m.bytes p xs

structure Terminated (m : Mem) (s : KString) (p : Nat) (xs : List Byte) : Prop extends
    Chars m s p xs where
  nulFree : ∀ c ∈ xs, c ≠ 0
  nul : m.bytes (p + xs.length) = 0

variable {m : Mem} {s : KString} {p : Nat} {xs : List Byte} {ds : List Nat}

private theorem strHex_digit {d : Nat} (hex : d < 16) :
    isDigit (strHex d) = true ∧ hexDigitValue (strHex d) = d := by
  interval_cases d <;> decide

private theorem isDigit_iff (c : Byte) : isDigit c = true ↔ ∃ d, d < 16 ∧ strHex d = c := by
  constructor
  · intro digit
    have back : ∀ c : Byte, isDigit c = true →
        hexDigitValue c < 16 ∧ strHex (hexDigitValue c) = c := by decide +kernel
    exact ⟨hexDigitValue c, back c digit⟩
  · rintro ⟨d, hex, rfl⟩
    exact (strHex_digit hex).1

private theorem hexLoop_reads (rounds i : Nat) (v : Int) (holds : Holds m.bytes (p + i) xs) :
    (∃ ds : List Nat, (∀ d ∈ ds, d < 16) ∧ xs.take rounds = ds.map strHex ∧
      hexLoop m p (i + xs.length) rounds i v =
        some (ds.foldl (fun (v : Int) (d : Nat) => (v * (16 : Nat) + d).bmod (2 ^ 32 : Nat)) v)) ∨
    (¬ ∃ ds : List Nat, (∀ d ∈ ds, d < 16) ∧ xs.take rounds = ds.map strHex) ∧
      hexLoop m p (i + xs.length) rounds i v = none := by
  induction rounds generalizing i v xs with
  | zero => exact .inl ⟨[], nofun, rfl, rfl⟩
  | succ rounds ih =>
    cases xs with
    | nil =>
      refine .inl ⟨[], nofun, rfl, ?_⟩
      rw [hexLoop, if_neg (by simp)]
      rfl
    | cons c xs =>
      obtain ⟨here, rest⟩ := Holds.append_iff.mp (show Holds m.bytes (p + i) ([c] ++ xs) from holds)
      rw [List.length_singleton, Nat.add_assoc] at rest
      have first : m.bytes (p + i) = c := here 0 c rfl
      have length : i + (c :: xs).length = i + 1 + xs.length := by simp; omega
      simp only [hexLoop, first, length, if_pos (show i < i + 1 + xs.length by omega)]
      by_cases digit : isDigit c = true
      · obtain ⟨d, hex, rfl⟩ := (isDigit_iff c).mp digit
        rw [if_pos digit, (strHex_digit hex).2, List.take_succ_cons]
        rcases ih (i + 1) ((v * 16 + d).bmod (2 ^ 32)) rest with
          ⟨ds, all, taken, read⟩ | ⟨other, read⟩
        · refine .inl ⟨d :: ds, ?_, by rw [taken, List.map_cons], read⟩
          exact List.forall_mem_cons.mpr ⟨hex, all⟩
        · refine .inr ⟨?_, read⟩
          rintro ⟨es, all, taken⟩
          cases es with
          | nil => cases taken
          | cons e es =>
            exact other ⟨es, (List.forall_mem_cons.mp all).2, (List.cons.inj taken).2⟩
      · refine .inr ⟨?_, if_neg digit⟩
        rintro ⟨es, all, taken⟩
        cases es with
        | nil => cases taken
        | cons e es =>
          obtain ⟨rfl, -⟩ := List.cons.inj taken
          exact digit (strHex_digit (all e List.mem_cons_self)).1

private theorem hexToValue_prefix (text : Terminated m s p xs) (old : Int)
    (other : ¬ hexPrefix <+: xs) : hexToValue m s old = .ok (-1, old) := by
  unfold hexToValue
  simp only [text.buffer]
  rw [if_pos]
  by_contra both
  simp only [ne_eq, decide_not, Bool.or_eq_true, Bool.not_eq_true', decide_eq_false_iff_not, not_or,
    not_not] at both
  obtain ⟨first, second⟩ := both
  -- a NUL is neither of the two characters, so they are in the string
  match xs, text with
  | [], text => exact absurd (first.symm.trans text.nul) (by decide)
  | [c], text => exact absurd (second.symm.trans text.nul) (by decide)
  | c :: d :: xs, text =>
    apply other
    rw [← text.holds 0 c rfl, ← text.holds 1 d rfl, Nat.add_zero, first, second]
    exact ⟨xs, rfl⟩

def HexDigits (xs : List Byte) (ds : List Nat) : Prop := (∀ d ∈ ds, d < 16) ∧ xs = ds.map strHex

private theorem hexToValue_reads {rest : List Byte} (text : Chars m s p (hexPrefix ++ rest))
    (old : Int) :
    (∃ ds, HexDigits (rest.take 8) ds ∧
      hexToValue m s old = .ok (0, (value 16 ds : Int).bmod (2 ^ 32))) ∨
    (¬ ∃ ds, HexDigits (rest.take 8) ds) ∧ hexToValue m s old = .ok (-1, old) := by
  have first : m.bytes p = 48 := text.holds 0 48 rfl
  have second : m.bytes (p + 1) = 120 := text.holds 1 120 rfl
  have length : s.length = 2 + rest.length := by rw [text.length, List.length_append]; rfl
  have chars := text.holds
  rw [Holds.append_iff] at chars
  have unfolded : hexToValue m s old =
      match hexLoop m p (2 + rest.length) 8 2 0 with
      | none => .ok (-1, old)
      | some v => .ok (0, v) := by
    rw [hexToValue, text.buffer, length]
    simp only [first, second]
    rfl
  rcases hexLoop_reads 8 2 0 chars.2 with ⟨ds, all, taken, read⟩ | ⟨other, read⟩
  · refine .inl ⟨ds, ⟨all, taken⟩, ?_⟩
    rw [foldl_wrap] at read
    rw [unfolded, read]
  · refine .inr ⟨fun ⟨ds, digits⟩ => other ⟨ds, digits⟩, ?_⟩
    rw [unfolded, read]

structure Denotes (xs : List Byte) (ds : List Nat) : Prop where
  nonempty : ds ≠ []
  short : ds.length ≤ 8
  hex : ∀ d ∈ ds, d < 16
  text : xs = hexPrefix ++ ds.map strHex

/-- `hex_to_value` stores the number that the string denotes, and if it does not denote one, leaves
`*value` and returns -1. -/
def HexExact (m : Mem) (s : KString) (xs : List Byte) : Prop :=
  ∀ old, (∀ ds, Denotes xs ds →
      hexToValue m s old = .ok (0, (value 16 ds : Int).bmod (2 ^ 32))) ∧
    ((¬ ∃ ds, Denotes xs ds) → hexToValue m s old = .ok (-1, old))

private theorem strHex_inj {es : List Nat} (left : ∀ d ∈ ds, d < 16) (right : ∀ d ∈ es, d < 16)
    (same : ds.map strHex = es.map strHex) : ds = es := by
  have back : ∀ ds : List Nat, (∀ d ∈ ds, d < 16) → (ds.map strHex).map hexDigitValue = ds := by
    intro ds all
    rw [List.map_map]
    refine (List.map_congr_left fun d member => ?_).trans (List.map_id ds)
    exact (strHex_digit (all d member)).2
  rw [← back ds left, same, back es right]

private theorem hexToValue_denotes (text : Chars m s p xs) (denotes : Denotes xs ds) (old : Int) :
    hexToValue m s old = .ok (0, (value 16 ds : Int).bmod (2 ^ 32)) := by
  obtain ⟨-, short, hex, rfl⟩ := denotes
  have all : (ds.map strHex).take 8 = ds.map strHex :=
    List.take_of_length_le (by rwa [List.length_map])
  rcases hexToValue_reads text old with ⟨es, digits, read⟩ | ⟨other, -⟩
  · rw [all] at digits
    rwa [strHex_inj hex digits.1 digits.2]
  · exact absurd ⟨ds, hex, all⟩ other

/-- The two kinds of text that are accepted and should not be: the prefix alone, and eight digits
with something behind them. -/
inductive Loose : List Byte → Prop
  | bare : Loose hexPrefix
  | long {ds : List Nat} {rest : List Byte} (eight : ds.length = 8) (hex : ∀ d ∈ ds, d < 16)
      (more : rest ≠ []) : Loose (hexPrefix ++ (ds.map strHex ++ rest))

private theorem Loose.accepted (loose : Loose xs) (text : Chars m s p xs) (old : Int) :
    ∃ v, hexToValue m s old = .ok (0, v) := by
  obtain ⟨rest, ds, digits, rfl⟩ : ∃ rest ds,
      HexDigits (rest.take 8) ds ∧ xs = hexPrefix ++ rest := by
    cases loose with
    | bare => exact ⟨[], [], ⟨nofun, rfl⟩, rfl⟩
    | @long ds rest eight hex more =>
      refine ⟨ds.map strHex ++ rest, ds, ⟨hex, ?_⟩, rfl⟩
      exact List.take_left' (by rwa [List.length_map])
  rcases hexToValue_reads text old with ⟨es, -, read⟩ | ⟨other, -⟩
  · exact ⟨_, read⟩
  · exact absurd ⟨ds, digits⟩ other

private theorem Loose.not_denotes (loose : Loose xs) : ¬ Denotes xs ds := by
  intro denotes
  obtain ⟨nonempty, short, hex, text⟩ := denotes
  cases loose with
  | bare =>
    apply nonempty
    rw [List.self_eq_append_right, List.map_eq_nil_iff] at text
    exact text
  | long eight _ more =>
    have longer := congrArg List.length text
    have some := List.length_pos_iff.mpr more
    simp only [List.length_append, List.length_map] at longer
    omega

/-- `hex_to_value` accepts its grammar, apart from the two kinds of text. -/
theorem hexExact_iff (m : Mem) (s : KString) (p : Nat) (xs : List Byte)
    (text : Terminated m s p xs) : HexExact m s xs ↔ ¬ Loose xs := by
  constructor
  · intro exact loose
    obtain ⟨v, read⟩ := loose.accepted text.toChars 1
    rw [(exact 1).2 fun ⟨ds, denotes⟩ => loose.not_denotes denotes] at read
    cases read
  · intro strict old
    refine ⟨fun ds denotes => hexToValue_denotes text.toChars denotes old, fun other => ?_⟩
    by_cases starts : hexPrefix <+: xs
    · obtain ⟨rest, rfl⟩ := starts
      rcases hexToValue_reads text.toChars old with ⟨ds, ⟨hex, taken⟩, -⟩ | ⟨-, read⟩
      · have split := List.take_append_drop 8 rest
        rw [taken] at split
        have count : min 8 rest.length = ds.length := by
          rw [← List.length_take, taken, List.length_map]
        by_cases more : rest.drop 8 = []
        · rw [more, List.append_nil] at split
          have nonempty : ds ≠ [] := by
            rintro rfl
            subst split
            exact strict .bare
          exact absurd ⟨ds, nonempty, by omega, hex, by rw [split]⟩ other
        · have eight : 8 < rest.length := by simpa using more
          rw [← split] at strict
          exact absurd (.long (by omega) hex more) strict
      · exact read
    · exact hexToValue_prefix text old starts

def textAt (xs : List Byte) : Mem := { blank with bytes := fun a => xs.getD a 0 }

private theorem textAt_chars (xs : List Byte) (capacity : Nat) :
    Chars (textAt xs) ⟨some 0, xs.length, capacity⟩ 0 xs := by
  refine ⟨rfl, rfl, fun i c at_ => ?_⟩
  simp [textAt, at_]

private theorem textAt_terminated {xs : List Byte} (nulFree : ∀ c ∈ xs, c ≠ 0) (capacity : Nat) :
    Terminated (textAt xs) ⟨some 0, xs.length, capacity⟩ 0 xs := by
  refine ⟨textAt_chars xs capacity, nulFree, ?_⟩
  simp [textAt]

/-- `0x1f` is read as 31. -/
theorem hexExact_iff_sample :
    HexExact (textAt [48, 120, 49, 102]) ⟨some 0, 4, 32⟩ [48, 120, 49, 102] := by
  refine (hexExact_iff _ _ 0 _ (textAt_terminated (by decide) 32)).mpr fun loose => ?_
  have length : ([48, 120, 49, 102] : List Byte).length = 4 := rfl
  generalize ([48, 120, 49, 102] : List Byte) = xs at loose length
  cases loose with
  | bare => cases length
  | long eight _ _ =>
    simp only [List.length_append, List.length_map] at length
    omega

/-- `0x` alone is accepted, and `devmem 0x` reads address 0. -/
theorem hexToValue_bare :
    hexToValue (textAt hexPrefix) ⟨some 0, 2, 32⟩ 7 = .ok (0, 0) ∧
      ¬ ∀ m s p xs, Terminated m s p xs → HexExact m s xs := by
  have read : hexToValue (textAt hexPrefix) ⟨some 0, 2, 32⟩ 7 = .ok (0, 0) := by decide
  have prefixNulFree : ∀ c ∈ hexPrefix, c ≠ 0 := by decide
  refine ⟨read, fun claim => ?_⟩
  have exact := claim _ _ 0 _ (textAt_terminated prefixNulFree 32)
  have rejected := (exact 7).2 fun ⟨ds, denotes⟩ => Loose.bare.not_denotes denotes
  exact absurd (read.symm.trans rejected) (by decide)

/-! ### to_hex -/

def hexDigits (x : Nat) : List Nat :=
  List.replicate (8 - (digits 16 x).length) 0 ++ digits 16 x

private theorem toHex_text {x : Nat} (word : x < 2 ^ 32) :
    toHex x = hexPrefix ++ (hexDigits x).map strHex := by
  have loop : digitLoop 16 strHex 32 x hexPrefix = hexPrefix ++ (Nat.digits 16 x).map strHex :=
    digitLoop_digits strHex hexPrefix (by decide) (by omega)
  have pad : 10 - (hexPrefix ++ (Nat.digits 16 x).map strHex).length =
      8 - (digits 16 x).length := by
    rw [List.length_append, List.length_map, digits, List.length_reverse,
      show hexPrefix.length = 2 from rfl]
    omega
  change reverseStr (digitLoop 16 strHex 32 x hexPrefix ++
    List.replicate (10 - (digitLoop 16 strHex 32 x hexPrefix).length) 48) hexPrefix.length
      ((digitLoop 16 strHex 32 x hexPrefix ++
        List.replicate (10 - (digitLoop 16 strHex 32 x hexPrefix).length) 48).length - 1) = _
  rw [loop, pad, List.append_assoc, reverseStr_reverse, List.reverse_append,
    List.reverse_replicate, hexDigits, List.map_append, List.map_replicate, digits,
    List.map_reverse]
  rfl

private theorem toHex_denotes {x : Nat} (word : x < 2 ^ 32) :
    (hexDigits x).length = 8 ∧ value 16 (hexDigits x) = x ∧ Denotes (toHex x) (hexDigits x) := by
  have count : (digits 16 x).length ≤ 8 := digits_length_le (by decide) (by omega)
  have length : (hexDigits x).length = 8 := by
    rw [hexDigits, List.length_append, List.length_replicate]
    omega
  have hex : ∀ d ∈ hexDigits x, d < 16 := by
    intro d member
    rcases List.mem_append.mp member with zero | digit
    · rw [List.eq_of_mem_replicate zero]
      decide
    · exact digits_lt (by decide) d digit
  have nonempty : hexDigits x ≠ [] := List.ne_nil_of_length_pos (by omega)
  exact ⟨length, by rw [hexDigits, value_zeros, value_digits],
    nonempty, length.le, hex, toHex_text word⟩

private theorem toHex_length {x : Nat} (word : x < 2 ^ 32) : (toHex x).length = 10 := by
  rw [toHex_text word, List.length_append, List.length_map, (toHex_denotes word).1]
  rfl

private theorem hexToValue_toHex (x : BitVec 32) (text : Chars m s p (toHex x.toNat)) (old : Int) :
    hexToValue m s old = .ok (0, x.toInt) := by
  obtain ⟨-, number, denotes⟩ := toHex_denotes x.isLt
  rw [hexToValue_denotes text denotes, number, BitVec.toInt_eq_toNat_bmod]

/-- To write a word and to read it are inverse. -/
theorem toHex_round_trip (x : BitVec 32) :
    ((toHex x.toNat).length = 10 ∧ ∃ ds : List Nat, ds.length = 8 ∧ (∀ d ∈ ds, d < 16) ∧
        toHex x.toNat = hexPrefix ++ ds.map strHex) ∧
      (∀ m s p old, Chars m s p (toHex x.toNat) → hexToValue m s old = .ok (0, x.toInt)) ∧
      ∀ y : BitVec 32, toHex y.toNat = toHex x.toNat → y = x := by
  obtain ⟨length, -, denotes⟩ := toHex_denotes x.isLt
  refine ⟨⟨?_, _, length, denotes.hex, denotes.text⟩, ?_, fun y same => ?_⟩
  · exact toHex_length x.isLt
  · exact fun m s p old text => hexToValue_toHex x text old
  · -- the same text is read as the one word and as the other
    have first := hexToValue_toHex x (textAt_chars (toHex x.toNat) 32) 0
    have second := hexToValue_toHex y (textAt_chars (toHex y.toNat) 32) 0
    rw [same, first] at second
    exact BitVec.eq_of_toInt_eq (Prod.mk.inj (Except.ok.inj second)).2.symm

theorem toHex_round_trip_sample :
    hexToValue (textAt (toHex 0xDEADBEEF)) ⟨some 0, 10, 32⟩ 7 = .ok (0, -0x21524111) :=
  (toHex_round_trip 0xDEADBEEF).2.1 _ _ 0 7 (textAt_chars _ 32)

end OhMyOs.Libs.GrowableString
