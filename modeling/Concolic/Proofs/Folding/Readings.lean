import Concolic.Proofs.BinaryFloat.Written
import Concolic.Proofs.Folding.Strings
import Concolic.Proofs.Term.Literals
import Mathlib.Data.List.Induction
import Mathlib.Data.Nat.Digits.Defs

/-!
# Reading numbers

Integers are read by one grammar, whatever the width they are read for: an optional sign and at
least one decimal digit. A text can be read as an integer of some width if it is of this form and
denotes a number that the width has room for, and then the literal is the one for that number. What
literals of these types convert to is of this form, so reading undoes converting to text.

## Main definitions

* `IsNumeral` — the texts of integers, and what they denote.
* `Fits` — the integers of some number of bits.

## Main statements

* `readSigned?_eq_some_iff` — the texts that can be read, and as what.
* `IsWidth` — what the four integral types that are read have in common.
-/

namespace Concolic.Folding

open BinaryFloat (digitsToNat)

/-- The number that decimal digits denote, the last digit being the lowest. -/
def decimalValue (digits : List Char) : Nat :=
  Nat.ofDigits 10 (digits.reverse.map fun c => c.toNat - '0'.toNat)

/-- At least one decimal digit, and nothing else. -/
def AreDigits (digits : List Char) : Prop := digits ≠ [] ∧ ∀ c ∈ digits, c.isDigit = true

/-- An optional sign with digits behind it, and the integer that this denotes. -/
inductive IsNumeral : List Char → Int → Prop
  | unsigned {digits : List Char} : AreDigits digits → IsNumeral digits (decimalValue digits)
  | positive {digits : List Char} : AreDigits digits →
      IsNumeral ('+' :: digits) (decimalValue digits)
  | negative {digits : List Char} : AreDigits digits →
      IsNumeral ('-' :: digits) (-decimalValue digits)

/-- The integer is one of those that have this many bits. -/
def Fits (bits : Nat) (i : Int) : Prop := -2 ^ (bits - 1) ≤ i ∧ i < 2 ^ (bits - 1)

variable {cs digits : List Char} {bits : Nat} {i : Int}

/-! ## Numerals -/

theorem digitsToNat_eq (digits : List Char) : digitsToNat digits = decimalValue digits := by
  induction digits using List.reverseRecOn with
  | nil => rfl
  | append_singleton digits c ih =>
    have hlast : digitsToNat (digits ++ [c]) = 10 * digitsToNat digits + (c.toNat - '0'.toNat) := by
      rw [digitsToNat, List.foldl_append]
      rfl
    rw [hlast, ih, decimalValue, decimalValue, List.reverse_append, List.reverse_singleton,
      List.singleton_append, List.map_cons, Nat.ofDigits_cons, Nat.add_comm]

theorem areDigits_iff :
    AreDigits digits ↔ (digits.isEmpty || !digits.all Char.isDigit) = false := by
  rw [Bool.or_eq_false_iff, Bool.not_eq_false', List.all_eq_true, List.isEmpty_eq_false_iff]
  rfl

theorem readInt?_eq_some_iff : readInt? cs = some i ↔ IsNumeral cs i := by
  constructor
  · intro h
    unfold readInt? at h
    split at h
    next negative digits hsign =>
    split at h
    · cases h
    · next hdigits =>
      rw [Bool.not_eq_true, ← areDigits_iff] at hdigits
      dsimp only at h
      rw [digitsToNat_eq] at h
      obtain rfl := Option.some.inj h
      split at hsign <;> cases hsign
      · exact .negative hdigits
      · exact .positive hdigits
      · exact .unsigned hdigits
  · intro h
    cases h with
    | unsigned hdigits =>
      have hsign : ∀ {c : Char} {rest : List Char}, c.isDigit = false → cs ≠ c :: rest := by
        rintro c rest hc rfl
        rw [hdigits.2 c (List.mem_cons_self ..)] at hc
        cases hc
      rw [readInt?, areDigits_iff.mp hdigits, digitsToNat_eq]
      · rfl
      · exact fun rest => hsign (by decide)
      · exact fun rest => hsign (by decide)
    | positive hdigits =>
      simp [readInt?, areDigits_iff.mp hdigits, digitsToNat_eq]
    | negative hdigits =>
      simp [readInt?, areDigits_iff.mp hdigits, digitsToNat_eq]

theorem readSigned?_eq_some_iff : readSigned? bits cs = some i ↔ IsNumeral cs i ∧ Fits bits i := by
  rw [readSigned?, Option.filter_eq_some_iff, readInt?_eq_some_iff, Nat.one_shiftLeft]
  simp [Fits]

/-! ## Written integers -/

theorem areDigits_toDigits (n : Nat) : AreDigits (Nat.toDigits 10 n) :=
  ⟨Nat.toDigits_ne_nil, fun _ hc => Nat.isDigit_of_mem_toDigits (by decide) (by decide) hc⟩

theorem decimalValue_toDigits (n : Nat) : decimalValue (Nat.toDigits 10 n) = n := by
  rw [← digitsToNat_eq]
  exact Decimal.digitsToNat_toDigits n

/-- An integer is written as a numeral that denotes it. -/
theorem isNumeral_toString (i : Int) : IsNumeral (toString i).toList i := by
  rw [Int.toString_eq_repr, Int.repr_eq_if]
  split
  · next h =>
    have hnumeral := IsNumeral.unsigned (areDigits_toDigits i.toNat)
    rwa [decimalValue_toDigits, Int.toNat_of_nonneg h, ← Nat.toList_repr] at hnumeral
  · next h =>
    have hnumeral := IsNumeral.negative (areDigits_toDigits (-i).toNat)
    rw [decimalValue_toDigits, Int.toNat_of_nonneg (by omega), Int.neg_neg,
      ← Nat.toList_repr] at hnumeral
    rw [String.toList_append]
    exact hnumeral

/-! ## Types that are read as integers -/

/-- The literals of the type are integers of this many bits, and are read and written as such. -/
structure IsWidth {α : Type} (type : ValueType) (bits : Nat) (wrap : α → Literal)
    (ofInt : Int → α) (toInt : α → Int) : Prop where
  parse_eq : ∀ s, parse? type s = (readSigned? bits s.toList).map fun i => wrap (ofInt i)
  render_wrap : ∀ x, render (wrap x) = toString (toInt x)
  integer_wrap : ∀ x, integer? (.literal (wrap x)) = some (toInt x)
  type_wrap : ∀ x, (wrap x).type = type
  exists_wrap : ∀ l : Literal, l.type = type → ∃ x, l = wrap x
  ofInt_toInt : ∀ x, ofInt (toInt x) = x
  toInt_ofInt : ∀ {i}, Fits bits i → toInt (ofInt i) = i
  fits_toInt : ∀ x, Fits bits (toInt x)

theorem isWidth_byte : IsWidth .byte 8 .byte Int8.ofInt Int8.toInt where
  parse_eq _ := rfl
  render_wrap _ := rfl
  integer_wrap value := by
    rw [← Int8.toInt_toInt32, ← Int32.toInt_toInt64]
    rfl
  type_wrap _ := rfl
  exists_wrap l hl := by
    cases l with
    | byte value => exact ⟨value, rfl⟩
    | _ => cases hl
  ofInt_toInt := Int8.ofInt_toInt
  toInt_ofInt h := Int8.toInt_ofInt_of_le h.1 h.2
  fits_toInt value := ⟨value.le_toInt, value.toInt_lt⟩

theorem isWidth_short : IsWidth .short 16 .short Int16.ofInt Int16.toInt where
  parse_eq _ := rfl
  render_wrap _ := rfl
  integer_wrap value := by
    rw [← Int16.toInt_toInt32, ← Int32.toInt_toInt64]
    rfl
  type_wrap _ := rfl
  exists_wrap l hl := by
    cases l with
    | short value => exact ⟨value, rfl⟩
    | _ => cases hl
  ofInt_toInt := Int16.ofInt_toInt
  toInt_ofInt h := Int16.toInt_ofInt_of_le h.1 h.2
  fits_toInt value := ⟨value.le_toInt, value.toInt_lt⟩

theorem isWidth_int : IsWidth .int 32 .int Int32.ofInt Int32.toInt where
  parse_eq _ := rfl
  render_wrap _ := rfl
  integer_wrap value := by
    rw [← Int32.toInt_toInt64]
    rfl
  type_wrap _ := rfl
  exists_wrap l hl := by
    cases l with
    | int value => exact ⟨value, rfl⟩
    | _ => cases hl
  ofInt_toInt := Int32.ofInt_toInt
  toInt_ofInt h := Int32.toInt_ofInt_of_le h.1 h.2
  fits_toInt value := ⟨value.le_toInt, value.toInt_lt⟩

theorem isWidth_long : IsWidth .long 64 .long Int64.ofInt Int64.toInt where
  parse_eq _ := rfl
  render_wrap _ := rfl
  integer_wrap _ := rfl
  type_wrap _ := rfl
  exists_wrap l hl := by
    cases l with
    | long value => exact ⟨value, rfl⟩
    | _ => cases hl
  ofInt_toInt := Int64.ofInt_toInt
  toInt_ofInt h := Int64.toInt_ofInt_of_le h.1 h.2
  fits_toInt value := ⟨value.le_toInt, value.toInt_lt⟩

namespace IsWidth

variable {α : Type} {type : ValueType} {wrap : α → Literal} {ofInt : Int → α} {toInt : α → Int}
  {l : Literal} {s : String}

/-- A text is read as the literal of the type that is the number it denotes. -/
theorem parse?_eq_some_iff (h : IsWidth type bits wrap ofInt toInt) :
    parse? type s = some l ↔ l.type = type ∧
      ∃ i, IsNumeral s.toList i ∧ integer? (.literal l) = some i := by
  rw [h.parse_eq, Option.map_eq_some_iff]
  constructor
  · rintro ⟨i, hread, rfl⟩
    obtain ⟨hnumeral, hfits⟩ := readSigned?_eq_some_iff.mp hread
    exact ⟨h.type_wrap _, i, hnumeral, by rw [h.integer_wrap, h.toInt_ofInt hfits]⟩
  · rintro ⟨htype, i, hnumeral, hi⟩
    obtain ⟨x, rfl⟩ := h.exists_wrap l htype
    rw [h.integer_wrap] at hi
    obtain rfl := Option.some.inj hi
    exact ⟨toInt x, readSigned?_eq_some_iff.mpr ⟨hnumeral, h.fits_toInt x⟩,
      by rw [h.ofInt_toInt]⟩

/-- A text can be read if it denotes a number that the type has room for. -/
theorem exists_parse?_iff (h : IsWidth type bits wrap ofInt toInt) :
    (∃ l, parse? type s = some l) ↔ ∃ i, IsNumeral s.toList i ∧ Fits bits i := by
  rw [h.parse_eq]
  constructor
  · rintro ⟨l, hl⟩
    obtain ⟨i, hread, -⟩ := Option.map_eq_some_iff.mp hl
    exact ⟨i, readSigned?_eq_some_iff.mp hread⟩
  · rintro ⟨i, hi⟩
    exact ⟨_, Option.map_eq_some_iff.mpr ⟨i, readSigned?_eq_some_iff.mpr hi, rfl⟩⟩

theorem parse?_render (h : IsWidth type bits wrap ofInt toInt) (hl : l.type = type) :
    parse? type (render l) = some l := by
  obtain ⟨x, rfl⟩ := h.exists_wrap l hl
  rw [h.render_wrap, h.parse?_eq_some_iff]
  exact ⟨hl, toInt x, isNumeral_toString _, h.integer_wrap x⟩

end IsWidth

theorem exists_isWidth {type : ValueType} (htype : type.bits? = some bits) (hbool : type ≠ .bool)
    (hchar : type ≠ .char) : ∃ (α : Type) (wrap : α → Literal) (ofInt : Int → α) (toInt : α → Int),
      IsWidth type bits wrap ofInt toInt := by
  cases type with
  | byte =>
    cases htype
    exact ⟨_, _, _, _, isWidth_byte⟩
  | short =>
    cases htype
    exact ⟨_, _, _, _, isWidth_short⟩
  | int =>
    cases htype
    exact ⟨_, _, _, _, isWidth_int⟩
  | long =>
    cases htype
    exact ⟨_, _, _, _, isWidth_long⟩
  | bool => exact absurd rfl hbool
  | char => exact absurd rfl hchar
  | void | float | double | null | «class» | array | location => cases htype

/-- What a truth value or a signed integer converts to is read as the same literal. -/
theorem parse?_render {l : Literal} (h : l.type ∈ [ValueType.bool, .byte, .short, .int, .long]) :
    parse? l.type (render l) = some l := by
  cases l with
  | bool value => cases value <;> rfl
  | byte => exact isWidth_byte.parse?_render rfl
  | short => exact isWidth_short.parse?_render rfl
  | int => exact isWidth_int.parse?_render rfl
  | long => exact isWidth_long.parse?_render rfl
  | null | char | float | double | string | «class» =>
    simp [Literal.type, ValueType.string, ValueType.classObject] at h

/-! ## Folding readings -/

section

variable {a : Term} {type : ValueType} {l : Literal} {s : String}

theorem foldTerm_parse_eq_literal_iff (hs : Spells a s) :
    foldTerm (.parse type a) = .literal l ↔ parse? type s = some l := by
  rw [foldTerm_parse hs]
  cases parse? type s with
  | none => exact iff_of_false nofun nofun
  | some k =>
    constructor
    · intro heq
      exact congrArg Term.literal? heq
    · intro heq
      rw [Option.some.inj heq]
      rfl

theorem foldTerm_parse_eq_or (hs : Spells a s) :
    (∃ l, foldTerm (.parse type a) = .literal l) ∨
      foldTerm (.parse type a) = .parse type (foldTerm a) := by
  rw [foldTerm_parse hs]
  cases parse? type s with
  | none => exact .inr rfl
  | some l => exact .inl ⟨l, rfl⟩

/-- Reading what a truth value or a signed integer is converted to gives it back. A text is read
as a signed integer if it is an optional sign and digits that denote a number which the type has
room for, as the literal for that number, and stays to be read otherwise. -/
theorem reading_undoes_writing :
    (∀ {a : Term} {l : Literal}, (foldTerm a).literal? = some l →
      l.type ∈ [ValueType.bool, .byte, .short, .int, .long] →
      foldTerm (.parse l.type (.toText a)) = .literal l) ∧
    ∀ {a : Term} {s : String} {type : ValueType} {bits : Nat}, Spells a s →
      type.bits? = some bits → type ≠ .bool → type ≠ .char →
      ((∃ l, foldTerm (.parse type a) = .literal l) ↔
        ∃ i, IsNumeral s.toList i ∧ Fits bits i) ∧
      (∀ l, foldTerm (.parse type a) = .literal l ↔
        l.type = type ∧ ∃ i, IsNumeral s.toList i ∧ integer? (.literal l) = some i) ∧
      ((∀ l, foldTerm (.parse type a) ≠ .literal l) →
        foldTerm (.parse type a) = .parse type (foldTerm a)) := by
  refine ⟨fun {a l} hl htype => ?_, fun {a s type bits} hs htype hbool hchar => ?_⟩
  · rw [foldTerm_parse_eq_literal_iff (spells_of_foldTerm_eq (foldTerm_toText hl))]
    exact parse?_render htype
  · obtain ⟨α, wrap, ofInt, toInt, hwidth⟩ := exists_isWidth htype hbool hchar
    simp only [foldTerm_parse_eq_literal_iff hs]
    refine ⟨hwidth.exists_parse?_iff, fun l => hwidth.parse?_eq_some_iff, fun hnone => ?_⟩
    rcases foldTerm_parse_eq_or hs with ⟨l, hl⟩ | hstays
    · exact absurd hl (hnone l)
    · exact hstays

/-- The least and the greatest byte, written with a sign and with leading zeros, and the first
number beyond them. -/
theorem readings_of_bytes :
    foldTerm (.parse .long (.toText (.literal (.long Int64.minValue)))) =
      .literal (.long Int64.minValue) ∧
    foldTerm (.parse .byte (.string "-0128")) = .literal (.byte (-128)) ∧
    foldTerm (.parse .byte (.string "+127")) = .literal (.byte 127) ∧
    foldTerm (.parse .byte (.string "128")) = .parse .byte (.string "128") := by
  obtain ⟨hundo, hread⟩ := reading_undoes_writing
  have hlong : (foldTerm (.literal (.long Int64.minValue))).literal? =
      some (.long Int64.minValue) := by
    rw [foldTerm_literal]
    rfl
  have hwritten := hundo hlong (by simp [Literal.type])
  have hbyte (s : String) := @hread (.string s) s .byte 8 (spells_string s) rfl nofun nofun
  have hleast : IsNumeral "-0128".toList (-128) := readInt?_eq_some_iff.mp (by decide)
  have hgreatest : IsNumeral "+127".toList 127 := readInt?_eq_some_iff.mp (by decide)
  have hlarge : readInt? "128".toList = some 128 := by decide
  refine ⟨hwritten, ?_, ?_, ?_⟩
  · exact ((hbyte "-0128").2.1 _).mpr ⟨rfl, -128, hleast, isWidth_byte.integer_wrap (-128)⟩
  · exact ((hbyte "+127").2.1 _).mpr ⟨rfl, 127, hgreatest, isWidth_byte.integer_wrap 127⟩
  · refine ((hbyte "128").2.2 fun l hl => ?_).trans (by rw [Term.string, foldTerm_literal])
    obtain ⟨i, hi, hfits⟩ := (hbyte "128").1.mp ⟨l, hl⟩
    rw [← readInt?_eq_some_iff, hlarge] at hi
    obtain rfl := Option.some.inj hi
    exact absurd hfits.2 (by decide)

end

end Concolic.Folding
