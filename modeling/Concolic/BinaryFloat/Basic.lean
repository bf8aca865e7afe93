/-!
# Binary floating-point formats

A number of a format is its bit pattern: one sign bit, an exponent field and a fraction
field. `Numeral` is what a pattern stands for, an exact signed multiple of a power of two
unless it is infinite or no number. `ofRatio` goes back, to the nearest number of the
format and on a tie to the one with an even significand.

All of it is exact arithmetic on natural numbers and integers.
-/

namespace Concolic

/-- The layout of a binary interchange format. -/
structure FloatFormat where
  exponentBits : Nat
  fractionBits : Nat
  deriving DecidableEq, Repr

namespace FloatFormat

/-- 32-bit numbers. -/
def single : FloatFormat := ⟨8, 23⟩

/-- 64-bit numbers. -/
def double : FloatFormat := ⟨11, 52⟩

def width (f : FloatFormat) : Nat := 1 + f.exponentBits + f.fractionBits

/-- The exponent of the last significand bit of the smallest numbers. -/
def minExponent (f : FloatFormat) : Int :=
  2 - (1 <<< (f.exponentBits - 1) : Nat) - f.fractionBits

/-- The bits below the sign that stand for infinity; anything above is no number. -/
def infinityMagnitude (f : FloatFormat) : Nat :=
  (1 <<< f.exponentBits - 1) <<< f.fractionBits

end FloatFormat

/-- A number of a binary format, as its bit pattern. -/
structure BinaryFloat (f : FloatFormat) where
  bits : BitVec f.width
  deriving DecidableEq, Repr

/-- What a bit pattern stands for: no number, an infinity, or `± significand * 2 ^ exponent`. -/
inductive Numeral where
  | nan
  | infinity (negative : Bool)
  | finite (negative : Bool) (significand : Nat) (exponent : Int)
  deriving DecidableEq, Repr

/-- The nearest natural number to a quotient; on a tie the even one. -/
def roundHalfEven (num den : Nat) : Nat :=
  let quotient := num / den
  let twice := 2 * (num % den)
  if den < twice ∨ (twice = den ∧ quotient % 2 = 1) then quotient + 1 else quotient

/-- The exponent of the largest power of two that does not exceed a positive quotient. -/
def floorLog2 (num den : Nat) : Int :=
  let guess : Int := (num.log2 : Int) - den.log2
  let reached :=
    if 0 ≤ guess then decide (den <<< guess.toNat ≤ num)
    else decide (den ≤ num <<< (-guess).toNat)
  if reached then guess else guess - 1

namespace BinaryFloat

variable {f : FloatFormat}

/-- The number with the given bits below the sign. -/
def ofMagnitude (negative : Bool) (magnitude : Nat) : BinaryFloat f :=
  ⟨BitVec.ofNat f.width (magnitude + if negative then 1 <<< (f.width - 1) else 0)⟩

def isNegative (x : BinaryFloat f) : Bool := x.bits.msb

/-- The bits below the sign. -/
def magnitude (x : BinaryFloat f) : Nat := x.bits.toNat % 1 <<< (f.width - 1)

/-- What the number stands for. -/
def decode (x : BinaryFloat f) : Numeral :=
  let magnitude := x.magnitude
  let field := magnitude >>> f.fractionBits
  let fraction := magnitude % 1 <<< f.fractionBits
  if f.infinityMagnitude < magnitude then .nan
  else if magnitude = f.infinityMagnitude then .infinity x.isNegative
  else if field = 0 then .finite x.isNegative fraction f.minExponent
  else .finite x.isNegative (1 <<< f.fractionBits + fraction) (f.minExponent + field - 1)

def zero (negative : Bool) : BinaryFloat f := ofMagnitude negative 0

def infinity (negative : Bool) : BinaryFloat f := ofMagnitude negative f.infinityMagnitude

/-- The quiet pattern that stands for no number. -/
def nan : BinaryFloat f :=
  ofMagnitude false (f.infinityMagnitude + 1 <<< (f.fractionBits - 1))

/-- The number nearest to `± num / den` (with `den` positive). The exponent of its last bit
is the largest that keeps every significand bit, but not below that of the smallest numbers. -/
def ofRatio (negative : Bool) (num den : Nat) : BinaryFloat f :=
  if num = 0 then zero negative else
    let exponent := max (floorLog2 num den - f.fractionBits) f.minExponent
    let significand :=
      if 0 ≤ exponent then roundHalfEven num (den <<< exponent.toNat)
      else roundHalfEven (num <<< (-exponent).toNat) den
    let magnitude := (exponent - f.minExponent).toNat <<< f.fractionBits + significand
    ofMagnitude negative (min magnitude f.infinityMagnitude)

/-- The number nearest to `± significand * 2 ^ exponent`. -/
def ofScaled (negative : Bool) (significand : Nat) (exponent : Int) : BinaryFloat f :=
  if 0 ≤ exponent then ofRatio negative (significand <<< exponent.toNat) 1
  else ofRatio negative significand (1 <<< (-exponent).toNat)

/-- The number nearest to an integer. -/
def ofInt (i : Int) : BinaryFloat f := ofRatio (decide (i < 0)) i.natAbs 1

/-- The number of a format that a numeral rounds to. -/
def ofNumeral : Numeral → BinaryFloat f
  | .nan => nan
  | .infinity negative => infinity negative
  | .finite negative significand exponent => ofScaled negative significand exponent

/-- The nearest number of another format. -/
def convert {g : FloatFormat} (x : BinaryFloat f) : BinaryFloat g := ofNumeral x.decode

end BinaryFloat

/-- 32-bit floating-point numbers. -/
abbrev Single := BinaryFloat .single

/-- 64-bit floating-point numbers. -/
abbrev Double := BinaryFloat .double

namespace Numeral

/-- The integer part, limited to the range from `low` to `high`; no number gives `0`. -/
def toInt (low high : Int) : Numeral → Int
  | .nan => 0
  | .infinity negative => if negative then low else high
  | .finite negative significand exponent =>
    let whole : Nat :=
      if 0 ≤ exponent then significand <<< exponent.toNat
      else significand >>> (-exponent).toNat
    let signed : Int := if negative then -whole else whole
    max low (min signed high)

end Numeral

end Concolic
