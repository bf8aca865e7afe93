/-!
# Text as 16-bit code units

String values of the analysed program are indexed by 16-bit units: a character beyond the
basic plane takes two, a high and a low surrogate. Decoding puts the replacement character
for a surrogate that stands alone.
-/

namespace Concolic.Text

/-- The units of a character. -/
def unitsOfChar (c : Char) : List UInt16 :=
  if c.toNat < 0x10000 then [c.toNat.toUInt16]
  else
    let offset := c.toNat - 0x10000
    [(0xd800 + offset / 0x400).toUInt16, (0xdc00 + offset % 0x400).toUInt16]

/-- The units of a string. -/
def units (s : String) : List UInt16 := s.toList.flatMap unitsOfChar

def isHighSurrogate (u : UInt16) : Bool := 0xd800 ≤ u && u ≤ 0xdbff

def isLowSurrogate (u : UInt16) : Bool := 0xdc00 ≤ u && u ≤ 0xdfff

/-- The character of a unit that is no surrogate. -/
def charOfUnit? (u : UInt16) : Option Char :=
  if isHighSurrogate u || isLowSurrogate u then none else some (Char.ofNat u.toNat)

/-- The character of a surrogate pair. -/
def charOfPair (high low : UInt16) : Char :=
  Char.ofNat (0x10000 + (high.toNat - 0xd800) * 0x400 + (low.toNat - 0xdc00))

/-- What stands for a unit that is no character by itself. -/
def replacement : Char := '\ufffd'

/-- The characters of a sequence of units. -/
def charsOfUnits : List UInt16 → List Char
  | [] => []
  | [u] => [(charOfUnit? u).getD replacement]
  | u :: v :: rest =>
    if isHighSurrogate u && isLowSurrogate v then
      charOfPair u v :: charsOfUnits rest
    else
      (charOfUnit? u).getD replacement :: charsOfUnits (v :: rest)

/-- The string of a sequence of units. -/
def ofUnits (us : List UInt16) : String := String.ofList (charsOfUnits us)

/-- The first position at or after `start` where `needle` occurs in the list, if any. -/
def findFrom? {α : Type} [BEq α] (needle : List α) (start : Nat) : List α → Option Nat
  | [] => if needle.isEmpty then some start else none
  | hay@(_ :: rest) =>
    if needle.isPrefixOf hay then some start else findFrom? needle (start + 1) rest

end Concolic.Text
