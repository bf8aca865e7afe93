import Concolic.Number
import Concolic.Text.Blank

/-!
# Folding operations on strings

Positions and lengths count 16-bit units. A slice that cuts a surrogate pair in two has
the replacement character in place of either half. Searching for a part of a string looks
at its characters; searching for a position looks at its units.
-/

namespace Concolic.Folding

open Text

/-- The unit at a position. -/
def charAt? (s : String) (index : Int) : Option UInt16 :=
  if index < 0 then none else (units s)[index.toNat]?

/-- The number of units. -/
def length (s : String) : Int32 := Int32.ofInt (units s).length

/-- Whether one string occurs in another. -/
def contains (s part : String) : Bool := (findFrom? part.toList 0 s.toList).isSome

/-- The first position from `offset` on at which one string occurs in another, or `-1`. -/
def indexOf (s part : String) (offset : Int) : Int32 :=
  let hay := units s
  let needle := units part
  let start := offset.toNat
  if needle.isEmpty then Int32.ofInt (min start hay.length)
  else
    match findFrom? needle start (hay.drop start) with
    | some position => Int32.ofInt position
    | none => -1

/-- The units from `offset` on, if there are as many. -/
def substring? (s : String) (offset count : Int) : Option String :=
  let us := units s
  if offset < 0 ∨ count < 0 ∨ us.length < offset.toNat + count.toNat then none
  else some (ofUnits ((us.drop offset.toNat).take count.toNat))

/-! ## Conversion to and from strings -/

/-- The string that a literal converts to. Real numbers are written as 64-bit numbers. -/
def render : Literal → String
  | .null => "null"
  | .bool value => Literal.boolText value
  | .byte value => toString value.toInt
  | .char unit => ofUnits [unit]
  | .short value => toString value.toInt
  | .int value => toString value.toInt
  | .long value => toString value.toInt
  | .float value => (value.convert : Double).write .general
  | .double value => value.write .general
  | .string value => value
  | .class named => "class " ++ named.text

/-- Read an integer: an optional sign and at least one digit. -/
def readInt? (cs : List Char) : Option Int :=
  let (negative, digits) : Bool × List Char :=
    match cs with
    | '-' :: rest => (true, rest)
    | '+' :: rest => (false, rest)
    | rest => (false, rest)
  if digits.isEmpty || !digits.all Char.isDigit then none
  else
    let n := BinaryFloat.digitsToNat digits
    some (if negative then -n else n)

/-- Read an integer of the given number of bits. -/
def readSigned? (bits : Nat) (cs : List Char) : Option Int :=
  let bound : Int := (1 <<< (bits - 1) : Nat)
  (readInt? cs).filter fun i => decide (-bound ≤ i) && decide (i < bound)

/-- Read a literal of a primitive type. Anything but the word for it reads as false. Blanks
around a real number do not count. -/
def parse? (type : ValueType) (s : String) : Option Literal :=
  let cs := s.toList
  match type with
  | .bool => some (.bool (String.ofList (cs.map Char.toLower) == "true"))
  | .byte => (readSigned? 8 cs).map fun i => .byte (Int8.ofInt i)
  | .short => (readSigned? 16 cs).map fun i => .short (Int16.ofInt i)
  | .int => (readSigned? 32 cs).map fun i => .int (Int32.ofInt i)
  | .long => (readSigned? 64 cs).map fun i => .long (Int64.ofInt i)
  | .float => (BinaryFloat.read? (trimBlanks cs)).map .float
  | .double => (BinaryFloat.read? (trimBlanks cs)).map .double
  | _ => none

end Concolic.Folding
