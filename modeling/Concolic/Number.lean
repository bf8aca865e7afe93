import Concolic.BinaryFloat.Arithmetic
import Concolic.Literal

/-!
# Numbers under promotion

Arithmetic is done in one of four kinds of number: operands below 32 bits, truth values
among them, are promoted to 32-bit integers. Conversions between integers keep the low
bits; from real to integral they drop the fraction and stop at the ends of the range.
-/

namespace Concolic

inductive Number where
  | int (value : Int32)
  | long (value : Int64)
  | float (value : Single)
  | double (value : Double)
  deriving DecidableEq

namespace Number

/-- The promoted value of a literal that is a number or a truth value. -/
def ofLiteral? : Literal → Option Number
  | .bool value => some (.int (if value then 1 else 0))
  | .byte value => some (.int value.toInt32)
  | .char unit => some (.int (Int32.ofInt unit.toNat))
  | .short value => some (.int value.toInt32)
  | .int value => some (.int value)
  | .long value => some (.long value)
  | .float value => some (.float value)
  | .double value => some (.double value)
  | .null | .string _ | .class _ => none

/-- The kinds of number, each of which takes in the ones before it. -/
inductive Kind where
  | int
  | long
  | float
  | double
  deriving DecidableEq

namespace Kind

def rank : Kind → Nat
  | .int => 0
  | .long => 1
  | .float => 2
  | .double => 3

def isReal : Kind → Bool
  | .int | .long => false
  | .float | .double => true

/-- The kind that two operands are brought to. -/
def join (a b : Kind) : Kind := if a.rank ≤ b.rank then b else a

end Kind

def kind : Number → Kind
  | .int _ => .int
  | .long _ => .long
  | .float _ => .float
  | .double _ => .double

def isReal (n : Number) : Bool := n.kind.isReal

def toInt32 : Number → Int32
  | .int value => value
  | .long value => value.toInt32
  | .float value => Int32.ofInt (value.decode.toInt Int32.minValue.toInt Int32.maxValue.toInt)
  | .double value => Int32.ofInt (value.decode.toInt Int32.minValue.toInt Int32.maxValue.toInt)

def toInt64 : Number → Int64
  | .int value => value.toInt64
  | .long value => value
  | .float value => Int64.ofInt (value.decode.toInt Int64.minValue.toInt Int64.maxValue.toInt)
  | .double value => Int64.ofInt (value.decode.toInt Int64.minValue.toInt Int64.maxValue.toInt)

def toSingle : Number → Single
  | .int value => .ofInt value.toInt
  | .long value => .ofInt value.toInt
  | .float value => value
  | .double value => value.convert

def toDouble : Number → Double
  | .int value => .ofInt value.toInt
  | .long value => .ofInt value.toInt
  | .float value => value.convert
  | .double value => value

/-- The literal of a primitive type that a number converts to. -/
def toLiteral? (n : Number) : ValueType → Option Literal
  | .bool => some (.bool (n.toInt64 != 0))
  | .byte => some (.byte n.toInt32.toInt8)
  | .char => some (.char n.toInt32.toUInt32.toUInt16)
  | .short => some (.short n.toInt32.toInt16)
  | .int => some (.int n.toInt32)
  | .long => some (.long n.toInt64)
  | .float => some (.float n.toSingle)
  | .double => some (.double n.toDouble)
  | _ => none

/-- The number with the other sign; the least integer is its own opposite. -/
def neg : Number → Number
  | .int value => .int (-value)
  | .long value => .long (-value)
  | .float value => .float value.neg
  | .double value => .double value.neg

end Number
end Concolic
