import Concolic.BinaryFloat.Decimal
import Concolic.Text.Quoted
import Concolic.Text.Units
import Concolic.ValueType

/-!
# Literals

Constant values. Two literals are the same when they have the same kind and the same
payload, real numbers compared by their bits. The written form is coarser: every number
that stands for no number is written alike.
-/

namespace Concolic

inductive Literal where
  | null
  | bool (value : Bool)
  | byte (value : Int8)
  /-- A 16-bit code unit. -/
  | char (unit : UInt16)
  | short (value : Int16)
  | int (value : Int32)
  | long (value : Int64)
  | float (value : Single)
  | double (value : Double)
  | string (value : String)
  | class (named : ValueType)
  deriving DecidableEq

namespace Literal

def type : Literal → ValueType
  | .null => .null
  | .bool _ => .bool
  | .byte _ => .byte
  | .char _ => .char
  | .short _ => .short
  | .int _ => .int
  | .long _ => .long
  | .float _ => .float
  | .double _ => .double
  | .string _ => .string
  | .class _ => .classObject

/-- The written form of a truth value. -/
def boolText (b : Bool) : String := if b then "true" else "false"

/-- The written form of a literal; a suffix tells the kinds of numbers apart. -/
def text : Literal → String
  | .null => "null"
  | .bool value => boolText value
  | .byte value => toString value.toInt ++ "b"
  | .char unit =>
    match Text.charOfUnit? unit with
    | some c => Text.quoteChar c
    | none => "\\u" ++ Text.hex4 unit.toNat
  | .short value => toString value.toInt ++ "s"
  | .int value => toString value.toInt
  | .long value => toString value.toInt ++ "L"
  | .float value => value.write .plain ++ "f"
  | .double value => value.write .plain ++ "d"
  | .string value => Text.quoteString value
  | .class named => named.text ++ ".class"

/-! ## Defaults -/

/-- What a slot of a type holds before anything is stored in it. -/
def defaultOf : ValueType → Literal
  | .bool => .bool false
  | .byte => .byte 0
  | .char => .char 0
  | .short => .short 0
  | .int => .int 0
  | .long => .long 0
  | .float => .float (.zero false)
  | .double => .double (.zero false)
  | _ => .null

/-- Whether a literal counts as the default of a slot of the given type. Numbers do when
they are zero, whatever the type of the slot and the sign of the zero. -/
def isDefault (literal : Literal) (slot : ValueType) : Bool :=
  match literal with
  | .null => slot.isPointer
  | .bool value => !value
  | .byte value => value == 0
  | .char unit => unit == 0
  | .short value => value == 0
  | .int value => value == 0
  | .long value => value == 0
  | .float value => value.magnitude == 0
  | .double value => value.magnitude == 0
  | .string _ | .class _ => false

end Literal
end Concolic
