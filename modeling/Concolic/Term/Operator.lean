import Concolic.Literal
import Concolic.Method

/-!
# Operators of terms

The symbols a term is built from, by the number of operands they take.
-/

namespace Concolic

/-- Arithmetic on two numbers. -/
inductive Arithmetic where
  | add
  | sub
  | mul
  | div
  | rem
  | shl
  | shr
  | ushr
  | and
  | or
  | xor
  deriving DecidableEq, Repr

namespace Arithmetic

def symbol : Arithmetic → String
  | .add => "+"
  | .sub => "-"
  | .mul => "*"
  | .div => "/"
  | .rem => "%"
  | .shl => "<<"
  | .shr => ">>"
  | .ushr => ">>>"
  | .and => "&"
  | .or => "|"
  | .xor => "^"

def isShift : Arithmetic → Bool
  | .shl | .shr | .ushr => true
  | _ => false

def isBitwise : Arithmetic → Bool
  | .and | .or | .xor => true
  | _ => false

end Arithmetic

/-- Comparisons. The last three tell less, equal and greater apart; of those on real
numbers one ranks an incomparable pair as greater, the other as less. -/
inductive Comparison where
  | eq
  | neq
  | lt
  | gt
  | le
  | ge
  | cmp
  | cmpg
  | cmpl
  deriving DecidableEq, Repr

namespace Comparison

def symbol : Comparison → String
  | .eq => "=="
  | .neq => "!="
  | .lt => "<"
  | .gt => ">"
  | .le => "<="
  | .ge => ">="
  | .cmp => "cmp"
  | .cmpg => "cmpg"
  | .cmpl => "cmpl"

/-- Three-way comparisons give an integer, the others a truth value. -/
def resultType : Comparison → ValueType
  | .cmp | .cmpg | .cmpl => .int
  | _ => .bool

/-- The comparison that holds when this one does not. -/
def negate? : Comparison → Option Comparison
  | .eq => some .neq
  | .neq => some .eq
  | .lt => some .ge
  | .ge => some .lt
  | .gt => some .le
  | .le => some .gt
  | .cmp | .cmpg | .cmpl => none

theorem negate?_negate? {c d : Comparison} (h : c.negate? = some d) : d.negate? = some c := by
  cases c <;> simp_all [negate?] <;> subst h <;> rfl

end Comparison

/-- Terms without operands. -/
inductive Leaf where
  | argument (index : Nat)
  /-- A local, the receiver, or a generated symbol. -/
  | value (name : String)
  | result (method : Method)
  | undefined
  | literal (constant : Literal)
  /-- The holder of the static fields of a class. -/
  | statics

namespace Leaf

/-- The written form of a leaf of the given type. -/
def text (type : ValueType) : Leaf → String
  | .argument index => "arg$" ++ toString index
  | .value name => name
  | .result method => "<retval>@" ++ method.text
  | .undefined => "<undef>"
  | .literal constant => constant.text
  | .statics => "static " ++ type.text

/-- Leaves of one type are the same when they are of one sort and are written alike. -/
protected def same : Leaf → Leaf → Bool
  | .argument i, .argument j => i == j
  | .value a, .value b => a == b
  | .result m, .result n => m.text == n.text
  | .undefined, .undefined => true
  | .literal a, .literal b => a.text == b.text
  | .statics, .statics => true
  | _, _ => false

instance : BEq Leaf := ⟨Leaf.same⟩

end Leaf

inductive UnaryOp where
  | negate
  | arrayLength
  | arrayLoad
  /-- The location of a field of the operand. -/
  | field (name : String)
  | fieldLoad
  | cast
  | instanceOf (checked : ValueType)
  | stringLength
  | toText
  | parse

namespace UnaryOp

/-- The written form over that of the operand. -/
def text (type : ValueType) (operand : String) : UnaryOp → String
  | .negate => "-" ++ operand
  | .arrayLength => operand ++ ".length"
  | .arrayLoad | .fieldLoad => "*(" ++ operand ++ ")"
  | .field name => operand ++ "." ++ name
  | .cast => "(" ++ type.text ++ ") " ++ operand
  | .instanceOf checked => operand ++ " instanceof " ++ checked.text
  | .stringLength => operand ++ ".length()"
  | .toText => operand ++ ".toString()"
  | .parse => "parse<" ++ type.text ++ ">(" ++ operand ++ ")"

/-- Same operator, with parameters that are written alike. -/
protected def same : UnaryOp → UnaryOp → Bool
  | .negate, .negate => true
  | .arrayLength, .arrayLength => true
  | .arrayLoad, .arrayLoad => true
  | .field a, .field b => a == b
  | .fieldLoad, .fieldLoad => true
  | .cast, .cast => true
  | .instanceOf a, .instanceOf b => a.text == b.text
  | .stringLength, .stringLength => true
  | .toText, .toText => true
  | .parse, .parse => true
  | _, _ => false

instance : BEq UnaryOp := ⟨UnaryOp.same⟩

end UnaryOp

inductive BinaryOp where
  | arithmetic (op : Arithmetic)
  | compare (op : Comparison)
  /-- The location of an element of an array. -/
  | arraySlot
  | arrayContains
  | equals
  | concat
  | charAt
  | stringContains
  deriving DecidableEq

/-- The written form over those of the operands. -/
def BinaryOp.text (a b : String) : BinaryOp → String
  | .arithmetic op => "(" ++ a ++ " " ++ op.symbol ++ " " ++ b ++ ")"
  | .compare op => "(" ++ a ++ " " ++ op.symbol ++ " " ++ b ++ ")"
  | .arraySlot => a ++ "[" ++ b ++ "]"
  | .arrayContains => b ++ " in " ++ a
  | .equals => a ++ ".equals(" ++ b ++ ")"
  | .concat => a ++ " ++ " ++ b
  | .charAt => a ++ ".charAt(" ++ b ++ ")"
  | .stringContains => a ++ ".contains(" ++ b ++ ")"

inductive TernaryOp where
  | indexOf
  | substring
  | ifThenElse
  | forAll
  | forSome
  deriving DecidableEq

/-- The written form over those of the operands. -/
def TernaryOp.text (a b c : String) : TernaryOp → String
  | .indexOf => a ++ ".indexOf(" ++ b ++ ", " ++ c ++ ")"
  | .substring => a ++ ".substring(" ++ b ++ ", " ++ c ++ ")"
  | .ifThenElse => "(" ++ a ++ " ? " ++ b ++ " : " ++ c ++ ")"
  | .forAll => "forall(" ++ a ++ ", " ++ b ++ ", " ++ c ++ ")"
  | .forSome => "exists(" ++ a ++ ", " ++ b ++ ", " ++ c ++ ")"

end Concolic
