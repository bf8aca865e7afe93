import Concolic.Term.Basic
import Concolic.ValueType.Merge

/-!
# Building terms

Constructors that work out the type of what they build: comparisons from the operator,
locations from the slot they lead to, loads from the location they read.
-/

namespace Concolic

/-- The source of fresh names: the number of names given out so far. -/
structure NameSupply where
  used : Nat := 0
  deriving DecidableEq

namespace NameSupply

/-- The name with the given number. -/
def name (n : Nat) : String := "term" ++ toString n

/-- The next name, and the supply without it. -/
def fresh (supply : NameSupply) : String × NameSupply :=
  (name supply.used, ⟨supply.used + 1⟩)

end NameSupply

namespace Term

def argument (type : ValueType) (index : Nat) : Term := .leaf type (.argument index)

def value (type : ValueType) (name : String) : Term := .leaf type (.value name)

/-- The receiver of the method under analysis. -/
def this (type : ValueType) : Term := value type "this"

def result (type : ValueType) (method : Method) : Term := .leaf type (.result method)

def undefined (type : ValueType) : Term := .leaf type .undefined

/-- A value with a name that nothing else has. -/
def fresh (type : ValueType) : StateM NameSupply Term := do
  let name ← modifyGet NameSupply.fresh
  return value type name

def literal (l : Literal) : Term := .leaf l.type (.literal l)

def null : Term := literal .null

def bool (b : Bool) : Term := literal (.bool b)

def int (i : Int32) : Term := literal (.int i)

def char (unit : UInt16) : Term := literal (.char unit)

def string (s : String) : Term := literal (.string s)

/-- What the static fields of a class belong to. -/
def statics (owner : ValueType) : Term := .leaf owner .statics

def arithmetic (op : Arithmetic) (type : ValueType) (a b : Term) : Term :=
  .binary (.arithmetic op) type a b

/-- An arithmetic term whose type is the merge of the operand types, if they have one. -/
def mergedArithmetic? (hierarchy : Hierarchy) (op : Arithmetic) (a b : Term) : Option Term :=
  (ValueType.merge? hierarchy [a.type, b.type]).map fun type => arithmetic op type a b

def compare (op : Comparison) (a b : Term) : Term := .binary (.compare op) op.resultType a b

def negate (a : Term) : Term := .unary .negate a.type a

def arrayLength (array : Term) : Term := .unary .arrayLength .int array

/-- The location of an element. -/
def arraySlot (array index : Term) : Term :=
  .binary .arraySlot (.location (array.type.element?.getD .object)) array index

def arrayLoad (slot : Term) : Term := .unary .arrayLoad slot.type.loaded slot

def arrayContains (array element : Term) : Term := .binary .arrayContains .bool array element

/-- The location of a field that holds values of the given type. -/
def field (owner : Term) (type : ValueType) (name : String) : Term :=
  .unary (.field name) (.location type) owner

def fieldLoad (slot : Term) : Term := .unary .fieldLoad slot.type.loaded slot

def cast (type : ValueType) (a : Term) : Term := .unary .cast type a

def instanceOf (checked : ValueType) (a : Term) : Term := .unary (.instanceOf checked) .bool a

def equals (a b : Term) : Term := .binary .equals .bool a b

def concat (a b : Term) : Term := .binary .concat .string a b

def charAt (s index : Term) : Term := .binary .charAt .char s index

def stringLength (s : Term) : Term := .unary .stringLength .int s

def stringContains (s part : Term) : Term := .binary .stringContains .bool s part

def indexOf (s part offset : Term) : Term := .ternary .indexOf .int s part offset

def substring (s offset length : Term) : Term := .ternary .substring .string s offset length

def toText (a : Term) : Term := .unary .toText .string a

/-- Read a string as a value of a primitive type. -/
def parse (type : ValueType) (s : Term) : Term := .unary .parse type s

def ifThenElse (type : ValueType) (cond a b : Term) : Term := .ternary .ifThenElse type cond a b

def forAll (start stop body : Term) : Term := .ternary .forAll .bool start stop body

def forSome (start stop body : Term) : Term := .ternary .forSome .bool start stop body

end Term

namespace Clause

/-- The logical negation, with role and position kept. An equality with a truth value is
negated in the truth value, any other equality or inequality in the relation. Nothing else
has a negation, and it is left as it is. -/
def inverse (p : Predicate) : Predicate :=
  match p.assertion with
  | .equal a b =>
    match b.literal? with
    | some (.bool value) => { p with assertion := .equal a (.bool !value) }
    | _ => { p with assertion := .unequal a b }
  | .unequal a b => { p with assertion := .equal a b }
  | _ => p

end Clause
end Concolic
