import Concolic.Term.Basic

/-!
# Solver models

A satisfying assignment: the value of each term and the heap that the references among the
values lead to. The engine sees a model through these questions only. `HeapModel` answers
them from tables.
-/

namespace Concolic

/-- A concrete value that a model gives to a term. -/
inductive ModelValue where
  | null
  | bool (value : Bool)
  | int (value : Int64)
  | float (value : Double)
  /-- The heap address of an object or array. -/
  | reference (address : Nat)
  deriving DecidableEq

def ModelValue.text : ModelValue → String
  | .null => "null"
  | .bool value => Literal.boolText value
  | .int value => toString value.toInt
  | .float value => value.write .plain
  | .reference address => "@0x" ++ Text.hex address

/-- A field or an element with the value that the model gives it. -/
structure FieldValue where
  name : String
  type : ValueType
  value : ModelValue
  deriving DecidableEq

structure Model where
  /-- The value of a term of the solved state. -/
  evaluate : Term → Option ModelValue
  /-- The dynamic type of what lies at an address. -/
  typeAt : (address : Nat) → Option ValueType
  fieldsAt : (address : Nat) → List FieldValue
  lengthAt : (address : Nat) → Option Int32
  elementsAt : (address : Nat) → List (Int32 × ModelValue)
  /-- At least the number of addresses with a field or an element. -/
  heapSize : Nat

/-- The objects and arrays of a heap, by address. -/
structure HeapObject where
  className : String
  fields : List FieldValue

structure HeapArray where
  element : ValueType
  length : Int32
  elements : List (Int32 × ModelValue)

/-- A model in the form of tables; of two entries with one key the latest counts. -/
structure HeapModel where
  values : List (Term × ModelValue) := []
  objects : List (Nat × HeapObject) := []
  arrays : List (Nat × HeapArray) := []

namespace HeapModel

/-- The value of a literal. Strings and class literals have none. -/
def valueOfLiteral : Literal → Option ModelValue
  | .null => some .null
  | .bool value => some (.bool value)
  | .byte value => some (.int value.toInt64)
  | .char unit => some (.int (Int64.ofInt unit.toNat))
  | .short value => some (.int value.toInt64)
  | .int value => some (.int value.toInt64)
  | .long value => some (.int value)
  | .float value => some (.float value.convert)
  | .double value => some (.float value)
  | .string _ | .class _ => none

def object? (m : HeapModel) (address : Nat) : Option HeapObject := m.objects.reverse.lookup address

def array? (m : HeapModel) (address : Nat) : Option HeapArray := m.arrays.reverse.lookup address

/-- The answers of the tables. A literal is evaluated by itself. -/
def toModel (m : HeapModel) : Model where
  evaluate t :=
    match t.literal? with
    | some l => valueOfLiteral l
    | none => (m.values.reverse.find? fun entry => entry.1 == t).map (·.2)
  typeAt address :=
    match m.object? address with
    | some object => some (.class object.className)
    | none => (m.array? address).map fun array => .array array.element
  fieldsAt address := ((m.object? address).map (·.fields)).getD []
  lengthAt address := (m.array? address).map (·.length)
  elementsAt address := ((m.array? address).map (·.elements)).getD []
  heapSize := m.objects.length + m.arrays.length

end HeapModel
end Concolic
