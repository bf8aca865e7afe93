/-!
# Value types

The closed universe of types that terms carry: the primitive types of the analysed
program, classes by name, arrays, and locations. A location type is the type of a field
or of an array slot; loading from the location gives a value of the type it targets.
-/

namespace Concolic

/-- The type of a term. -/
inductive ValueType where
  | void
  | bool
  | byte
  | char
  | short
  | int
  | long
  | float
  | double
  | null
  | class (name : String)
  | array (element : ValueType)
  | location (target : ValueType)
  deriving DecidableEq, Repr, Inhabited

namespace ValueType

/-- The root of the class hierarchy. -/
def object : ValueType := .class "java/lang/Object"

/-- The class of string values. -/
def string : ValueType := .class "java/lang/String"

/-- The class of class literals. -/
def classObject : ValueType := .class "java/lang/Class"

/-- The written form of a type. -/
def text : ValueType → String
  | .void => "void"
  | .bool => "bool"
  | .byte => "byte"
  | .char => "char"
  | .short => "short"
  | .int => "int"
  | .long => "long"
  | .float => "float"
  | .double => "double"
  | .null => "null"
  | .class name => name
  | .array element => element.text ++ "[]"
  | .location target => "&" ++ target.text

/-- The types that have a name of their own. -/
def named : List (String × ValueType) :=
  [void, bool, byte, char, short, int, long, float, double, null].map (fun t => (t.text, t))
    ++ [("object", object), ("string", string)]

/-- References to the heap: classes, arrays and the type of `null`. -/
def isPointer : ValueType → Bool
  | .class _ | .array _ | .null => true
  | _ => false

/-- The width by which integral operands are widened. -/
def bits? : ValueType → Option Nat
  | .bool => some 1
  | .byte => some 8
  | .char | .short => some 16
  | .int => some 32
  | .long => some 64
  | _ => none

def isIntegral (t : ValueType) : Bool := t.bits?.isSome

def isReal : ValueType → Bool
  | .float | .double => true
  | _ => false

def isNumeric (t : ValueType) : Bool := t.isIntegral || t.isReal

def className? : ValueType → Option String
  | .class name => some name
  | _ => none

def element? : ValueType → Option ValueType
  | .array element => some element
  | _ => none

/-- What a load from a location of this type yields; any other type yields itself. -/
def loaded : ValueType → ValueType
  | .location target => target
  | t => t

/-- The place of a type's shape in the order on types. -/
def rank : ValueType → Nat
  | .void => 0
  | .bool => 1
  | .byte => 2
  | .char => 3
  | .short => 4
  | .int => 5
  | .long => 6
  | .float => 7
  | .double => 8
  | .null => 9
  | .class _ => 10
  | .array _ => 11
  | .location _ => 12

/-- Types are ordered by shape; classes by name, arrays and locations by what they hold. -/
def compare : ValueType → ValueType → Ordering
  | .class a, .class b => Ord.compare a b
  | .array a, .array b => a.compare b
  | .location a, .location b => a.compare b
  | a, b => Ord.compare a.rank b.rank

instance : Ord ValueType := ⟨compare⟩

@[simp] theorem loaded_location (t : ValueType) : (location t).loaded = t := rfl

@[simp] theorem compare_self (t : ValueType) : t.compare t = .eq := by
  induction t <;> simp_all [compare, rank]

theorem not_isPointer_of_isNumeric {t : ValueType} (h : t.isNumeric = true) :
    t.isPointer = false := by
  cases t <;> simp_all [isNumeric, isIntegral, isReal, bits?, isPointer]

end ValueType
end Concolic
