import Concolic.ValueType

/-!
# Methods, classes and fields

What the model of the analysed program says about its members.
-/

namespace Concolic

/-- How widely a class may be used, from the most to the least restricted. -/
inductive Visibility where
  | classOnly
  | packageWide
  | subclasses
  | everywhere
  deriving DecidableEq, Repr

namespace Visibility

def rank : Visibility → Nat
  | .classOnly => 0
  | .packageWide => 1
  | .subclasses => 2
  | .everywhere => 3

/-- Whether a visibility is at least as wide as another. -/
def reaches (v least : Visibility) : Bool := least.rank ≤ v.rank

/-- All visibilities, in ascending order. -/
def all : List Visibility := [.classOnly, .packageWide, .subclasses, .everywhere]

def name : Visibility → String
  | .classOnly => "private"
  | .packageWide => "package"
  | .subclasses => "protected"
  | .everywhere => "public"

/-- The visibility of a name. -/
def ofName? (s : String) : Option Visibility := all.find? (·.name == s)

theorem ofName?_name (v : Visibility) : ofName? v.name = some v := by
  cases v <;> decide

end Visibility

/-- The identity of a method: the class that declares it, its name and its signature. -/
structure Method where
  owner : String
  name : String
  descriptor : String
  deriving DecidableEq, Repr

namespace Method

def text (m : Method) : String := m.owner ++ "." ++ m.name ++ m.descriptor

def isConstructor (m : Method) : Bool := m.name == "<init>"

def isStaticInitializer (m : Method) : Bool := m.name == "<clinit>"

end Method

/-- A basic block, by its number within the method. -/
structure BlockId where
  index : Nat
  deriving DecidableEq, Repr

def BlockId.text (b : BlockId) : String := "bb" ++ toString b.index

/-- The signature and the modifiers of a method. -/
structure MethodInfo where
  method : Method
  arguments : List ValueType
  result : ValueType
  isStatic : Bool
  isAbstract : Bool
  isNative : Bool
  deriving DecidableEq

namespace MethodInfo

def ownerType (info : MethodInfo) : ValueType := .class info.method.owner

def hasBody (info : MethodInfo) : Bool := !info.isAbstract && !info.isNative

end MethodInfo

structure ClassInfo where
  name : String
  isAbstract : Bool
  isInterface : Bool
  visibility : Visibility
  deriving DecidableEq

/-- Whether instances may be created directly by code that needs the given visibility. -/
def ClassInfo.isInstantiable (info : ClassInfo) (least : Visibility) : Bool :=
  !info.isAbstract && !info.isInterface && info.visibility.reaches least

structure FieldInfo where
  owner : String
  name : String
  type : ValueType
  isStatic : Bool
  isFinal : Bool
  deriving DecidableEq

end Concolic
