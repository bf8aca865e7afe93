import Concolic.Term.Build

/-!
# Arenas

Concrete values for a test, as a graph: constants, objects with their fields, holders of the
static fields of a class, and arrays. A container leads to the values in its slots through
handles into the arena, so values may be shared and may be cyclic. Slots are kept in order:
fields by name and then by type, elements by index.
-/

namespace Concolic

/-- The place of a value in an arena. -/
structure Handle where
  index : Nat
  deriving DecidableEq, Repr

def Handle.text (h : Handle) : String := "d" ++ toString h.index

/-- A place inside a container. -/
inductive Slot where
  | field (name : String) (type : ValueType)
  | element (index : Int32)
  deriving DecidableEq

namespace Slot

def compare : Slot → Slot → Ordering
  | .field a s, .field b t => (Ord.compare a b).then (s.compare t)
  | .element i, .element j => Ord.compare i j
  | .field _ _, .element _ => .lt
  | .element _, .field _ _ => .gt

def text : Slot → String
  | .field name type => name ++ ": " ++ type.text
  | .element index => "[" ++ toString index.toInt ++ "]"

/-- The term that reads the slot of a container. -/
def load (owner : Term) : Slot → Term
  | .field name type => .fieldLoad (.field owner type name)
  | .element index => .arrayLoad (.arraySlot owner (.int index))

end Slot

/-- What kind of value a node is. -/
inductive Shape where
  | constant (value : Literal)
  | object
  /-- The static fields of a class. -/
  | statics
  | array (length : Int32)
  deriving DecidableEq

structure Node where
  /-- The symbolic name of the value. -/
  term : Term
  type : ValueType
  shape : Shape
  slots : List (Slot × Handle) := []

namespace Node

/-- A constant. -/
def constant (value : Literal) : Node := ⟨.literal value, value.type, .constant value, []⟩

def literal? (n : Node) : Option Literal :=
  match n.shape with
  | .constant value => some value
  | _ => none

def isConstant (n : Node) : Bool := n.literal?.isSome

/-- Objects and arrays: what lies on the heap and has an identity. -/
def isOnHeap (n : Node) : Bool :=
  match n.shape with
  | .object | .array _ => true
  | .constant _ | .statics => false

/-- Whether the node has fields. -/
def hasFields (n : Node) : Bool :=
  match n.shape with
  | .object | .statics => true
  | .constant _ | .array _ => false

/-- The element type of an array. -/
def element? (n : Node) : Option ValueType :=
  match n.shape with
  | .array _ => n.type.element?
  | _ => none

/-- Whether an array has a place for the index. -/
def hasIndex (n : Node) (index : Int32) : Bool :=
  match n.shape with
  | .array length => 0 ≤ index && index < length
  | _ => false

/-- The values in the slots, in the order of the slots. -/
def children (n : Node) : List Handle := n.slots.map (·.2)

/-- What a slot of the node leads to. -/
def at? (n : Node) (slot : Slot) : Option Handle := n.slots.lookup slot

/-- The type of the values in a slot. -/
def slotType? (n : Node) : Slot → Option ValueType
  | .field _ type => some type
  | .element _ => n.element?

/-- Put a value into a slot, in place of the one there. -/
def insertSlot (slot : Slot) (h : Handle) : List (Slot × Handle) → List (Slot × Handle)
  | [] => [(slot, h)]
  | (s, k) :: rest =>
    match slot.compare s with
    | .lt => (slot, h) :: (s, k) :: rest
    | .eq => (slot, h) :: rest
    | .gt => (s, k) :: insertSlot slot h rest

def insert (n : Node) (slot : Slot) (h : Handle) : Node :=
  { n with slots := insertSlot slot h n.slots }

/-- The node without a slot. -/
def erase (n : Node) (slot : Slot) : Node :=
  { n with slots := n.slots.filter fun entry => entry.1 != slot }

/-- The node under the same name with another type. -/
def retype (n : Node) (type : ValueType) : Node :=
  { n with term := .value type n.term.text, type }

end Node

structure Arena where
  nodes : List Node := []

namespace Arena

def size (a : Arena) : Nat := a.nodes.length

/-- The node at a handle; a handle that leads nowhere leads to null. -/
def node (a : Arena) (h : Handle) : Node := a.nodes.getD h.index (.constant .null)

def term (a : Arena) (h : Handle) : Term := (a.node h).term

/-- Add a node. -/
def push (a : Arena) (n : Node) : Handle × Arena := (⟨a.size⟩, ⟨a.nodes ++ [n]⟩)

/-- Change a node. -/
def update (a : Arena) (h : Handle) (change : Node → Node) : Arena :=
  ⟨a.nodes.modify h.index change⟩

/-! ## New values -/

def constant (a : Arena) (value : Literal) : Handle × Arena := a.push (.constant value)

/-- A new value on the heap, named afresh. -/
def pushNamed (a : Arena) (type : ValueType) (shape : Shape) :
    StateM NameSupply (Handle × Arena) := do
  let term ← Term.fresh type
  return a.push ⟨term, type, shape, []⟩

def object (a : Arena) (className : String) : StateM NameSupply (Handle × Arena) :=
  a.pushNamed (.class className) .object

/-- An array; a negative length counts as zero. -/
def array (a : Arena) (element : ValueType) (length : Int32) :
    StateM NameSupply (Handle × Arena) :=
  a.pushNamed (.array element) (.array (max length 0))

/-- The holder of the static fields of a class. -/
def statics (a : Arena) (className : String) : Handle × Arena :=
  a.push ⟨.statics (.class className), .class className, .statics, []⟩

/-- What a place of a type holds at first. Where null is not allowed, an object without
fields or an array without elements takes its place. -/
def default (a : Arena) (type : ValueType) (nullable : Bool) :
    StateM NameSupply (Handle × Arena) :=
  match type, nullable with
  | .class name, false => a.object name
  | .array element, false => a.array element 0
  | type, _ => return a.constant (Literal.defaultOf type)

/-! ## Slots -/

/-- Set a field of an object or a holder; other nodes have none. -/
def setField (a : Arena) (owner : Handle) (name : String) (type : ValueType) (value : Handle) :
    Arena :=
  a.update owner fun n => if n.hasFields then n.insert (.field name type) value else n

/-- Set an element of an array, if the index is in range. -/
def setElement (a : Arena) (owner : Handle) (index : Int32) (value : Handle) : Arena :=
  a.update owner fun n => if n.hasIndex index then n.insert (.element index) value else n

/-- What a slot leads to. -/
def at? (a : Arena) (owner : Handle) (slot : Slot) : Option Handle := (a.node owner).at? slot

/-- Empty a slot. -/
def erase (a : Arena) (owner : Handle) (slot : Slot) : Arena :=
  a.update owner (·.erase slot)

/-- Give a node another type. -/
def retype (a : Arena) (h : Handle) (type : ValueType) : Arena :=
  a.update h (·.retype type)

/-- Whether the fields of one node may be taken over by another. -/
def canMerge (a : Arena) (into source : Handle) : Bool :=
  let n := a.node into
  let m := a.node source
  into != source && n.type == m.type && n.hasFields && n.shape == m.shape

/-- Take over the fields of another node of the same kind and type that are not set yet. -/
def merge (a : Arena) (into source : Handle) : Arena :=
  if a.canMerge into source then
    a.update into fun n => (a.node source).slots.foldl (fun n (slot, h) =>
      if (n.at? slot).isSome then n else n.insert slot h) n
  else
    a

end Arena
end Concolic
