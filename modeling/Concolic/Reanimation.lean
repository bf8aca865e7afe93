import Concolic.Arena.Basic
import Concolic.Model
import Concolic.Number
import Concolic.Parameters
import Concolic.Program
import Concolic.Traversal

/-!
# Reanimation

Concrete values from a solver's model. What lies at one address becomes one node of the
arena, registered before its slots are filled, so aliases and cycles of the model come out
as shared handles. A value that fails leaves behind what was built up to then.
-/

namespace Concolic

/-- The values built so far, and the node of each address. -/
structure Reanimation where
  arena : Arena := {}
  known : List (Nat × Handle) := []

namespace Reanimation

/-- Building values: it may fail, and takes fresh names. -/
abbrev Build := ExceptT Failure (StateT Reanimation (StateM NameSupply))

/-- Build a value without a name. -/
def add (n : Node) : Build Handle :=
  modifyGet fun r =>
    let (h, arena) := r.arena.push n
    (h, { r with arena })

/-- Build a value that takes a name. -/
def addNamed (build : Arena → StateM NameSupply (Handle × Arena)) : Build Handle := do
  let r ← get
  let (h, arena) ← ExceptT.lift (StateT.lift (build r.arena))
  set { r with arena }
  return h

/-- Change the arena. -/
def edit (change : Arena → Arena) : Build Unit :=
  modify fun r => { r with arena := change r.arena }

/-! ## Scalars -/

/-- The number of a value that is one; truth values count as zero and one. -/
def number? : ModelValue → Option Number
  | .bool value => some (.int (if value then 1 else 0))
  | .int value => some (.long value)
  | .float value => some (.double value)
  | .null | .reference _ => none

/-- The literal for a value in a slot of a type. Integers keep the low bits of the value as
a 64-bit integer, real numbers go through double precision. -/
def literal? (value : ModelValue) (type : ValueType) : Option Literal :=
  if type.isIntegral then
    (number? value).bind fun n => (Number.long n.toInt64).toLiteral? type
  else if type.isReal then
    (number? value).bind fun n => (Number.double n.toDouble).toLiteral? type
  else if type.isPointer && value == .null then
    some .null
  else
    none

/-! ## The heap -/

/-- The value in a slot of a type, given how to build what lies at an address. -/
def slotValue (heap : Nat → ValueType → Build Handle) (value : ModelValue) (type : ValueType) :
    Build Handle :=
  match value with
  | .reference address => heap address type
  | value =>
    match literal? value type with
    | some literal => add (.constant literal)
    | none => throw (.reanimation (.unreadable value type))

/-- Remember the node of an address. -/
def remember (address : Nat) (h : Handle) : Build Unit :=
  modify fun r => { r with known := (address, h) :: r.known }

/-- Fill the fields of an object. -/
def fillFields (heap : Nat → ValueType → Build Handle) (owner : Handle)
    (fields : List FieldValue) : Build Unit :=
  fields.forM fun f => do
    let child ← slotValue heap f.value f.type
    edit fun a => a.setField owner f.name f.type child

/-- Fill the elements of an array. -/
def fillElements (heap : Nat → ValueType → Build Handle) (owner : Handle) (type : ValueType)
    (elements : List (Int32 × ModelValue)) : Build Unit :=
  elements.forM fun (index, value) => do
    let child ← slotValue heap value type
    edit fun a => a.setElement owner index child

/-- What lies at an address, seen through a slot of the declared type. The model's own type
counts where it has one. Without fuel, slots stay empty. -/
def heapValue (m : Model) : (fuel : Nat) → (address : Nat) → (declared : ValueType) → Build Handle
  | fuel, address, declared => do
    match (← get).known.lookup address with
    | some h => return h
    | none =>
      match (m.typeAt address).getD declared with
      | .array element =>
        let h ← addNamed fun a => a.array element ((m.lengthAt address).getD 0)
        remember address h
        match fuel with
        | 0 => return h
        | fuel + 1 =>
          fillElements (heapValue m fuel) h element (m.elementsAt address)
          return h
      | .class name =>
        let h ← addNamed fun a => a.object name
        remember address h
        match fuel with
        | 0 => return h
        | fuel + 1 =>
          fillFields (heapValue m fuel) h (m.fieldsAt address)
          return h
      | other => throw (.reanimation (.notReference address other))

/-- A value of the model in a slot of a type. -/
def value (m : Model) (v : ModelValue) (type : ValueType) : Build Handle :=
  slotValue (heapValue m (m.heapSize + 1)) v type

/-- The value of a term. A term that the model does not constrain has the default of its
type. -/
def ofTerm (m : Model) (t : Term) : Build Handle :=
  match m.evaluate t with
  | some v => value m v t.type
  | none => addNamed fun a => a.default t.type true

/-! ## Parameters of a call -/

/-- The class and the name of the static field that a term reads. -/
def staticField? : Term → Option (String × String)
  | .unary .fieldLoad _ (.unary (.field name) _ (.leaf (.class owner) .statics)) =>
    some (owner, name)
  | _ => none

/-- The holder for the static fields of a class, made where it is first needed. -/
def holderOf (holders : List (String × Handle)) (owner : String) :
    Build (Handle × List (String × Handle)) :=
  match holders.lookup owner with
  | some h => return (h, holders)
  | none => do
    let h ← modifyGet fun r =>
      let (h, arena) := r.arena.statics owner
      (h, { r with arena })
    return (h, holders ++ [(owner, h)])

/-- Put the values of static fields into the holders of their classes; what the model does
not evaluate is left out. -/
def fillHolders (m : Model) : List Term → List (String × Handle) → Build (List (String × Handle))
  | [], holders => return holders
  | load :: rest, holders =>
    match staticField? load, m.evaluate load with
    | some (owner, name), some v => do
      let (holder, holders) ← holderOf holders owner
      let child ← value m v load.type
      edit fun a => a.setField holder name load.type child
      fillHolders m rest holders
    | _, _ => fillHolders m rest holders

/-- The receiver, the arguments and the static fields that a state reads. -/
def parameters (m : Model) (info : MethodInfo) (s : SymbolicState) : Build (Parameters Handle) := do
  let receiver ←
    if info.isStatic then pure none else some <$> ofTerm m (.this info.ownerType)
  let arguments ← (info.arguments.mapIdx fun index type => Term.argument type index).mapM (ofTerm m)
  let holders ← fillHolders m (s.collect fun t => (staticField? t).isSome) []
  return { receiver, arguments, statics := holders.map (·.2) }

/-- Run a build from an empty arena. -/
def start {α : Type} (build : Build α) : StateM NameSupply (Except Failure α × Arena) := do
  let (outcome, r) ← build.run {}
  return (outcome, r.arena)

end Reanimation
end Concolic
