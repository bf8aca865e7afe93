import Concolic.Arena.Basic
import Concolic.Spanning

/-!
# Walks through an arena

What can be reached from a node, and the facts about it: its printed form, its depth and
what it contains, the requirements it puts on the terms that name it, and its types.
-/

namespace Concolic.Arena

/-- The slots of a node, as the edges of a graph. -/
def edges (a : Arena) (h : Handle) : List (Option Slot × Handle) :=
  (a.node h).slots.map fun (slot, child) => (some slot, child)

/-- The walk from a node through all slots in order. -/
def walk (a : Arena) (root : Handle) : Spanning (Option Slot) Handle :=
  .walk a.edges (a.size + 2) none root

/-- What can be reached from a node, itself included, in the order of the walk. -/
def reachable (a : Arena) (root : Handle) : List Handle := (a.walk root).order

/-- The depth of a value. A value that is reached again counts nothing. -/
def depth (a : Arena) (root : Handle) : Nat := (a.walk root).depth

/-- Whether a value contains another, or a constant with the same literal. -/
def contains (a : Arena) (root target : Handle) : Bool :=
  (a.reachable root).any fun h =>
    h == target || ((a.node h).isConstant && (a.node h).literal? == (a.node target).literal?)

/-! ## Printed form -/

/-- The text of one node with what its slots lead to. -/
def nodeText (a : Arena) (n : Node) : String :=
  let slots := String.join <| n.slots.map fun (slot, child) =>
    "\n    " ++ slot.text ++ " = " ++ (a.term child).text
  let opening := n.term.text ++ " = " ++ n.type.text
  match n.shape with
  | .constant value => value.text
  | .object | .statics => opening ++ " \x7b" ++ slots ++ "\n\x7d"
  | .array length => opening ++ " [" ++ toString length.toInt ++ "] \x7b" ++ slots ++ "\n\x7d"

/-- The text of a value: every container that it reaches, once. -/
def print (a : Arena) (root : Handle) : String :=
  let shown := (a.reachable root).filter fun h => h == root || !(a.node h).isConstant
  "\n".intercalate (shown.map fun h => a.nodeText (a.node h))

/-! ## Requirements -/

/-- The load through which a walk came to a value. -/
def loadInto (a : Arena) (owner : Handle) (t : Spanning (Option Slot) Handle) : Option Term :=
  t.via.map (Slot.load (a.term owner))

/-- What holds of a node by itself: what lies on the heap is not null, and an array has its
length. -/
def ownFacts (n : Node) : List Predicate :=
  let notNull : Predicate := ⟨.axiomatic, .unequal n.term .null, {}⟩
  match n.shape with
  | .constant _ | .statics => []
  | .object => [notNull]
  | .array length => [notNull, ⟨.require, .equal (.arrayLength n.term) (.int length), {}⟩]

mutual

/-- What holds of everything first reached on a walk, each value before its slots. -/
def facts (a : Arena) : Spanning (Option Slot) Handle → List Predicate
  | .visit _ h onward => ownFacts (a.node h) ++ factsOfSlots a h onward
  | .again _ _ => []

/-- What holds of the slots of a node: each holds the value it leads to. -/
def factsOfSlots (a : Arena) (owner : Handle) :
    List (Spanning (Option Slot) Handle) → List Predicate
  | [] => []
  | t :: rest =>
    (a.loadInto owner t).toList.map (fun load => ⟨.require, .equal load (a.term t.vertex), {}⟩)
      ++ facts a t ++ factsOfSlots a owner rest

end

/-- The requirements that make a value what it is. -/
def requirements (a : Arena) (root : Handle) : SymbolicState := .basic (a.facts (a.walk root))

/-! ## Types -/

/-- The flag for the type of what lies on the heap, and the assumption that it is set. -/
def typeFlag (n : Node) : StateM NameSupply (List Predicate) := do
  if n.isOnHeap then
    let flag ← Term.fresh .bool
    return [⟨.state, .equal flag (.instanceOf n.type n.term), {}⟩,
      ⟨.assume, .equal flag (.bool true), {}⟩]
  else
    return []

mutual

/-- The types of what is first reached on a walk. -/
def types (a : Arena) : Spanning (Option Slot) Handle → StateM NameSupply (List Predicate)
  | .visit _ h onward => do
    let own ← typeFlag (a.node h)
    let others ← typesOfSlots a h onward
    return own ++ others
  | .again _ _ => return []

/-- The types behind the slots of a node. Where there are any, the value is bound to the
load of its slot first. -/
def typesOfSlots (a : Arena) (owner : Handle) :
    List (Spanning (Option Slot) Handle) → StateM NameSupply (List Predicate)
  | [] => return []
  | t :: rest => do
    let own ← types a t
    let binding : List Predicate :=
      if own.isEmpty then []
      else (a.loadInto owner t).toList.map fun load => ⟨.state, .equal (a.term t.vertex) load, {}⟩
    let others ← typesOfSlots a owner rest
    return binding ++ own ++ others

end

/-- A state that pins the types of everything a value reaches. -/
def typeInfo (a : Arena) (root : Handle) : StateM NameSupply SymbolicState := do
  let parts ← a.types (a.walk root)
  return .basic parts

end Concolic.Arena
