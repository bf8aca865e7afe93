import Concolic.Arena.Walk
import Concolic.Config.Settings
import Concolic.Parameters
import Concolic.Program

/-!
# Changing an arena

Comparison up to renaming of values, copies, removal of slots that hold their default, and
concretization: objects of classes that a test cannot instantiate get a subtype that it can.
-/

namespace Concolic.Arena

/-! ## Structural equality -/

/-- Whether two nodes agree by themselves. -/
def agree (n m : Node) : Bool :=
  n.shape == m.shape && (n.isConstant || n.type == m.type)

/-- The pairs of values in slots that two agreeing nodes share. -/
def sharedSlots (a : Arena) (pair : Handle × Handle) : List (Unit × Handle × Handle) :=
  let n := a.node pair.1
  let m := a.node pair.2
  if pair.1 = pair.2 || !agree n m then []
  else n.slots.filterMap fun (slot, h) => (m.at? slot).map fun k => ((), h, k)

/-- Whether two values look alike, whatever their names: wherever both have a slot, the
values in it look alike. -/
def structurallyEqual (a : Arena) (h k : Handle) : Bool :=
  let pairs := (Spanning.walk a.sharedSlots (a.size * a.size + 2) () (h, k)).order
  pairs.all fun (h, k) => h == k || agree (a.node h) (a.node k)

/-! ## Copies -/

/-- The name of a copy. What lies on the heap is named afresh. -/
def copyName (n : Node) : StateM NameSupply Term :=
  if n.isOnHeap then Term.fresh n.type else return n.term

/-- A copy being made: the arena that it grows, and the copy of each value that has one. -/
structure Copying where
  arena : Arena
  names : NameSupply
  copies : List (Handle × Handle) := []

namespace Copying

/-- Give a value a copy, whose slots are empty yet. -/
def enter (c : Copying) (h : Handle) : Handle × Copying :=
  let n := c.arena.node h
  let (term, names) := (copyName n).run c.names
  let (k, arena) := c.arena.push { n with term, slots := [] }
  (k, { arena, names, copies := (h, k) :: c.copies })

/-- Fill a slot of a copy. -/
def fill (c : Copying) (k : Handle) (slot : Slot) (child : Handle) : Copying :=
  { c with arena := c.arena.update k (·.insert slot child) }

end Copying

/-- Fill the slots of a copy with copies of what the slots of the original lead to. -/
def copySlots (copyChild : Handle → StateM Copying Handle) (k : Handle)
    (slots : List (Slot × Handle)) : StateM Copying Unit :=
  slots.forM fun (slot, child) => do
    let copied ← copyChild child
    modify fun c => c.fill k slot copied

/-- The copy of a value; one that has a copy is not copied again. The copy is registered before
its slots are filled, so sharing and cycles are copied as such. Without fuel, slots stay empty. -/
def copyValue : (fuel : Nat) → Handle → StateM Copying Handle
  | fuel, h => do
    let c ← get
    match c.copies.lookup h with
    | some k => return k
    | none =>
      let k ← modifyGet fun c => c.enter h
      match fuel with
      | 0 => return k
      | fuel + 1 =>
        copySlots (copyValue fuel) k (c.arena.node h).slots
        return k

/-- Copy everything that a value reaches. -/
def copy (a : Arena) (root : Handle) : StateM NameSupply (Handle × Arena) :=
  modifyGet fun names =>
    let (k, c) := (copyValue a.size root).run { arena := a, names }
    ((k, c.arena), c.names)

/-! ## Reduction -/

/-- Whether a slot of a node holds nothing but the default of its type. -/
def isDefaultSlot (a : Arena) (n : Node) (entry : Slot × Handle) : Bool :=
  match (a.node entry.2).literal?, n.slotType? entry.1 with
  | some value, some type => value.isDefault type
  | _, _ => false

/-- The node without the slots that hold their default. -/
def withoutDefaults (a : Arena) (n : Node) : Node :=
  { n with slots := n.slots.filter fun entry => !a.isDefaultSlot n entry }

/-- The slots of a node that do not hold their default. -/
def survivingEdges (a : Arena) (h : Handle) : List (Unit × Handle) :=
  (a.withoutDefaults (a.node h)).slots.map fun (_, child) => ((), child)

/-- Leave out, in everything that a value reaches, the slots that hold their default. -/
def reduce (a : Arena) (root : Handle) : Arena :=
  let reached := (Spanning.walk a.survivingEdges (a.size + 2) () root).order
  ⟨a.nodes.mapIdx fun index n => if reached.contains ⟨index⟩ then a.withoutDefaults n else n⟩

/-! ## Concretization -/

/-- Whether a test may create instances of a class. -/
def isInstantiable (program : Program) (least : Visibility) (className : String) : Bool :=
  (program.class? className).any (·.isInstantiable least)

/-- The class to use in the place of the given one, if it has to be another. A class that
the program does not know is left alone. -/
def substitute (program : Program) (least : Visibility) (className : String) :
    Except Failure (Option String) :=
  if (program.class? className).isNone || isInstantiable program least className then .ok none
  else
    match program.subtype? className with
    | some sub =>
      if sub != className && isInstantiable program least sub then .ok (some sub)
      else .error (.noConcreteInstance className)
    | none => .error (.noConcreteInstance className)

/-- Changes to an arena that may fail half-way. -/
abbrev Edit := ExceptT Failure (StateM Arena)

/-- Concretize one node. -/
def concretizeNode (program : Program) (least : Visibility) (h : Handle) : Edit Unit := do
  let n := (← get).node h
  match n.shape, n.type with
  | .object, .class className =>
    match substitute program least className with
    | .ok none => pure ()
    | .ok (some sub) => modify fun a => a.retype h (.class sub)
    | .error failure => throw failure
  | _, _ => pure ()

/-- The slots of a node, the last first. -/
def edgesBackwards (a : Arena) (h : Handle) : List (Unit × Handle) :=
  ((a.node h).children.map fun child => ((), child)).reverse

/-- Concretize everything that a value reaches. -/
def concretize (program : Program) (least : Visibility) (root : Handle) : Edit Unit := do
  let a ← get
  (Spanning.walk a.edgesBackwards (a.size + 2) () root).order.forM
    (concretizeNode program least)

/-- Drop the final fields of the holder of a class's static fields: a test cannot assign
them. -/
def dropFinalFields (program : Program) (a : Arena) (holder : Handle) : Arena :=
  let isFinal (className : String) : Slot → Bool
    | .field name _ => (program.field? className name).any (·.isFinal)
    | .element _ => false
  a.update holder fun n =>
    match n.shape, n.type with
    | .statics, .class className =>
      { n with slots := n.slots.filter fun entry => !isFinal className entry.1 }
    | _, _ => n

/-- Make the parameters of a test concrete, and reduce them if the settings ask for it. -/
def concretizeParameters (program : Program) (settings : Config.DescriptorSettings)
    (parameters : Parameters Handle) : Edit Unit := do
  parameters.all.forM (concretize program settings.visibility)
  modify fun a => parameters.statics.foldl (dropFinalFields program) a
  if settings.reduce then
    modify fun a => parameters.all.foldl reduce a

end Concolic.Arena
