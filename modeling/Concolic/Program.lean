import Concolic.Failure
import Concolic.ValueType.Merge

/-!
# Programs

The analysed program as a model of it answers questions: methods, the blocks of their
bodies, a state for each whole body, classes, fields and subtypes. Bodies are given as
predicates; the receiver is the value `this`, parameters are arguments and the outcome is
the result of the method.
-/

namespace Concolic

/-- A value chosen by the block that control came from. -/
structure Phi where
  target : Term
  incoming : List (BlockId × Term)

/-- The term that comes from a block; of several entries for the block the first. -/
def Phi.from? (phi : Phi) (block : BlockId) : Option Term := phi.incoming.lookup block

/-- How a block passes control on. -/
inductive Terminator where
  | jump (target : BlockId)
  | branch (condition : Term) (whenTrue whenFalse : BlockId)
  | switch (key : Term) (cases : List (Term × BlockId)) (default : BlockId)
  | return (value : Option Term)
  | throw (value : Term)
  | unreachable

/-- The blocks that may come next, in order. -/
def Terminator.successors : Terminator → List BlockId
  | .jump target => [target]
  | .branch _ whenTrue whenFalse => [whenTrue, whenFalse]
  | .switch _ cases default => cases.map (·.2) ++ [default]
  | .return _ | .throw _ | .unreachable => []

structure Block where
  id : BlockId
  phis : List Phi
  body : List Predicate
  terminator : Terminator

/-- What the engine may ask about the analysed program. -/
structure Program where
  hierarchy : Hierarchy
  method? : Method → Option MethodInfo
  /-- The blocks of a body, in layout order. -/
  blocks : Method → List BlockId
  block? : Method → BlockId → Except Failure (Option Block)
  /-- The state of a whole body, which takes the place of a call. -/
  body? : Method → Except Failure (Option SymbolicState)
  class? : String → Option ClassInfo
  field? : (owner name : String) → Option FieldInfo
  /-- A class that may stand in for the given one. -/
  subtype? : String → Option String

namespace Program

/-! ## Programs from tables -/

/-- What a table knows of a method's body as a state. -/
inductive BodyEntry where
  | absent
  | known (s : SymbolicState)
  | refused (message : String)

structure MethodEntry where
  info : MethodInfo
  blocks : List Block
  body : BodyEntry

/-- A program in the form of tables; of two entries with one key the latest counts, except
that a later entry without a body state leaves an earlier one in force. -/
structure Table where
  ancestors : List (String × String) := []
  methods : List MethodEntry := []
  classes : List ClassInfo := []
  fields : List FieldInfo := []
  subtypes : List (String × String) := []

namespace Table

/-- Every class is an ancestor of itself; beyond that the pairs are taken as they are. -/
def hierarchy (ancestors : List (String × String)) : Hierarchy where
  isAncestor a b := a == b || ancestors.contains (a, b)

def entry? (t : Table) (m : Method) : Option MethodEntry :=
  t.methods.reverse.find? fun e => e.info.method == m

/-- The latest state given for the body of a method. -/
def bodyEntry (t : Table) (m : Method) : BodyEntry :=
  ((t.methods.reverse.filter fun e => e.info.method == m).findSome? fun e =>
    match e.body with
    | .absent => none
    | found => some found).getD .absent

def toProgram (t : Table) : Program where
  hierarchy := hierarchy t.ancestors
  method? m := (t.entry? m).map (·.info)
  blocks m := ((t.entry? m).map fun e => e.blocks.map (·.id)).getD []
  block? m b := .ok ((t.entry? m).bind fun e => e.blocks.find? fun block => block.id == b)
  body? m :=
    match t.bodyEntry m with
    | .absent => .ok none
    | .known s => .ok (some s)
    | .refused message => .error (.program (.reported message))
  class? name := t.classes.reverse.find? fun c => c.name == name
  field? owner name := t.fields.reverse.find? fun f => f.owner == owner && f.name == name
  subtype? name := t.subtypes.reverse.lookup name

end Table
end Program
end Concolic
