import Concolic.ValueType

/-!
# Merging operand types

The type of an operator whose operands disagree. Equal types merge to themselves, classes
to the first operand that is an ancestor of all the others (or to the root class),
integral types to the widest, real types to `double`. The type of `null` takes no part
unless nothing else is there.
-/

namespace Concolic

/-- Subtype knowledge about class names. -/
structure Hierarchy where
  isAncestor : (ancestor descendant : String) → Bool

namespace ValueType

/-- The operand types that take part in a merge: each once, in order of appearance,
without `null`. -/
def mergeCandidates (types : List ValueType) : List ValueType :=
  types.foldl (fun seen t => if t = .null ∨ t ∈ seen then seen else seen ++ [t]) []

/-- The first class that is each of the others or an ancestor of it. -/
def commonAncestor? (hierarchy : Hierarchy) (classes : List String) : Option String :=
  classes.find? fun candidate =>
    classes.all fun other => candidate == other || hierarchy.isAncestor candidate other

/-- The widest of the types; among equally wide ones the last. -/
def widest (first : ValueType) (rest : List ValueType) : ValueType :=
  rest.foldl (fun best t => if best.bits?.getD 0 ≤ t.bits?.getD 0 then t else best) first

/-- The common type of the operands, if they have one. -/
def merge? (hierarchy : Hierarchy) (types : List ValueType) : Option ValueType :=
  match mergeCandidates types with
  | [] => if types.isEmpty then none else some .null
  | [only] => some only
  | first :: rest =>
    let candidates := first :: rest
    if candidates.all isPointer then
      let classes := candidates.filterMap className?
      if classes.length = candidates.length then
        some (((commonAncestor? hierarchy classes).map .class).getD object)
      else
        some object
    else if candidates.all isIntegral then
      some (widest first rest)
    else if candidates.all isReal then
      some .double
    else
      none

end ValueType
end Concolic
