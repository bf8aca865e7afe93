import Concolic.State.Builder
import Concolic.Term.Basic

/-!
# Revising terms and states

A walk over a state that visits operands before the terms and predicates they belong to and
hands each rebuilt node to a rule. Where the rules change nothing, the walk gives back what
it was given: a part is put in place only if it differs from the one that was there.

There are two disciplines. The plain walk returns a new state of the same shape. The
recollecting walk sends every predicate that is kept to the builder in use, with a builder
of its own for each alternative of a choice and each body of a function, so that a rule may
put whole states in the place of a predicate.
-/

namespace Concolic

/-- What becomes of a predicate. -/
inductive Verdict where
  | keep (p : Predicate)
  | elide
  /-- The predicate gives way to what is added to the builder in use. -/
  | splice (add : StateBuilder Predicate → StateBuilder Predicate)

/-- The rules of a revision, with effects in `m`. -/
structure Rules (m : Type → Type) [Monad m] where
  /-- Terms that are replaced as a whole, without a look at their operands. -/
  shortcut : Term → Option Term := fun _ => none
  /-- What becomes of a term whose operands have been revised. -/
  term : Term → m Term := pure
  /-- What becomes of a predicate whose operands have been revised. -/
  predicate : Predicate → m Verdict := fun p => pure (.keep p)

/-- The new value, unless it is the same as the old one. -/
def settle {α : Type} [BEq α] (old new : α) : α := if new == old then old else new

namespace Rules

variable {m : Type → Type} [Monad m]

/-- A walk that carries the builders. -/
abbrev Walk (m : Type → Type) : Type → Type := StateT (BuilderStack Predicate) m

/-- The revision of one term, given the walk that rebuilds it from its operands. -/
def around (R : Rules m) (t : Term) (rebuild : Walk m Term) : Walk m Term :=
  match R.shortcut t with
  | some replacement => pure replacement
  | none => do
    let rebuilt ← rebuild
    StateT.lift (R.term rebuilt)

/-- What a walk over a state gathers in a builder of its own; in the plain discipline, the
state the walk returns. -/
def inOwnBuilder (recollecting : Bool) (walk : Walk m SymbolicState) : Walk m SymbolicState :=
  if recollecting then do
    modify BuilderStack.pushFresh
    let _ ← walk
    modifyGet BuilderStack.pop
  else
    walk

/-- Change the builder in use, if there are builders. -/
def build (recollecting : Bool) (change : StateBuilder Predicate → StateBuilder Predicate) :
    Walk m Unit :=
  if recollecting then modify fun stack => stack.onTop change else pure ()

mutual

def onTerm (R : Rules m) (recollecting : Bool) : Term → Walk m Term
  | .leaf type l => R.around (.leaf type l) (pure (.leaf type l))
  | .unary op type a => R.around (.unary op type a) do
    let a' ← R.onTerm recollecting a
    return if a' == a then .unary op type a else .unary op type a'
  | .binary op type a b => R.around (.binary op type a b) do
    let a' ← R.onTerm recollecting a
    let b' ← R.onTerm recollecting b
    return if a' == a && b' == b then .binary op type a b else .binary op type a' b'
  | .ternary op type a b c => R.around (.ternary op type a b c) do
    let a' ← R.onTerm recollecting a
    let b' ← R.onTerm recollecting b
    let c' ← R.onTerm recollecting c
    return if a' == a && b' == b && c' == c then .ternary op type a b c
      else .ternary op type a' b' c'
  | .call type method receiver arguments => R.around (.call type method receiver arguments) do
    let receiver' ← R.onTerm recollecting receiver
    let arguments' ← R.onTerms recollecting arguments
    return if receiver' == receiver && arguments' == arguments
      then .call type method receiver arguments
      else .call type method receiver' arguments'
  | .lambda type params body => R.around (.lambda type params body) do
    let params' ← R.onTerms recollecting params
    let body' ← inOwnBuilder recollecting (R.onState recollecting body)
    return .lambda type (settle params params') (settle body body')

def onTerms (R : Rules m) (recollecting : Bool) : List Term → Walk m (List Term)
  | [] => return []
  | t :: rest => do
    let t' ← R.onTerm recollecting t
    let rest' ← R.onTerms recollecting rest
    return t' :: rest'

def onAssertion (R : Rules m) (recollecting : Bool) :
    Assertion Term → Walk m (Assertion Term)
  | .unary verb a => do
    let a' ← R.onTerm recollecting a
    return .unary verb a'
  | .binary verb a b => do
    let a' ← R.onTerm recollecting a
    let b' ← R.onTerm recollecting b
    return .binary verb a' b'
  | .newArray array dimensions => do
    let array' ← R.onTerm recollecting array
    let dimensions' ← R.onTerms recollecting dimensions
    return .newArray array' dimensions'
  | .generate array length generator => do
    let array' ← R.onTerm recollecting array
    let length' ← R.onTerm recollecting length
    let generator' ← R.onTerm recollecting generator
    return .generate array' length' generator'

def onPredicate (R : Rules m) (recollecting : Bool) : Clause Term → Walk m Verdict
  | ⟨role, assertion, location⟩ => do
    let assertion' ← R.onAssertion recollecting assertion
    StateT.lift (R.predicate ⟨role, settle assertion assertion', location⟩)

/-- The predicates of a run that are kept, each sent to the builder in use. -/
def onParts (R : Rules m) (recollecting : Bool) :
    List (Clause Term) → Walk m (List Predicate)
  | [] => return []
  | p :: rest => do
    match ← R.onPredicate recollecting p with
    | .keep q =>
      build recollecting (·.push q)
      let rest' ← R.onParts recollecting rest
      return q :: rest'
    | .elide => R.onParts recollecting rest
    | .splice add =>
      build recollecting add
      R.onParts recollecting rest

def onState (R : Rules m) (recollecting : Bool) : State (Clause Term) → Walk m SymbolicState
  | .basic parts => do
    let parts' ← R.onParts recollecting parts
    return .basic (settle parts parts')
  | .chain first second => do
    let first' ← R.onState recollecting first
    let second' ← R.onState recollecting second
    return if first' == first && second' == second then .chain first second
      else .chain first' second'
  | .choice alternatives => do
    let alternatives' ← R.onAlternatives recollecting alternatives
    build recollecting (·.addChoice alternatives')
    return .choice (settle alternatives alternatives')

def onAlternatives (R : Rules m) (recollecting : Bool) :
    List (State (Clause Term)) → Walk m (List SymbolicState)
  | [] => return []
  | s :: rest => do
    let s' ← inOwnBuilder recollecting (R.onState recollecting s)
    let rest' ← R.onAlternatives recollecting rest
    return s' :: rest'

end

/-- Revise a term on its own, in the plain discipline. -/
def reviseTerm (R : Rules m) (t : Term) : m Term := do
  let (t', _) ← (R.onTerm false t).run {}
  return t'

/-- Revise a whole state and simplify what comes out. -/
def revise (R : Rules m) (recollecting : Bool) (s : SymbolicState) : m SymbolicState := do
  let (s', stack) ← (R.onState recollecting s).run {}
  return (if recollecting then stack.topState else s').simplify

end Rules
end Concolic
