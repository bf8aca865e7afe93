import Concolic.Term.Basic

/-!
# Traversal

Everything a state holds, in order: each predicate before its terms, each term before its
operands, the parameters of a function before its body.
-/

namespace Concolic

/-- A place that a traversal comes to. -/
inductive Visit where
  | predicate (p : Predicate)
  | term (t : Term)

mutual

def Term.visits : Term → List Visit
  | .leaf type l => [.term (.leaf type l)]
  | .unary op type a => .term (.unary op type a) :: a.visits
  | .binary op type a b => .term (.binary op type a b) :: (a.visits ++ b.visits)
  | .ternary op type a b c =>
    .term (.ternary op type a b c) :: (a.visits ++ b.visits ++ c.visits)
  | .call type method receiver arguments =>
    .term (.call type method receiver arguments) ::
      (receiver.visits ++ Term.visitsOfAll arguments)
  | .lambda type params body =>
    .term (.lambda type params body) :: (Term.visitsOfAll params ++ State.visits body)

def Term.visitsOfAll : List Term → List Visit
  | [] => []
  | t :: rest => t.visits ++ Term.visitsOfAll rest

def Assertion.visits : Assertion Term → List Visit
  | .unary _ a => a.visits
  | .binary _ a b => a.visits ++ b.visits
  | .newArray array dimensions => array.visits ++ Term.visitsOfAll dimensions
  | .generate array length generator => array.visits ++ length.visits ++ generator.visits

def Clause.visits : Clause Term → List Visit
  | ⟨role, assertion, location⟩ => .predicate ⟨role, assertion, location⟩ :: assertion.visits

def State.visits : State (Clause Term) → List Visit
  | .basic parts => State.visitsOfParts parts
  | .chain first second => State.visits first ++ State.visits second
  | .choice alternatives => State.visitsOfAll alternatives

def State.visitsOfParts : List (Clause Term) → List Visit
  | [] => []
  | p :: rest => p.visits ++ State.visitsOfParts rest

def State.visitsOfAll : List (State (Clause Term)) → List Visit
  | [] => []
  | s :: rest => State.visits s ++ State.visitsOfAll rest

end

/-- The term of a visit to a term. -/
def Visit.term? : Visit → Option Term
  | .term t => some t
  | .predicate _ => none

namespace State

/-- Every term of a state, repetitions included. -/
def terms (s : SymbolicState) : List Term := s.visits.filterMap Visit.term?

/-- The terms that pass the test, each at its first occurrence. -/
def collect (keep : Term → Bool) (s : SymbolicState) : List Term :=
  (s.terms.filter keep).foldl (fun seen t => if seen.contains t then seen else seen ++ [t]) []

end State
end Concolic
