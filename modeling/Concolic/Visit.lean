import Concolic.Search

/-!
# Visiting methods

A visit searches a method and reports on it. Only an obvious contradiction makes a visit
fail; whatever else goes wrong for a method abandons its search. A failed visit cancels the
run, so the methods after it end at once.
-/

namespace Concolic

/-- What a visit has come to. -/
structure Report where
  method : Method
  iterations : Nat
  accepted : Nat
  discarded : Nat
  tests : Nat
  outcome : Outcome
  deriving DecidableEq

/-- The report on a search. -/
def Search.report (s : Search) (method : Method) (outcome : Outcome) : Report where
  method
  iterations := s.iterations
  accepted := s.accepted
  discarded := s.discarded
  tests := s.tests
  outcome

/-- How a search ended that may have failed; failures of the run are kept. -/
def outcomeOf : Except Failure Outcome → Except Failure Outcome
  | .error failure => if failure.severity = .run then .error failure else .ok .abandoned
  | result => result

namespace Engine

variable {σ : Type}

/-- Search a method, in at most so many rounds. -/
def search (e : Engine σ) (rounds : Nat) (info : MethodInfo) :
    Act σ (Search × Except Failure Outcome) := do
  let token := (← get).outside.clock.child e.token e.settings.search.timeLimitMs
  let t : Task σ := ⟨e, info, token⟩
  t.run rounds t.start

/-- Visit a method; there is no report if it is unknown or not admitted. -/
def visit (e : Engine σ) (rounds : Nat) (method : Method) :
    Act σ (Except Failure (Option Report)) := do
  match (e.program.method? method).filter e.admits with
  | none => return .ok none
  | some info =>
    let (s, result) ← e.search rounds info
    match outcomeOf result with
    | .error failure => return .error failure
    | .ok outcome =>
      Act.note (.finished method)
      return .ok (some (s.report info.method outcome))

/-- Visit a method, and cancel the run if that fails. -/
def visitOrCancel (e : Engine σ) (rounds : Nat) (method : Method) :
    Act σ (Except Failure (Option Report)) := do
  let result ← e.visit rounds method
  if !result.toBool then Act.cancel e.token
  return result

/-- Visit methods from left to right, all of them. The first failure is the result. -/
def visitAll (e : Engine σ) (rounds : Nat) (methods : List Method) :
    Act σ (Except Failure (List Report)) := do
  let results ← methods.mapM (e.visitOrCancel rounds)
  return (results.mapM id).map (·.filterMap id)

end Engine
end Concolic
