import Concolic.Arena.Walk
import Concolic.Parameters

/-!
# Test suites

The tests that searches have found, and the methods whose search is over, in the order of
these events.
-/

namespace Concolic

/-- Concrete inputs for a method. -/
structure TestCase where
  /-- The place of the test among those of one search, from one. -/
  number : Nat
  method : Method
  arena : Arena
  parameters : Parameters Handle

namespace TestCase

def name (t : TestCase) : String := "test" ++ toString t.number

/-- The inputs as a reader sees them, a line for each. -/
def text (t : TestCase) : String :=
  let line (label : String) (h : Handle) : String := label ++ ": " ++ t.arena.print h
  let lines := [t.name ++ " for " ++ t.method.text]
    ++ t.parameters.receiver.toList.map (line "instance")
    ++ t.parameters.arguments.mapIdx (fun index h => line ("arg" ++ toString index) h)
    ++ t.parameters.statics.map (line "static")
  String.join (lines.map (· ++ "\n"))

end TestCase

inductive SuiteEntry where
  | found (test : TestCase)
  | finished (method : Method)

abbrev TestSuite := List SuiteEntry

namespace TestSuite

def tests (suite : TestSuite) : List TestCase :=
  suite.filterMap fun
    | .found test => some test
    | .finished _ => none

/-- The methods whose search is over. -/
def finished (suite : TestSuite) : List Method :=
  suite.filterMap fun
    | .found _ => none
    | .finished method => some method

def testsFor (suite : TestSuite) (method : Method) : List TestCase :=
  suite.tests.filter fun test => test.method == method

/-- Hand the tests over, and go on without them. -/
def take (suite : TestSuite) : List TestCase × TestSuite :=
  (suite.tests, suite.finished.map .finished)

theorem tests_append (a b : TestSuite) : tests (a ++ b) = a.tests ++ b.tests := by
  simp [tests]

theorem finished_append (a b : TestSuite) : finished (a ++ b) = a.finished ++ b.finished := by
  simp [finished]

@[simp] theorem tests_take (suite : TestSuite) : suite.take.2.tests = [] := by
  simp [take, tests, List.filterMap_map]

@[simp] theorem finished_take (suite : TestSuite) : suite.take.2.finished = suite.finished := by
  rw [take, finished, List.filterMap_map]
  exact List.filterMap_some

end TestSuite
end Concolic
