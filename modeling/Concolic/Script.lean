import Concolic.Coverage
import Concolic.Engine

/-!
# Scripted collaborators

A search can be rehearsed against a script that says beforehand what each random run comes
to, what the solver answers, and which run a model leads to. The rehearsal keeps a log of
what it was asked, and the coverage.
-/

namespace Concolic

/-- What a run comes to: a trace, or why there is none. -/
abbrev RunResult := Except String Trace

namespace Script

inductive Reply where
  /-- A model, and the run of the inputs that it stands for; the run may cancel everything. -/
  | sat (m : Model) (run : RunResult) (runCancels : Bool)
  | unsat
  | unknown (reason : String)

def Reply.name : Reply → String
  | .sat .. => "sat"
  | .unsat => "unsat"
  | .unknown _ => "unknown"

def Reply.answer : Reply → Answer
  | .sat m _ _ => .sat m
  | .unsat => .unsat
  | .unknown reason => .unknown reason

structure ScriptedAnswer where
  reply : Reply
  /-- The lines of a path: the answer is for the path conditions that this path starts with.
  Without it the answer is for all. -/
  lines : Option (List String) := none
  /-- Whether everything is cancelled while the solver works. -/
  cancels : Bool := false

/-- Whether an answer is for a path condition of these lines. -/
def ScriptedAnswer.isFor (a : ScriptedAnswer) (lines : List String) : Bool :=
  a.lines.all lines.isPrefixOf

inductive LogEntry where
  | random (method : Method) (failure : Option String)
  | query (query : Query) (reply : String)
  | run (method : Method) (inputs : Parameters String)

/-- How far a script has been followed. -/
structure Rehearsal where
  /-- The random runs left for each method; of two entries for a method the first counts. -/
  random : List (Method × List RunResult) := []
  answers : List ScriptedAnswer := []
  /-- Whether answers are given in turn; otherwise each query gets the first one for it. -/
  inTurn : Bool := false
  /-- The run of the last model, and whether it cancels everything. -/
  ready : Option (RunResult × Bool) := none
  log : List LogEntry := []
  coverage : Coverage := {}

/-- Take the next random run of a method. -/
def takeRandom (method : Method) :
    List (Method × List RunResult) → RunResult × List (Method × List RunResult)
  | [] => (.error "out of random seeds", [])
  | entry :: rest =>
    if entry.1 == method then
      match entry.2 with
      | [] => (.error "out of random seeds", entry :: rest)
      | run :: runs => (run, (entry.1, runs) :: rest)
    else
      let (run, rest) := takeRandom method rest
      (run, entry :: rest)

/-- The answer to a path condition of these lines, and the answers left. -/
def Rehearsal.takeAnswer (r : Rehearsal) (lines : List String) :
    Option ScriptedAnswer × List ScriptedAnswer :=
  if r.inTurn then (r.answers.head?, r.answers.tail)
  else (r.answers.find? (·.isFor lines), r.answers)

/-- How the failure of a run is logged. -/
def failureText (message : String) : String := "execution failed: " ++ message

def runRandom (method : Method) : StateM (Outside Rehearsal) RunResult :=
  modifyGet fun o =>
    let (result, random) := takeRandom method o.state.random
    let failure :=
      match result with
      | .ok _ => none
      | .error message => some (failureText message)
    let log := o.state.log ++ [.random method failure]
    (result, { o with state := { o.state with random, log } })

def solve (token : Token) (query : Query) : StateM (Outside Rehearsal) Answer :=
  modifyGet fun o =>
    let (answer, answers) := o.state.takeAnswer
      (query.condition.parts.map fun (p : Predicate) => p.text)
    let reply := (answer.map (·.reply)).getD (.unknown "no answer")
    let ready :=
      match reply with
      | .sat _ run cancels => some (run, cancels)
      | _ => o.state.ready
    let log := o.state.log ++ [.query query reply.name]
    (reply.answer, {
      clock := if answer.any (·.cancels) then o.clock.cancel token else o.clock
      state := { o.state with answers, ready, log } })

def runConcrete (token : Token) (method : Method) (arena : Arena)
    (parameters : Parameters Handle) : StateM (Outside Rehearsal) RunResult :=
  modifyGet fun o =>
    let (result, cancels) := o.state.ready.getD (.error "nothing to run", false)
    let log := o.state.log ++ [.run method (parameters.map arena.print)]
    (result, {
      clock := if cancels then o.clock.cancel token else o.clock
      state := { o.state with ready := none, log } })

/-- Collaborators that follow a script and may cancel a token. -/
def collaborators (program : Program) (token : Token) : Collaborators Rehearsal where
  runRandom
  runConcrete := runConcrete token
  solve := solve token
  isCovered method r := r.coverage.isCovered program method
  record method trace r := { r with coverage := r.coverage.record method trace }

end Script
end Concolic
