import Concolic.Arena.Change
import Concolic.Engine
import Concolic.ExploredPaths
import Concolic.Reanimation
import Concolic.Replay

/-!
# The search for paths through one method

A round takes the first candidate trace, or a random one if there is none, flips a branch of
its path, asks the solver for inputs that take the new path, and runs them. If the run takes
that path, the inputs make a test and the trace becomes the last candidate. A candidate goes
when its path leads to nothing new, and stays first until then.
-/

namespace Concolic

/-- One search: a method under a token. -/
structure Task (σ : Type) where
  engine : Engine σ
  info : MethodInfo
  token : Token

/-- How far a search has come. -/
structure Search where
  explored : ExploredPaths
  /-- The paths of the random traces that became candidates. -/
  seeds : List SymbolicState := []
  candidates : List Trace := []
  iterations : Nat := 0
  /-- Iterations that have confirmed a path. -/
  accepted : Nat := 0
  /-- Iterations that have not. -/
  discarded : Nat := 0
  tests : Nat := 0

/-- How a search ended. -/
inductive Outcome where
  /-- Every block of the method is covered. -/
  | covered
  /-- No candidate leads to a new path. -/
  | exhausted
  /-- The time or the iterations are used up. -/
  | timedOut
  /-- There never was a candidate, or something failed for the whole method. -/
  | abandoned
  /-- The rounds that the caller granted are used up. -/
  | unfinished
  deriving DecidableEq, Repr

def Outcome.name : Outcome → String
  | .covered => "covered"
  | .exhausted => "exhausted"
  | .timedOut => "timed_out"
  | .abandoned => "abandoned"
  | .unfinished => "unfinished"

/-- What trying a path has shown. -/
inductive Finding where
  /-- A run took the path. -/
  | confirmed (trace : Trace) (arena : Arena) (parameters : Parameters Handle)
  | infeasible
  /-- The solver gave up, or the run took another path. -/
  | unconfirmed

/-- What became of a candidate. -/
inductive Attempt where
  | accepted (trace : Trace)
  /-- Its path leads to nothing new. -/
  | duplicate
  | discarded

namespace Task

variable {σ : Type}

abbrev method (t : Task σ) : Method := t.info.method

/-- Look whether the token has fired, after whatever time has passed since the last step. -/
def poll (t : Task σ) : Act σ Bool := do
  Act.ask t.engine.collaborators.elapse
  Act.hasFired t.token

/-- Go on, unless the token has fired. -/
def checkpoint (t : Task σ) : ExceptT Failure (Act σ) Unit := do
  if ← ExceptT.lift t.poll then throw Failure.cancelled

/-- Take a trace into the coverage. -/
def record (t : Task σ) (trace : Trace) : Act σ Unit :=
  modify fun w => { w with
    outside.state := t.engine.collaborators.record t.method trace w.outside.state }

/-- The path that a trace took. -/
def pathOf (t : Task σ) (trace : Trace) : Except Failure SymbolicState :=
  (Replay.build t.engine.program t.method trace).map State.path

/-- The inputs that a model of a state stands for. -/
def inputs (t : Task σ) (m : Model) (s : SymbolicState) :
    StateM NameSupply (Except Failure (Arena × Parameters Handle)) := do
  let (built, arena) ← Reanimation.start (Reanimation.parameters m t.info s)
  return built.bind fun parameters =>
    let (concrete, arena) :=
      Arena.concretizeParameters t.engine.program t.engine.settings.descriptor parameters arena
    concrete.map fun _ => (arena, parameters)

/-- Solve a mutated state, and run the inputs found to see whether they take its path. -/
def explore (t : Task σ) (mutated path : SymbolicState) : ExceptT Failure (Act σ) Finding := do
  let query ← ExceptT.mk (Act.naming
    (Query.prepare t.engine.program t.engine.policy t.engine.settings mutated))
  let answer ← ExceptT.lift (Act.ask (t.engine.collaborators.solve query))
  t.checkpoint
  match answer with
  | .unsat => return .infeasible
  | .unknown _ => return .unconfirmed
  | .sat m =>
    let (arena, parameters) ← ExceptT.mk (Act.naming (t.inputs m query.state))
    t.checkpoint
    let run := t.engine.collaborators.runConcrete t.method arena parameters
    match ← ExceptT.lift (Act.ask run) with
    | .error message => throw (.execution (.reported message))
    | .ok trace =>
      ExceptT.lift (t.record trace)
      let replayed ← ExceptT.mk (pure (t.pathOf trace))
      return if replayed.startsWith path then .confirmed trace arena parameters else .unconfirmed

/-- Try the path next to a candidate. Failures of the attempt alone count against the path;
being cancelled does not. -/
def attempt (t : Task σ) (s : Search) (candidate : Trace) :
    Act σ (Search × Except Failure Attempt) := do
  match Replay.build t.engine.program t.method candidate with
  | .error failure => return (s, .error failure)
  | .ok state =>
    let mutated := s.explored.mutate state
    let path := mutated.path
    if mutated == state || s.explored.contains path then return (s, .ok .duplicate)
    let failed := { s with explored := s.explored.recordFailure path }
    match ← (t.explore mutated path).run with
    | .ok (.confirmed trace arena parameters) =>
      let number := s.tests + 1
      Act.note (.found { number, method := t.method, arena, parameters })
      return ({ s with explored := s.explored.record path, tests := number },
        .ok (.accepted trace))
    | .ok .infeasible => return ({ s with explored := s.explored.block path }, .ok .discarded)
    | .ok .unconfirmed => return (failed, .ok .discarded)
    | .error .cancelled => return (s, .error .cancelled)
    | .error failure =>
      if failure.severity = .attempt then return (failed, .ok .discarded)
      else return (s, .error failure)

/-- A random trace as a new candidate, unless the run fails or takes a known path. -/
def seed (t : Task σ) (s : Search) : Act σ (Search × Except Failure (Option Trace)) := do
  match ← Act.ask (t.engine.collaborators.runRandom t.method) with
  | .error _ => return (s, .ok none)
  | .ok trace =>
    t.record trace
    match t.pathOf trace with
    | .error failure => return (s, .error failure)
    | .ok path =>
      if s.explored.contains path || ExploredPaths.has s.seeds path then return (s, .ok none)
      let seeds := s.seeds ++ [path]
      return ({ s with seeds, candidates := s.candidates ++ [trace] }, .ok (some trace))

/-- The candidate to try next. -/
def next (t : Task σ) (s : Search) : Act σ (Search × Except Failure (Option Trace)) :=
  match s.candidates with
  | trace :: _ => return (s, .ok (some trace))
  | [] => t.seed s

end Task

/-- Where a round leaves a search. -/
inductive Round where
  | going (s : Search)
  | ended (s : Search) (result : Except Failure Outcome)

/-- Count an attempt, and go on unless it failed for more than itself. -/
def Search.after (s : Search) : Except Failure Attempt → Round
  | .ok (.accepted trace) =>
    .going { s with accepted := s.accepted + 1, candidates := s.candidates ++ [trace] }
  | .ok .duplicate =>
    .going { s with discarded := s.discarded + 1, candidates := s.candidates.tail }
  | .ok .discarded => .going { s with discarded := s.discarded + 1 }
  | .error .cancelled => .ended s (.ok .timedOut)
  | .error failure =>
    if failure.severity = .attempt then
      .going { s with discarded := s.discarded + 1, candidates := s.candidates.tail }
    else
      .ended s (.error failure)

namespace Task

variable {σ : Type}

/-- A search that has not begun. -/
def start (t : Task σ) : Search where
  explored := { maxRetries := t.engine.settings.search.maxFrontierRetries }

/-- Whether there is a bound on the iterations that a search has reached. -/
def isCapped (t : Task σ) (s : Search) : Bool :=
  let bound := t.engine.settings.search.maxIterations
  decide (0 < bound) && decide (bound ≤ s.iterations)

/-- One round of the search. -/
def round (t : Task σ) (s : Search) : Act σ Round := do
  if t.engine.collaborators.isCovered t.method (← get).outside.state then
    return .ended s (.ok .covered)
  if t.isCapped s then return .ended s (.ok .timedOut)
  if ← t.poll then return .ended s (.ok .timedOut)
  match ← t.next s with
  | (s, .error failure) => return .ended s (.error failure)
  | (s, .ok none) => return .ended s (.ok (if s.seeds.isEmpty then .abandoned else .exhausted))
  | (s, .ok (some candidate)) =>
    if ← t.poll then return .ended s (.ok .timedOut)
    let (s, outcome) ← t.attempt { s with iterations := s.iterations + 1 } candidate
    return s.after outcome

/-- At most so many rounds of the search. -/
def run (t : Task σ) : (rounds : Nat) → Search → Act σ (Search × Except Failure Outcome)
  | 0, s => return (s, .ok .unfinished)
  | rounds + 1, s => do
    match ← t.round s with
    | .going s => t.run rounds s
    | .ended s result => return (s, result)

end Task
end Concolic
