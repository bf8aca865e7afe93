import Concolic.Config.Settings
import Concolic.Folding.Basic
import Concolic.Inlining
import Concolic.Memory

/-!
# Solver queries

A state is prepared for the solver by inlining calls, folding constants and sorting pointers
into memory spaces. What the solver has to satisfy is the path condition of the prepared
state.
-/

namespace Concolic

structure Query where
  /-- The prepared state. -/
  state : SymbolicState
  /-- Its path condition. -/
  condition : SymbolicState
  memory : MemorySpaces
  timeoutMs : Nat

namespace Query

/-- The query for a state without calls that could still be inlined. -/
def ofInlined (settings : Config.Settings) (s : SymbolicState) : Except Failure Query := do
  let folded ← Folding.run s
  let state := if settings.solver.simplifyFormulae then folded.simplify else folded
  return {
    state
    condition := state.path
    memory := .ofState state
    timeoutMs := settings.solverTimeoutMs }

/-- The query for a state. A contradiction between constants is a failure. -/
def prepare (program : Program) (policy : Inlining.Policy) (settings : Config.Settings)
    (s : SymbolicState) : StateM NameSupply (Except Failure Query) := do
  let inlined ←
    if settings.inliner.enabled then Inlining.run ⟨program, policy, .all⟩ settings.inliner.depth s
    else pure (.ok s)
  return inlined.bind (ofInlined settings)

end Query
end Concolic
