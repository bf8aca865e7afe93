import Concolic.Term.Build

/-!
# Explored paths

The path conditions that a replayed trace has confirmed, those that were given up, and the
failures so far at the others. A path is covered when some known one starts with it. The
next path to try flips the leftmost branch whose other side is not covered.
-/

namespace Concolic

structure ExploredPaths where
  /-- Confirmed paths, in the order of their confirmation. -/
  paths : List SymbolicState := []
  /-- Paths that are infeasible or failed too often. -/
  blocked : List SymbolicState := []
  /-- Failures at paths that are neither. -/
  failures : List (SymbolicState × Nat) := []
  /-- How many failures block a path; zero never does. -/
  maxRetries : Nat := 0

namespace ExploredPaths

/-- Whether one of the states is the same as the given one. -/
def has (states : List SymbolicState) (s : SymbolicState) : Bool := states.any (· == s)

/-- Add a state, if none is the same. -/
def add (states : List SymbolicState) (s : SymbolicState) : List SymbolicState :=
  if has states s then states else states ++ [s]

def size (e : ExploredPaths) : Nat := e.paths.length

def isBlocked (e : ExploredPaths) (path : SymbolicState) : Bool := has e.blocked path

/-- Whether a path is confirmed or blocked. -/
def contains (e : ExploredPaths) (path : SymbolicState) : Bool :=
  has e.paths path || has e.blocked path

/-- Whether some known path starts with the given one. -/
def isCovered (e : ExploredPaths) (path : SymbolicState) : Bool :=
  (e.paths ++ e.blocked).any fun known => known.startsWith path

/-- The failures so far at a path. -/
def failureCount (e : ExploredPaths) (path : SymbolicState) : Nat :=
  ((e.failures.find? fun entry => entry.1 == path).map (·.2)).getD 0

/-- Forget the failures at a path. -/
def forget (e : ExploredPaths) (path : SymbolicState) : ExploredPaths :=
  { e with failures := e.failures.filter fun entry => !(entry.1 == path) }

/-- Add a confirmed path. -/
def record (e : ExploredPaths) (path : SymbolicState) : ExploredPaths :=
  { e.forget path with paths := add e.paths path }

/-- Give a path up. -/
def block (e : ExploredPaths) (path : SymbolicState) : ExploredPaths :=
  { e.forget path with blocked := add e.blocked path }

/-- Count a failure at a path, and give the path up if that was one too many. -/
def recordFailure (e : ExploredPaths) (path : SymbolicState) : ExploredPaths :=
  if e.maxRetries = 0 then e
  else
    let count := e.failureCount path + 1
    if e.maxRetries ≤ count then e.block path
    else { e.forget path with failures := (e.forget path).failures ++ [(path, count)] }

/-- Whether one more failure at a path gives it up. -/
def isLastFailure (e : ExploredPaths) (path : SymbolicState) : Bool :=
  e.maxRetries != 0 && decide (e.maxRetries ≤ e.failureCount path + 1)

/-- Forget everything but the number of retries. -/
def clear (e : ExploredPaths) : ExploredPaths := { maxRetries := e.maxRetries }

/-! ## Mutation -/

/-- The predicates up to the first branch whose other side is not covered, that one flipped;
all of them if there is none. `path` are the branches before. -/
def flipped (e : ExploredPaths) (path : List Predicate) : List Predicate → List Predicate
  | [] => []
  | p :: rest =>
    if !p.isPath then p :: e.flipped path rest
    else if e.isCovered (.basic (path ++ [p.inverse])) then p :: e.flipped (path ++ [p]) rest
    else [p.inverse]

/-- The state of a path that is new, or the state's own predicates if there is none. -/
def mutate (e : ExploredPaths) (s : SymbolicState) : SymbolicState :=
  .basic (e.flipped [] s.parts)

end ExploredPaths
end Concolic
