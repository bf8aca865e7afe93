/-!
# Depth-first walks

A walk through a graph from a root, as a tree: each vertex is expanded where the walk first
comes to it, and every later arrival is a leaf. Edges carry labels, kept with the vertex they
lead to. Cycles and sharing are allowed; a bound on the length of a path without repetition
is enough fuel.
-/

namespace Concolic

inductive Spanning (ε V : Type) where
  /-- The first arrival at a vertex, with an arrival for each edge out of it. -/
  | visit (via : ε) (v : V) (onward : List (Spanning ε V))
  /-- A later arrival. -/
  | again (via : ε) (v : V)

namespace Spanning

variable {ε V : Type}

/-- The label of the edge that led here. -/
def via : Spanning ε V → ε
  | .visit via _ _ | .again via _ => via

def vertex : Spanning ε V → V
  | .visit _ v _ | .again _ v => v

/-- Arrive at several vertices, one after another. -/
def arriveAll (arrive : ε → V → List V → Spanning ε V × List V) :
    List (ε × V) → List V → List (Spanning ε V) × List V
  | [], seen => ([], seen)
  | (via, v) :: rest, seen =>
    let (tree, seen) := arrive via v seen
    let (trees, seen) := arriveAll arrive rest seen
    (tree :: trees, seen)

/-- Arrive at a vertex, given those seen before; gives back those seen after. -/
def arrive [DecidableEq V] (next : V → List (ε × V)) :
    (fuel : Nat) → ε → V → (seen : List V) → Spanning ε V × List V
  | 0, via, v, seen => (.again via v, seen)
  | fuel + 1, via, v, seen =>
    if v ∈ seen then (.again via v, seen)
    else
      let (onward, seen) := arriveAll (arrive next fuel) (next v) (v :: seen)
      (.visit via v onward, seen)

/-- The walk from a root. -/
def walk [DecidableEq V] (next : V → List (ε × V)) (fuel : Nat) (via : ε) (root : V) :
    Spanning ε V :=
  (arrive next fuel via root []).1

mutual

/-- The vertices in the order of their first arrival. -/
def order : Spanning ε V → List V
  | .visit _ v onward => v :: orderOfAll onward
  | .again _ _ => []

def orderOfAll : List (Spanning ε V) → List V
  | [] => []
  | t :: rest => t.order ++ orderOfAll rest

end

mutual

/-- The number of vertices on the longest path down the tree. -/
def depth : Spanning ε V → Nat
  | .visit _ _ onward => 1 + depthOfAll onward
  | .again _ _ => 0

def depthOfAll : List (Spanning ε V) → Nat
  | [] => 0
  | t :: rest => max t.depth (depthOfAll rest)

end

end Spanning
end Concolic
