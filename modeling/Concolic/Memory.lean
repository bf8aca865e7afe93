import Concolic.Term.Build
import Concolic.Traversal
import Concolic.UnionFind

/-!
# Memory spaces

Pointer terms that may stand for one object are put into one space: the sides of an
equality, a stored value and the load that would read it, a cast and what it casts, a
conditional and its branches. A solver gives each space a heap of its own. The null literal
belongs to every heap and has space `0`; the others are numbered from `1` in the order in
which the traversal first comes to one of their terms.
-/

namespace Concolic

/-- Disjoint sets of terms, numbered by first appearance. -/
structure TermSets where
  /-- The registered terms; a term's place is its number. -/
  terms : List Term := []
  sets : UnionFind := {}

namespace TermSets

/-- The number of a registered term. -/
def number? (c : TermSets) (t : Term) : Option Nat :=
  c.terms.findIdx? (· == t)

/-- The number of a term, which is registered if it was not. -/
def insert (c : TermSets) (t : Term) : Nat × TermSets :=
  match c.number? t with
  | some n => (n, c)
  | none =>
    let n := c.terms.length
    (n, ⟨c.terms ++ [t], c.sets.insert n⟩)

def union (c : TermSets) (a b : Term) : TermSets :=
  let (x, c) := c.insert a
  let (y, c) := c.insert b
  { c with sets := (c.sets.union x y).2 }

def connected (c : TermSets) (a b : Term) : Bool × TermSets :=
  let (x, c) := c.insert a
  let (y, c) := c.insert b
  let (answer, sets) := c.sets.connected x y
  (answer, { c with sets })

/-- The representative of a registered term. -/
def root? (c : TermSets) (t : Term) : Option Nat × TermSets :=
  match c.number? t with
  | none => (none, c)
  | some n =>
    let (root, sets) := c.sets.find n
    (some root, { c with sets })

def size (c : TermSets) : Nat := c.terms.length

/-- The number of sets. -/
def count (c : TermSets) : Nat := c.sets.count

end TermSets

/-- The space of every pointer term, in order of first appearance. -/
structure MemorySpaces where
  spaces : List (Term × Nat) := []

namespace MemorySpaces

/-- The space of null. -/
def nullSpace : Nat := 0

/-- The space of a term; none if it is no pointer of the state. -/
def spaceOf? (m : MemorySpaces) (t : Term) : Option Nat :=
  if t.isNull then some nullSpace
  else (m.spaces.find? fun entry => entry.1 == t).map (·.2)

/-- The number of spaces other than that of null. -/
def count (m : MemorySpaces) : Nat :=
  ((m.spaces.map (·.2)).filter (· != nullSpace)).eraseDups.length

def size (m : MemorySpaces) : Nat := m.spaces.length

/-- Two terms that may stand for one object, unless one is null or no pointer. -/
def linkable (a b : Term) : Bool :=
  !a.isNull && !b.isNull && a.type.isPointer && b.type.isPointer

/-- The terms that a visit makes aliases of each other. -/
def links : Visit → List (Term × Term)
  | .predicate ⟨_, .binary .equal a b, _⟩ => [(a, b)]
  | .predicate ⟨_, .binary .fieldStore slot stored, _⟩ => [(.fieldLoad slot, stored)]
  | .predicate ⟨_, .binary .arrayStore slot stored, _⟩ => [(.arrayLoad slot, stored)]
  | .predicate _ => []
  | .term (.unary .cast type a) => [(.unary .cast type a, a)]
  | .term (.ternary .ifThenElse type cond a b) =>
    [(.ternary .ifThenElse type cond a b, a), (.ternary .ifThenElse type cond a b, b)]
  | .term _ => []

/-- Register what a visit comes to, and merge what it links. -/
def register (sets : TermSets) (v : Visit) : TermSets :=
  let sets :=
    match v.term? with
    | some t => if t.type.isPointer then (sets.insert t).2 else sets
    | none => sets
  ((links v).filter fun (a, b) => linkable a b).foldl (fun sets (a, b) => sets.union a b) sets

/-- The space of each term in turn, given the roots that have one. -/
def assign (sets : TermSets) : List Term → (numbered : List Nat) → List (Term × Nat)
  | [], _ => []
  | t :: rest, numbered =>
    if t.isNull then (t, nullSpace) :: assign sets rest numbered
    else
      match (sets.root? t).1 with
      | none => assign sets rest numbered
      | some root =>
        match numbered.findIdx? (· == root) with
        | some place => (t, place + 1) :: assign sets rest numbered
        | none => (t, numbered.length + 1) :: assign sets rest (numbered ++ [root])

/-- The memory spaces of a state. -/
def ofState (s : SymbolicState) : MemorySpaces :=
  let sets := s.visits.foldl register {}
  ⟨assign sets sets.terms []⟩

end MemorySpaces
end Concolic
