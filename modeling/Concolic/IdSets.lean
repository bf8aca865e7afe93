/-!
# Disjoint sets of ids

The sets of `UnionFind` as they are stored: elements are ids of 32 bits, the parents stand in an
array of ids, and the ranks in a vector of bytes. A length that is turned into an id loses what
does not fit, and an index outside its array ends a call without a result. The greatest id is no
element for that reason: the length that it takes is one more than an id can say. A search is
granted as many steps as there are elements; the way to a root has no more links.
-/

namespace Concolic

/-- A vector of bytes that are zero at first and raised one by one. -/
structure Ranks where
  size : Nat := 0
  /-- The places that have been raised, one entry for every time. -/
  raised : List Nat := []

namespace Ranks

/-- How often a place has been raised. -/
def times (r : Ranks) (i : Nat) : Nat := r.raised.count i

/-- The byte at a place. -/
def get? (r : Ranks) (i : Nat) : Option UInt8 :=
  if i < r.size then some (.ofNat (r.times i)) else none

def raise (r : Ranks) (i : Nat) : Ranks := { r with raised := i :: r.raised }

/-- Zeros are added, or what is too much is cut off. -/
def resize (r : Ranks) (n : Nat) : Ranks := ⟨n, r.raised.filter (· < n)⟩

end Ranks

structure IdSets where
  parents : Array UInt32 := #[]
  ranks : Ranks := {}
  /-- The number of sets. -/
  count : Nat := 0

namespace IdSets

/-- The greatest id. -/
def maxId : UInt32 := 4294967295

/-- The ids from one up to another that is left out. -/
def idsFrom (first stop : UInt32) : Array UInt32 :=
  (Array.range (stop.toNat - first.toNat)).map fun i => .ofNat (first.toNat + i)

/-- `n` elements, each in a set of its own. -/
def ofSize (n : Nat) : IdSets := ⟨idsFrom 0 (.ofNat n), { size := n }, n⟩

/-- The number of elements. -/
def size (s : IdSets) : Nat := s.parents.size

/-- Make sure that `x` is an element; new elements are in sets of their own. -/
def insert (s : IdSets) (x : UInt32) : IdSets :=
  let size := x.toNat + 1
  if s.size < size then
    { parents := s.parents ++ idsFrom (.ofNat s.size) (.ofNat size)
      ranks := s.ranks.resize size
      count := s.count + (size - s.size) }
  else s

/-- Follow parent links to the root, looking at no more of them than there are steps. -/
def climb (parents : Array UInt32) : (steps : Nat) → UInt32 → Option UInt32
  | 0, _ => none
  | steps + 1, x => do
    let parent ← parents[x.toNat]?
    if parent = x then some x else climb parents steps parent

/-- Redirect to `root` the links from `x` up, until one leads there already. -/
def compress (root : UInt32) : (steps : Nat) → Array UInt32 → UInt32 → Option (Array UInt32)
  | 0, _, _ => none
  | steps + 1, parents, x => do
    let parent ← parents[x.toNat]?
    if parent = root then some parents
    else compress root steps (parents.setIfInBounds x.toNat root) parent

/-- The representative of `x`, which is inserted if it is no element. -/
def find (s : IdSets) (x : UInt32) : Option (UInt32 × IdSets) :=
  if s.size ≤ x.toNat then some (x, s.insert x)
  else do
    let root ← climb s.parents s.size x
    let parents ← compress root s.size s.parents x
    some (root, { s with parents })

/-- Hang one representative below another, which leaves one set less. -/
def hang (s : IdSets) (low high : UInt32) : Option IdSets :=
  if low.toNat < s.size then
    some { s with parents := s.parents.setIfInBounds low.toNat high, count := s.count - 1 }
  else none

/-- Merge two sets; the result is the representative of the merged set. -/
def union (s : IdSets) (x y : UInt32) : Option (UInt32 × IdSets) := do
  let (a, s) ← s.find x
  let (b, s) ← s.find y
  if a = b then some (a, s)
  else
    let rankA ← s.ranks.get? a.toNat
    let rankB ← s.ranks.get? b.toNat
    if rankA < rankB then (s.hang a b).map (b, ·)
    else
      let s ← s.hang b a
      some (a, if rankA = rankB then { s with ranks := s.ranks.raise a.toNat } else s)

/-- Whether two elements are in one set. -/
def connected (s : IdSets) (x y : UInt32) : Option (Bool × IdSets) := do
  let (a, s) ← s.find x
  let (b, s) ← s.find y
  some (a == b, s)

end IdSets
end Concolic
