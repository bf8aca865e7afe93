/-!
# Disjoint sets

Elements are natural numbers, and there is one for every number below the size. Sets are
trees of parent links with a root that points to itself; a search redirects the links it
followed to the root, and a union hangs the root of lower rank below the other. Nothing bounds the
numbers here; `IdSets` has these sets over ids of 32 bits, as they are stored.
-/

namespace Concolic

structure UnionFind where
  parents : Array Nat := #[]
  ranks : Array Nat := #[]
  /-- The number of sets. -/
  count : Nat := 0

namespace UnionFind

/-- `n` elements, each in a set of its own. -/
def ofSize (n : Nat) : UnionFind := ⟨Array.range n, Array.replicate n 0, n⟩

/-- The number of elements. -/
def size (u : UnionFind) : Nat := u.parents.size

/-- Make sure that `x` is an element; new elements are in sets of their own. -/
def insert (u : UnionFind) (x : Nat) : UnionFind :=
  if x < u.size then u
  else
    let added := x + 1 - u.size
    { parents := u.parents ++ (Array.range added).map (· + u.size)
      ranks := u.ranks ++ Array.replicate added 0
      count := u.count + added }

/-- Follow parent links, at most as many as there are steps. -/
def climb (parents : Array Nat) : (steps : Nat) → Nat → Nat
  | 0, x => x
  | steps + 1, x =>
    let parent := parents.getD x x
    if parent = x then x else climb parents steps parent

/-- Redirect to `root` the links from `x` up. -/
def compress (root : Nat) : (steps : Nat) → Array Nat → Nat → Array Nat
  | 0, parents, _ => parents
  | steps + 1, parents, x =>
    let parent := parents.getD x x
    if parent = root then parents
    else compress root steps (parents.setIfInBounds x root) parent

/-- The representative of `x`, which becomes an element if it was none. -/
def find (u : UnionFind) (x : Nat) : Nat × UnionFind :=
  if x < u.size then
    let root := climb u.parents u.size x
    (root, { u with parents := compress root u.size u.parents x })
  else
    (x, u.insert x)

/-- Merge two sets; the result is the representative of the merged set. -/
def union (u : UnionFind) (x y : Nat) : Nat × UnionFind :=
  let (a, u) := u.find x
  let (b, u) := u.find y
  if a = b then (a, u)
  else
    let rankA := u.ranks.getD a 0
    let rankB := u.ranks.getD b 0
    if rankA < rankB then
      (b, { u with parents := u.parents.setIfInBounds a b, count := u.count - 1 })
    else
      let ranks := if rankA = rankB then u.ranks.setIfInBounds a (rankA + 1) else u.ranks
      (a, { parents := u.parents.setIfInBounds b a, ranks, count := u.count - 1 })

/-- Whether two elements are in one set. -/
def connected (u : UnionFind) (x y : Nat) : Bool × UnionFind :=
  let (a, u) := u.find x
  let (b, u) := u.find y
  (a == b, u)

@[simp] theorem size_ofSize (n : Nat) : (ofSize n).size = n := by simp [ofSize, size]

theorem lt_size_insert (u : UnionFind) (x : Nat) : x < (u.insert x).size := by
  unfold insert
  split
  · assumption
  · next h =>
    simp only [size, Array.size_append, Array.size_map, Array.size_range] at h ⊢
    omega

end UnionFind
end Concolic
