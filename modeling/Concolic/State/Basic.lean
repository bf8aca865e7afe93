/-!
# States

A state is a run of parts, two states one after the other, or a choice between alternative
continuations. How a state was put together does not matter: `items` is its flattened form,
in which a choice with nothing in any alternative leaves no trace, and two states are the
same when their items are.

The definitions are generic in the parts. The engine uses predicates; nothing here looks
into them beyond comparing two of them.
-/

namespace Concolic

inductive State (α : Type) where
  | basic (parts : List α)
  | chain (first second : State α)
  | choice (alternatives : List (State α))

namespace State

variable {α : Type}

/-- One element of a flattened state. -/
inductive Item (α : Type) where
  | part (a : α)
  | branch (alternatives : List (List (Item α)))

def empty : State α := .basic []

instance : Inhabited (State α) := ⟨empty⟩

mutual

/-- The flattened form of a state, in order of execution. -/
def items : State α → List (Item α)
  | .basic parts => parts.map .part
  | .chain first second => first.items ++ second.items
  | .choice alternatives =>
    let branches := itemsOfAll alternatives
    if branches.all List.isEmpty then [] else [.branch branches]

/-- The flattened form of each state. -/
def itemsOfAll : List (State α) → List (List (Item α))
  | [] => []
  | s :: rest => s.items :: itemsOfAll rest

end

/-- Nothing is in the state, in no alternative of any choice. -/
def isEmpty (s : State α) : Bool := s.items.isEmpty

mutual

/-- The number of parts, those of every alternative included. -/
def size : State α → Nat
  | .basic parts => parts.length
  | .chain first second => first.size + second.size
  | .choice alternatives => sizeOfAll alternatives

def sizeOfAll : List (State α) → Nat
  | [] => 0
  | s :: rest => s.size + sizeOfAll rest

end

/-- The part that an item is, if it is no choice. -/
def Item.part? : Item α → Option α
  | .part a => some a
  | .branch _ => none

/-- The parts outside choices, in order. -/
def parts (s : State α) : List α := s.items.filterMap Item.part?

/-! ## Equality -/

mutual

/-- Items are the same when their parts are, alternative by alternative. -/
def Item.same [BEq α] : Item α → Item α → Bool
  | .part a, .part b => a == b
  | .branch xs, .branch ys => Item.sameBranches xs ys
  | _, _ => false

def Item.sameRuns [BEq α] : List (Item α) → List (Item α) → Bool
  | [], [] => true
  | x :: xs, y :: ys => Item.same x y && Item.sameRuns xs ys
  | _, _ => false

def Item.sameBranches [BEq α] : List (List (Item α)) → List (List (Item α)) → Bool
  | [], [] => true
  | x :: xs, y :: ys => Item.sameRuns x y && Item.sameBranches xs ys
  | _, _ => false

end

instance [BEq α] : BEq (Item α) := ⟨Item.same⟩

instance [BEq α] : BEq (State α) := ⟨fun s t => Item.sameRuns s.items t.items⟩

/-- Whether the items of `lead` open the items of the state. -/
def startsWith [BEq α] (s lead : State α) : Bool := lead.items.isPrefixOf s.items

/-! ## Building -/

/-- One state after another. Empty sides are dropped and runs are merged. -/
def concat (s t : State α) : State α :=
  if t.isEmpty then s
  else if s.isEmpty then t
  else
    match s, t with
    | .basic xs, .basic ys => .basic (xs ++ ys)
    | s, t => .chain s t

/-- A choice between already simplified states: none of it is left when there is no
alternative, or when all alternatives are the same. -/
def collapse [BEq α] : List (State α) → State α
  | [] => empty
  | first :: rest => if rest.all (· == first) then first else .choice (first :: rest)

mutual

/-- The same state with chains flattened, runs merged and trivial choices collapsed. -/
def simplify [BEq α] : State α → State α
  | .basic parts => .basic parts
  | .chain first second => first.simplify.concat second.simplify
  | .choice alternatives => collapse (simplifyAll alternatives)

def simplifyAll [BEq α] : List (State α) → List (State α)
  | [] => []
  | s :: rest => s.simplify :: simplifyAll rest

end

mutual

/-- The state with only the parts that pass the test, simplified at every level. -/
def filter [BEq α] (keep : α → Bool) : State α → State α
  | .basic parts => .basic (parts.filter keep)
  | .chain first second => ((first.filter keep).concat (second.filter keep)).simplify
  | .choice alternatives => (State.choice (filterAll keep alternatives)).simplify

def filterAll [BEq α] (keep : α → Bool) : List (State α) → List (State α)
  | [] => []
  | s :: rest => s.filter keep :: filterAll keep rest

end

/-! ## Items of the operations -/

@[simp] theorem items_basic (parts : List α) : (basic parts).items = parts.map .part := by
  simp [items]

@[simp] theorem items_empty : (empty : State α).items = [] := by simp [empty]

@[simp] theorem items_chain (s t : State α) : (chain s t).items = s.items ++ t.items := by
  simp [items]

theorem isEmpty_iff {s : State α} : s.isEmpty = true ↔ s.items = [] := by
  simp [isEmpty]

@[simp] theorem items_concat (s t : State α) : (s.concat t).items = s.items ++ t.items := by
  unfold concat
  split
  · next h => simp [isEmpty_iff.mp h]
  · split
    · next h => simp [isEmpty_iff.mp h]
    · split <;> simp

end State
end Concolic
