import Concolic.State.Basic

/-!
# Clauses

A clause is one fact about terms together with the role it plays in a state and the source
position it came from. The position takes no part in equality. The definitions are generic
in the terms.
-/

namespace Concolic

/-- What a clause is in its state for. -/
inductive Role where
  /-- An assignment. -/
  | state
  /-- A branch condition that was taken. -/
  | path
  /-- Something assumed without a check. -/
  | assume
  /-- A fact for the solver. -/
  | axiomatic
  /-- A precondition. -/
  | require
  deriving DecidableEq, Repr

namespace Role

def tag : Role → String
  | .state => "@S"
  | .path => "@P"
  | .assume => "@A"
  | .axiomatic => "@AX"
  | .require => "@R"

/-- All roles, in order. -/
def all : List Role := [.state, .path, .assume, .axiomatic, .require]

end Role

/-- What an assertion says of one term. -/
inductive UnaryVerb where
  | call
  | newObject
  | thrown
  | caught
  deriving DecidableEq, Repr

/-- What an assertion says of two terms. -/
inductive BinaryVerb where
  | equal
  | unequal
  /-- The second term is a call, the first takes its result. -/
  | callInto
  | arrayStore
  | fieldStore
  deriving DecidableEq, Repr

/-- A fact about terms, by the number of terms. -/
inductive Assertion (τ : Type) where
  | unary (verb : UnaryVerb) (a : τ)
  | binary (verb : BinaryVerb) (a b : τ)
  | newArray (array : τ) (dimensions : List τ)
  | generate (array length generator : τ)

/-- The kinds of assertion. -/
inductive AssertionKind where
  | equal
  | unequal
  | call
  | arrayStore
  | fieldStore
  | newObject
  | newArray
  | generate
  | thrown
  | caught
  deriving DecidableEq, Repr

namespace Assertion

variable {τ : Type}

/-- `a = b` -/
@[match_pattern] abbrev equal (a b : τ) : Assertion τ := .binary .equal a b

/-- `a != b` -/
@[match_pattern] abbrev unequal (a b : τ) : Assertion τ := .binary .unequal a b

def kind : Assertion τ → AssertionKind
  | .unary .call _ | .binary .callInto _ _ => .call
  | .unary .newObject _ => .newObject
  | .unary .thrown _ => .thrown
  | .unary .caught _ => .caught
  | .binary .equal _ _ => .equal
  | .binary .unequal _ _ => .unequal
  | .binary .arrayStore _ _ => .arrayStore
  | .binary .fieldStore _ _ => .fieldStore
  | .newArray _ _ => .newArray
  | .generate _ _ _ => .generate

/-- The terms of an assertion, in order. -/
def operands : Assertion τ → List τ
  | .unary _ a => [a]
  | .binary _ a b => [a, b]
  | .newArray array dimensions => array :: dimensions
  | .generate array length generator => [array, length, generator]

/-- The assertion with every operand replaced. -/
def map {σ : Type} (change : τ → σ) : Assertion τ → Assertion σ
  | .unary verb a => .unary verb (change a)
  | .binary verb a b => .binary verb (change a) (change b)
  | .newArray array dimensions => .newArray (change array) (dimensions.map change)
  | .generate array length generator =>
    .generate (change array) (change length) (change generator)

/-- Same kind, same operands. -/
protected def same [BEq τ] : Assertion τ → Assertion τ → Bool
  | .unary v a, .unary w b => v == w && a == b
  | .binary v a b, .binary w c d => v == w && a == c && b == d
  | .newArray a as, .newArray b bs => a == b && as == bs
  | .generate a b c, .generate d e f => a == d && b == e && c == f
  | _, _ => false

instance [BEq τ] : BEq (Assertion τ) := ⟨Assertion.same⟩

end Assertion

/-- Where in the analysed sources a clause comes from. -/
structure Location where
  source : Option String := none
  line : Option Nat := none
  deriving DecidableEq

structure Clause (τ : Type) where
  role : Role
  assertion : Assertion τ
  location : Location := {}

namespace Clause

variable {τ : Type}

instance [BEq τ] : BEq (Clause τ) :=
  ⟨fun p q => p.role == q.role && p.assertion == q.assertion⟩

def isPath (p : Clause τ) : Bool := p.role == .path

def operands (p : Clause τ) : List τ := p.assertion.operands

/-- The clause with every operand replaced, or the clause itself if that makes no
difference. -/
def mapOperands [BEq τ] (change : τ → τ) (p : Clause τ) : Clause τ :=
  if p.operands.map change == p.operands then p
  else { p with assertion := p.assertion.map change }

end Clause

namespace State

variable {τ : Type} [BEq τ]

/-- The clauses of one role. -/
def ofRole (s : State (Clause τ)) (role : Role) : State (Clause τ) :=
  s.filter fun p => p.role == role

/-- The path condition: the branch conditions in order. -/
def path (s : State (Clause τ)) : State (Clause τ) := s.ofRole .path

end State

namespace Assertion

variable {τ : Type}

@[simp] theorem operands_map {σ : Type} (change : τ → σ) (a : Assertion τ) :
    (a.map change).operands = a.operands.map change := by
  cases a <;> simp [map, operands]

@[simp] theorem kind_map {σ : Type} (change : τ → σ) (a : Assertion τ) :
    (a.map change).kind = a.kind := by
  rcases a with ⟨v, _⟩ | ⟨v, _, _⟩ | _ | _ <;> first | rfl | cases v <;> rfl

end Assertion

end Concolic
