import Concolic.Program
import Concolic.Renaming

/-!
# Inlining

A call gives way to the body of the method it names. Receiver, parameters and result of the
body are bound to the terms of the call; every other name of the body gets the suffix
`inlinedN`, with a number of its own for each call, so that two bodies never share a name.

A null receiver or argument is bound through a fresh value that equals null, and a pointer
of another type than the declared one through a fresh value that equals the cast.

One round inlines the calls in sight. Calls inside the inlined bodies are left to the next
round; rounds end when nothing is inlined any more, or at a bound.
-/

namespace Concolic.Inlining

/-- Which methods may be inlined. -/
abbrev Policy := Program → MethodInfo → Bool

namespace Policy

/-- Methods with a body whose state is known and not too large; never the initializer of a
class. -/
def sizeBounded (limit : Nat) : Policy := fun program info =>
  info.hasBody && !info.method.isStaticInitializer &&
    match program.body? info.method with
    | .ok (some body) => body.size ≤ limit
    | _ => false

def always : Policy := fun _ _ => true

def never : Policy := fun _ _ => false

end Policy

/-- Which calls are looked at. -/
inductive Scope where
  | all
  | constructors
  deriving DecidableEq, Repr

/-- What decides about a call. -/
structure Setting where
  program : Program
  policy : Policy
  scope : Scope := .all

/-- How far a round has come. -/
structure Round where
  /-- The number of the next suffix. -/
  next : Nat
  /-- The calls inlined so far in this round. -/
  inlined : Nat := 0
  /-- The first failure of the program's model. -/
  failure : Option Failure := none

/-- Whether a method may be inlined here. -/
def Setting.admits (S : Setting) (info : MethodInfo) : Bool :=
  (S.scope == .all || info.method.isConstructor) && S.policy S.program info

/-- The term that stands for an actual operand inside the body, and the predicates that
define it. -/
def bind (actual : Term) (declared : ValueType) : StateM NameSupply (Term × List Predicate) := do
  if actual.isNull then
    let stand ← Term.fresh declared
    return (stand, [⟨.state, .equal stand .null, {}⟩])
  else if actual.type.isPointer && declared.isPointer && actual.type != declared then
    let stand ← Term.fresh declared
    return (stand, [⟨.state, .equal stand (.cast declared actual), {}⟩])
  else
    return (actual, [])

/-- The operands of a call beside the terms that stand for them in the body. -/
def formals (info : MethodInfo) (receiver : Term) (arguments : List Term) :
    List (Term × Term × ValueType) :=
  (if info.isStatic then [] else [(Term.this info.ownerType, receiver, info.ownerType)]) ++
    (arguments.zip info.arguments).mapIdx fun index (actual, declared) =>
      (Term.argument declared index, actual, declared)

/-- Bind operands from left to right: the entries of a renaming, latest first, and the
predicates that define fresh values, in order. -/
def bindAll : List (Term × Term × ValueType) →
    StateM NameSupply (List (Term × Term) × List Predicate)
  | [] => return ([], [])
  | (formal, actual, declared) :: rest => do
    let (stand, defining) ← bind actual declared
    let (entries, definingRest) ← bindAll rest
    return (entries ++ [(formal, stand)], defining ++ definingRest)

/-- What takes the place of a call of the method with the given body. -/
def expansion (suffix : String) (info : MethodInfo) (method : Method) (target? : Option Term)
    (receiver : Term) (arguments : List Term) (body : SymbolicState) :
    StateM NameSupply (List Predicate × SymbolicState) := do
  let (entries, defining) ← bindAll (formals info receiver arguments)
  let outcome := target?.toList.map fun target => (Term.result info.result method, target)
  let names : Renaming := ⟨suffix, outcome ++ entries⟩
  return (defining, names.onState body)

/-- The call that a predicate makes, and the term that takes its result. -/
def callOf? (p : Predicate) : Option (Option Term × Term) :=
  match p.assertion with
  | .unary .call call => some (none, call)
  | .binary .callInto target call => some (some target, call)
  | _ => none

/-- The body to put in the place of a call, if the method is known and admitted and its
body is not empty. A failure of the program's model is remembered, and the call stays. -/
def bodyFor (S : Setting) (method : Method) :
    StateM Round (Option (MethodInfo × SymbolicState)) := do
  match S.program.method? method with
  | none => return none
  | some info =>
    if !S.admits info then return none
    match S.program.body? info.method with
    | .ok (some body) => return if body.isEmpty then none else some (info, body)
    | .ok none => return none
    | .error failure =>
      modify fun round => { round with failure := round.failure.or (some failure) }
      return none

/-- The effects of a round: its progress and the fresh names it uses. -/
abbrev Effects := StateT Round (StateM NameSupply)

/-- Replace calls, and keep every other predicate. -/
def rules (S : Setting) : Rules Effects where
  predicate p := do
    let some (target?, .call _ method receiver arguments) := callOf? p | return .keep p
    let some (info, body) ← modifyGet ((bodyFor S method).run ·) | return .keep p
    let suffix := "inlined" ++ toString (← get).next
    let (defining, inlined) ←
      StateT.lift (expansion suffix info method target? receiver arguments body)
    modify fun round => { round with next := round.next + 1, inlined := round.inlined + 1 }
    return .splice fun builder => (defining.foldl StateBuilder.push builder).append inlined

/-- One round over a state, with suffixes numbered from `next`. -/
def round (S : Setting) (next : Nat) (s : SymbolicState) :
    StateM NameSupply (Except Failure SymbolicState × Round) := do
  let (inlined, progress) ← ((rules S).revise true s).run { next }
  return (progress.failure.elim (.ok inlined) .error, progress)

/-- At most `depth` rounds, until one of them finds nothing to inline. -/
def rounds (S : Setting) : (depth next : Nat) → SymbolicState →
    StateM NameSupply (Except Failure SymbolicState)
  | 0, _, s => return .ok s
  | depth + 1, next, s => do
    let (outcome, progress) ← round S next s
    match outcome with
    | .error failure => return .error failure
    | .ok inlined =>
      if progress.inlined = 0 then return .ok inlined
      rounds S depth progress.next inlined

/-- Inline a state recursively. -/
def run (S : Setting) (depth : Nat) (s : SymbolicState) :
    StateM NameSupply (Except Failure SymbolicState) :=
  rounds S depth 0 s

end Concolic.Inlining
