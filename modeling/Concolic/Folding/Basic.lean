import Concolic.Folding.Arithmetic
import Concolic.Folding.Strings
import Concolic.Revision
import Concolic.Term.Build

/-!
# Constant folding

Operators and string operations whose operands are literals are replaced by their values,
from the leaves up. An equality between literals that never holds, or an inequality that
never does, is a contradiction; predicates that always hold are kept.

Folding goes on after a failure and leaves the term as it is. `run` reports the first one.
-/

namespace Concolic.Folding

/-- The number that a literal term stands for. -/
def number? (t : Term) : Option Number := t.literal?.bind Number.ofLiteral?

/-- The string that a literal term stands for. -/
def string? (t : Term) : Option String :=
  match t.literal? with
  | some (.string s) => some s
  | _ => none

/-- The integer that a literal term stands for. -/
def integer? (t : Term) : Option Int :=
  ((number? t).filter fun n => !n.isReal).map fun n => n.toInt64.toInt

/-- The value of an arithmetic term, narrowed to its type. -/
def arithmeticTerm? (op : Arithmetic) (type : ValueType) (a b : Term) :
    Except Failure (Option Term) :=
  match number? a, number? b with
  | some x, some y => do
    let folded ← arithmetic op x y
    return (folded.bind (·.toLiteral? type)).map .literal
  | _, _ => .ok none

def unaryTerm? (op : UnaryOp) (type : ValueType) (a : Term) : Option Term :=
  match op with
  | .negate => ((number? a).bind fun n => n.neg.toLiteral? type).map .literal
  | .cast =>
    if a.isNull then some a
    else ((number? a).bind (·.toLiteral? type)).map .literal
  | .stringLength => (string? a).map fun s => .int (length s)
  | .toText => a.literal?.map fun l => .string (render l)
  | .parse => ((string? a).bind (parse? type)).map .literal
  | .arrayLength | .arrayLoad | .field _ | .fieldLoad | .instanceOf _ => none

def binaryTerm? (op : BinaryOp) (type : ValueType) (a b : Term) :
    Except Failure (Option Term) :=
  match op with
  | .arithmetic op => arithmeticTerm? op type a b
  | .compare op => return do
    let x ← a.literal?
    let y ← b.literal?
    return .literal (← compare? op x y)
  | .equals => return do
    let x ← a.literal?
    let y ← b.literal?
    return .bool (← literalsEqual? x y)
  | .concat => return do
    let s ← string? a
    let t ← string? b
    return .string (s ++ t)
  | .charAt => return do
    let s ← string? a
    let index ← integer? b
    return .char (← charAt? s index)
  | .stringContains => return do
    let s ← string? a
    let part ← string? b
    return .bool (contains s part)
  | .arraySlot | .arrayContains => return none

def ternaryTerm? (op : TernaryOp) (a b c : Term) : Option Term :=
  match op with
  | .indexOf => do
    let s ← string? a
    let part ← string? b
    let offset ← integer? c
    return .int (indexOf s part offset)
  | .substring => do
    let s ← string? a
    let offset ← integer? b
    let count ← integer? c
    return .string (← substring? s offset count)
  | .ifThenElse =>
    match a.literal? with
    | some (.bool value) => some (if value then b else c)
    | _ => none
  | .forAll | .forSome => none

/-- What a term with folded operands folds to, if to anything. -/
def step? : Term → Except Failure (Option Term)
  | .unary op type a => .ok (unaryTerm? op type a)
  | .binary op type a b => binaryTerm? op type a b
  | .ternary op _ a b c => .ok (ternaryTerm? op a b c)
  | .leaf _ _ | .call _ _ _ _ | .lambda _ _ _ => .ok none

/-- Whether a predicate between literals can never hold. -/
def isContradiction (p : Predicate) : Bool :=
  match p.assertion with
  | .equal a b => ((do literalsEqual? (← a.literal?) (← b.literal?)) : Option Bool) == some false
  | .unequal a b => ((do literalsEqual? (← a.literal?) (← b.literal?)) : Option Bool) == some true
  | _ => false

/-- Remember a failure, if it is the first. -/
def report (failure : Failure) : StateM (Option Failure) Unit :=
  modify fun first => first.orElse fun _ => some failure

/-- Fold each term, and look for contradictions. -/
def rules : Rules (StateM (Option Failure)) where
  term t := do
    match step? t with
    | .ok folded => return folded.getD t
    | .error failure =>
      report failure
      return t
  predicate p := do
    if isContradiction p then report (.contradiction p)
    return .keep p

/-- Fold a term; failures leave subterms as they are. -/
def foldTerm (t : Term) : Term := (rules.reviseTerm t none).1

/-- Fold a state, or report the first failure. -/
def run (s : SymbolicState) : Except Failure SymbolicState :=
  match rules.revise false s none with
  | (folded, none) => .ok folded
  | (_, some failure) => .error failure

end Concolic.Folding
