import Concolic.Clause
import Concolic.Term.Operator

/-!
# Terms

Symbolic expressions. A term is a leaf, an operator applied to one, two or three terms, a
call, or a function whose body is a state; terms and states contain each other through such
bodies.

Two terms are the same when they are built alike from operators that are written alike. A
call is written with the name of its method only, a function with the text of its body, and
a literal by its text, so equality is coarser than identity of trees.
-/

namespace Concolic

inductive Term where
  | leaf (type : ValueType) (leaf : Leaf)
  | unary (op : UnaryOp) (type : ValueType) (a : Term)
  | binary (op : BinaryOp) (type : ValueType) (a b : Term)
  | ternary (op : TernaryOp) (type : ValueType) (a b c : Term)
  | call (type : ValueType) (method : Method) (receiver : Term) (arguments : List Term)
  | lambda (type : ValueType) (params : List Term) (body : State (Clause Term))

/-- A clause over terms. -/
abbrev Predicate := Clause Term

/-- A state whose parts are predicates. -/
abbrev SymbolicState := State Predicate

namespace Term

def type : Term → ValueType
  | .leaf type _ => type
  | .unary _ type _ => type
  | .binary _ type _ _ => type
  | .ternary _ type _ _ _ => type
  | .call type _ _ _ => type
  | .lambda type _ _ => type

/-- The operands, in order; the body of a function is none of them. -/
def operands : Term → List Term
  | .leaf _ _ => []
  | .unary _ _ a => [a]
  | .binary _ _ a b => [a, b]
  | .ternary _ _ a b c => [a, b, c]
  | .call _ _ receiver arguments => receiver :: arguments
  | .lambda _ params _ => params

end Term

/-! ## Written forms -/

/-- Two spaces for each level. -/
def indent (depth : Nat) : String := String.ofList (List.replicate (2 * depth) ' ')

mutual

/-- The written form of a term, which is also its name. -/
def Term.text : Term → String
  | .leaf type l => l.text type
  | .unary op type a => op.text type a.text
  | .binary op _ a b => op.text a.text b.text
  | .ternary op _ a b c => op.text a.text b.text c.text
  | .call _ method receiver arguments =>
    receiver.text ++ "." ++ method.name ++ "(" ++ ", ".intercalate (Term.texts arguments) ++ ")"
  | .lambda _ params body =>
    "\\(" ++ ", ".intercalate (Term.texts params) ++ ") -> \x7b (BEGIN\n"
      ++ String.join (State.lines 1 body) ++ "END) \x7d"

def Term.texts : List Term → List String
  | [] => []
  | t :: rest => t.text :: Term.texts rest

/-- The written form of an assertion. -/
def Assertion.text : Assertion Term → String
  | .unary .call a => a.text
  | .unary .newObject a => a.text ++ " = new " ++ a.type.text
  | .unary .thrown a => "throw " ++ a.text
  | .unary .caught a => "catch " ++ a.text
  | .binary .equal a b | .binary .callInto a b => a.text ++ " = " ++ b.text
  | .binary .unequal a b => a.text ++ " != " ++ b.text
  | .binary .arrayStore a b | .binary .fieldStore a b => "*(" ++ a.text ++ ") = " ++ b.text
  | .newArray array dimensions =>
    array.text ++ " = new " ++ (array.type.element?.getD array.type).text
      ++ String.join ((Term.texts dimensions).map fun d => "[" ++ d ++ "]")
  | .generate array length generator =>
    array.text ++ " = generate<" ++ array.type.text ++ ">(" ++ length.text ++ ") \x7b "
      ++ generator.text ++ " \x7d"

/-- The written form of a predicate, which starts with the tag of its role. -/
def Clause.text : Clause Term → String
  | ⟨role, assertion, _⟩ => role.tag ++ " " ++ assertion.text

/-- The lines of a state's items at some depth, each with its line end. -/
def State.lines (depth : Nat) : State (Clause Term) → List String
  | .basic parts => State.partLines depth parts
  | .chain first second => State.lines depth first ++ State.lines depth second
  | .choice alternatives =>
    if (State.choice alternatives).isEmpty then []
    else
      (indent depth ++ "BEGIN_OR\n") ::
        State.branchLines depth true alternatives ++ [indent depth ++ "END_OR\n"]

def State.partLines (depth : Nat) : List (Clause Term) → List String
  | [] => []
  | p :: rest => (indent depth ++ p.text ++ "\n") :: State.partLines depth rest

/-- The lines of alternatives, one level deeper, with a line between two of them. -/
def State.branchLines (depth : Nat) (isFirst : Bool) : List (State (Clause Term)) → List String
  | [] => []
  | s :: rest =>
    (if isFirst then [] else [indent depth ++ "OR\n"]) ++ State.lines (depth + 1) s
      ++ State.branchLines depth false rest

end

/-- The written form of a state. -/
def State.text (s : SymbolicState) : String :=
  "(BEGIN\n" ++ String.join (s.lines 1) ++ "END)"

namespace Term

/-- The written form together with the type. -/
def typedText (t : Term) : String := t.text ++ ": " ++ t.type.text

/-! ## Equality -/

mutual

/-- Same shape, same types, operators written alike. -/
protected def same : Term → Term → Bool
  | .leaf s a, .leaf t b => s == t && a == b
  | .unary op s a, .unary op' t b => op == op' && s == t && Term.same a b
  | .binary op s a b, .binary op' t c d =>
    op == op' && s == t && Term.same a c && Term.same b d
  | .ternary op s a b c, .ternary op' t d e f =>
    op == op' && s == t && Term.same a d && Term.same b e && Term.same c f
  | .call s m a as, .call t n b bs =>
    s == t && m.name == n.name && Term.same a b && Term.sameAll as bs
  | .lambda s ps body, .lambda t qs body' =>
    s == t && Term.sameAll ps qs && body.text == body'.text
  | _, _ => false

protected def sameAll : List Term → List Term → Bool
  | [], [] => true
  | a :: as, b :: bs => Term.same a b && Term.sameAll as bs
  | _, _ => false

end

instance : BEq Term := ⟨Term.same⟩

/-! ## Views -/

def literal? : Term → Option Literal
  | .leaf _ (.literal value) => some value
  | _ => none

def isLiteral (t : Term) : Bool := t.literal?.isSome

def isNull (t : Term) : Bool := t.literal? == some .null

/-- Leaves that name a place: arguments, values and results. -/
def isNamed : Term → Bool
  | .leaf _ (.argument _) | .leaf _ (.value _) | .leaf _ (.result _) => true
  | _ => false

end Term
end Concolic
