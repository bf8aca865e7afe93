import Concolic.Term.Basic

/-!
# Names of operators and kinds

How operators, shapes of terms and kinds of clauses are named in data that is exchanged
with other tools. Names tell shapes apart, not the parameters of a shape.
-/

namespace Concolic

namespace Arithmetic

def all : List Arithmetic := [.add, .sub, .mul, .div, .rem, .shl, .shr, .ushr, .and, .or, .xor]

def name : Arithmetic → String
  | .add => "add"
  | .sub => "sub"
  | .mul => "mul"
  | .div => "div"
  | .rem => "rem"
  | .shl => "shl"
  | .shr => "shr"
  | .ushr => "ushr"
  | .and => "and"
  | .or => "or"
  | .xor => "xor"

def ofName? (s : String) : Option Arithmetic := all.find? (·.name == s)

theorem ofName?_name (op : Arithmetic) : ofName? op.name = some op := by cases op <;> decide

end Arithmetic

namespace Comparison

def all : List Comparison := [.eq, .neq, .lt, .gt, .le, .ge, .cmp, .cmpg, .cmpl]

def name : Comparison → String
  | .eq => "eq"
  | .neq => "neq"
  | .lt => "lt"
  | .gt => "gt"
  | .le => "le"
  | .ge => "ge"
  | .cmp => "cmp"
  | .cmpg => "cmpg"
  | .cmpl => "cmpl"

def ofName? (s : String) : Option Comparison := all.find? (·.name == s)

theorem ofName?_name (op : Comparison) : ofName? op.name = some op := by cases op <;> decide

end Comparison

namespace Role

def name : Role → String
  | .state => "state"
  | .path => "path"
  | .assume => "assume"
  | .axiomatic => "axiom"
  | .require => "require"

def ofName? (s : String) : Option Role := all.find? (·.name == s)

theorem ofName?_name (r : Role) : ofName? r.name = some r := by cases r <;> decide

end Role

def AssertionKind.name : AssertionKind → String
  | .equal => "eq"
  | .unequal => "neq"
  | .call => "call"
  | .arrayStore => "array_store"
  | .fieldStore => "field_store"
  | .newObject => "new"
  | .newArray => "new_array"
  | .generate => "generate"
  | .thrown => "throw"
  | .caught => "catch"

def Leaf.name : Leaf → String
  | .argument _ => "arg"
  | .value _ => "value"
  | .result _ => "retval"
  | .undefined => "undef"
  | .literal _ => "const"
  | .statics => "static"

def UnaryOp.name : UnaryOp → String
  | .negate => "neg"
  | .arrayLength => "array_length"
  | .arrayLoad => "array_load"
  | .field _ => "field"
  | .fieldLoad => "field_load"
  | .cast => "cast"
  | .instanceOf _ => "instance_of"
  | .stringLength => "string_length"
  | .toText => "to_string"
  | .parse => "string_parse"

def BinaryOp.name : BinaryOp → String
  | .arithmetic _ => "binary"
  | .compare _ => "cmp"
  | .arraySlot => "array_index"
  | .arrayContains => "array_contains"
  | .equals => "equals"
  | .concat => "concat"
  | .charAt => "char_at"
  | .stringContains => "string_contains"

def TernaryOp.name : TernaryOp → String
  | .indexOf => "index_of"
  | .substring => "substring"
  | .ifThenElse => "ite"
  | .forAll => "forall"
  | .forSome => "exists"

/-- The name of a term's shape. -/
def Term.shape : Term → String
  | .leaf _ l => l.name
  | .unary op _ _ => op.name
  | .binary op _ _ _ => op.name
  | .ternary op _ _ _ _ => op.name
  | .call _ _ _ _ => "call"
  | .lambda _ _ _ => "lambda"

end Concolic
