import Concolic.Folding.Basic

/-!
# Whole numbers and the terms over them

What integral and boolean terms mean, said without folding: machine words of 32 or 64 bits, the
operations on them for any width, and the value of a term under a valuation of its leaves.
Operands of 32 bits are widened when the other has 64; a result is narrowed to the type that its
term declares. Truth values count as one and zero.

A division or remainder by zero has no value, and a conditional only has that of the
alternative it takes.
-/

namespace Concolic

/-- A whole number in one of the two widths in which numbers are computed. -/
inductive Word where
  | int (bits : BitVec 32)
  | long (bits : BitVec 64)
  deriving DecidableEq

namespace Word

def toInt : Word → Int
  | .int bits => bits.toInt
  | .long bits => bits.toInt

def toLong : Word → BitVec 64
  | .int bits => bits.signExtend 64
  | .long bits => bits

/-- The low bits. -/
def low (w : Nat) : Word → BitVec w
  | .int bits => bits.setWidth w
  | .long bits => bits.setWidth w

def ofBool (b : Bool) : Word := .int (if b then 1 else 0)

/-- The word as a value of an integral type. -/
def narrow (a : Word) : ValueType → Option Word
  | .bool => some (ofBool (a.toInt != 0))
  | .byte => some (.int ((a.low 8).signExtend 32))
  | .char => some (.int ((a.low 16).setWidth 32))
  | .short => some (.int ((a.low 16).signExtend 32))
  | .int => some (.int (a.low 32))
  | .long => some (.long a.toLong)
  | _ => none

/-- What a literal stands for, if it is a whole number or a truth value. -/
def ofLiteral? : Literal → Option Word
  | .bool value => some (ofBool value)
  | .byte value => some (.int (value.toBitVec.signExtend 32))
  | .char unit => some (.int (unit.toBitVec.setWidth 32))
  | .short value => some (.int (value.toBitVec.signExtend 32))
  | .int value => some (.int value.toBitVec)
  | .long value => some (.long value.toBitVec)
  | .null | .float _ | .double _ | .string _ | .class _ => none

/-! ## Operations -/

def neg : Word → Word
  | .int bits => .int (-bits)
  | .long bits => .long (-bits)

/-- An operation on words of one width; only shifts are none. -/
def combine {w : Nat} (op : Arithmetic) (a b : BitVec w) : Option (BitVec w) :=
  match op with
  | .add => some (a + b)
  | .sub => some (a - b)
  | .mul => some (a * b)
  | .div => if b = 0 then none else some (a.sdiv b)
  | .rem => if b = 0 then none else some (a.srem b)
  | .and => some (a &&& b)
  | .or => some (a ||| b)
  | .xor => some (a ^^^ b)
  | .shl | .shr | .ushr => none

/-- A shift by as many places as the low bits of the distance say. -/
def shiftBits {w : Nat} (op : Arithmetic) (a : BitVec w) (distance : Word) : BitVec w :=
  let places := distance.toLong.toNat % w
  match op with
  | .shl => a <<< places
  | .shr => a.sshiftRight places
  | _ => a >>> places

/-- A shift in the width of its left operand. -/
def shift (op : Arithmetic) (a distance : Word) : Word :=
  match a with
  | .int bits => .int (shiftBits op bits distance)
  | .long bits => .long (shiftBits op bits distance)

/-- An operation in the wider of the two widths. -/
def calculate (op : Arithmetic) : Word → Word → Option Word
  | .int a, .int b => (combine op a b).map .int
  | a, b => (combine op a.toLong b.toLong).map .long

def arithmetic (op : Arithmetic) (a b : Word) : Option Word :=
  if op.isShift then some (shift op a b) else calculate op a b

/-- A comparison of two words as whole numbers. -/
def compare (op : Comparison) (a b : Word) : Word :=
  match op with
  | .eq => ofBool (a.toInt == b.toInt)
  | .neq => ofBool (a.toInt != b.toInt)
  | .lt => ofBool (a.toInt < b.toInt)
  | .gt => ofBool (b.toInt < a.toInt)
  | .le => ofBool (a.toInt ≤ b.toInt)
  | .ge => ofBool (b.toInt ≤ a.toInt)
  | .cmp | .cmpg | .cmpl =>
    .int (if a.toInt < b.toInt then -1 else if a.toInt = b.toInt then 0 else 1)

/-! ## Widths -/

theorem toInt_toLong (a : Word) : a.toLong.toInt = a.toInt := by
  cases a with
  | int bits => exact BitVec.toInt_signExtend_of_le (by decide)
  | long bits => rfl

theorem setWidth_low (a : Word) {v w : Nat} (h : w ≤ v) : (a.low v).setWidth w = a.low w := by
  cases a <;> exact BitVec.setWidth_setWidth_of_le _ h

end Word

/-! ## Terms -/

/-- A word for each leaf, of which a leaf takes as much as its type holds. -/
abbrev Valuation := ValueType → Leaf → Word

namespace Term

/-- Terms over whole numbers and truth values. -/
inductive IsIntegral : Term → Prop
  | literal {type : ValueType} {l : Literal} :
      (Word.ofLiteral? l).isSome → IsIntegral (.leaf type (.literal l))
  | leaf {type : ValueType} {l : Leaf} :
      type.isIntegral → (∀ constant, l ≠ .literal constant) → IsIntegral (.leaf type l)
  | negate {type : ValueType} {a : Term} :
      type.isIntegral → IsIntegral a → IsIntegral (.unary .negate type a)
  | cast {type : ValueType} {a : Term} :
      type.isIntegral → IsIntegral a → IsIntegral (.unary .cast type a)
  | arithmetic {op : Arithmetic} {type : ValueType} {a b : Term} :
      type.isIntegral → IsIntegral a → IsIntegral b →
      IsIntegral (.binary (.arithmetic op) type a b)
  | compare {op : Comparison} {type : ValueType} {a b : Term} :
      IsIntegral a → IsIntegral b → IsIntegral (.binary (.compare op) type a b)
  | equals {type : ValueType} {a b : Term} :
      IsIntegral a → IsIntegral b → IsIntegral (.binary .equals type a b)
  | ifThenElse {type : ValueType} {cond a b : Term} :
      IsIntegral cond → IsIntegral a → IsIntegral b →
      IsIntegral (.ternary .ifThenElse type cond a b)

/-- The value of a term. -/
def eval (ν : Valuation) : Term → Option Word
  | .leaf _ (.literal l) => Word.ofLiteral? l
  | .leaf type l => (ν type l).narrow type
  | .unary .negate type a => (eval ν a).bind fun x => x.neg.narrow type
  | .unary .cast type a => (eval ν a).bind fun x => x.narrow type
  | .binary (.arithmetic op) type a b =>
    (eval ν a).bind fun x => (eval ν b).bind fun y =>
      (Word.arithmetic op x y).bind fun z => z.narrow type
  | .binary (.compare op) _ a b =>
    (eval ν a).bind fun x => (eval ν b).map fun y => Word.compare op x y
  | .binary .equals _ a b =>
    (eval ν a).bind fun x => (eval ν b).map fun y => Word.compare .eq x y
  | .ternary .ifThenElse _ cond a b =>
    (eval ν cond).bind fun x => if x.toInt = 0 then eval ν b else eval ν a
  | _ => none

end Term
end Concolic
