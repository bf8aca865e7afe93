import Concolic.Failure
import Concolic.Number

/-!
# Folding operators on numbers

The operands are brought to the widest of their kinds. Integers wrap around; a division or
remainder by zero is a failure. A shift takes the kind of its left operand alone and the
low five or six bits of its right one. Real numbers have no bitwise operations.

Equality of real numbers allows for a tolerance; their order is exact.
-/

namespace Concolic.Folding

/-- The result of an operation on 32-bit integers, if it has one. -/
def arithmetic32 (op : Arithmetic) (a b : Int32) : Except Failure (Option Int32) :=
  match op with
  | .add => .ok (some (a + b))
  | .sub => .ok (some (a - b))
  | .mul => .ok (some (a * b))
  | .div => if b = 0 then .error (.zeroDivisor .div) else .ok (some (a / b))
  | .rem => if b = 0 then .error (.zeroDivisor .rem) else .ok (some (a % b))
  | .and => .ok (some (a &&& b))
  | .or => .ok (some (a ||| b))
  | .xor => .ok (some (a ^^^ b))
  | .shl | .shr | .ushr => .ok none

/-- The result of an operation on 64-bit integers, if it has one. -/
def arithmetic64 (op : Arithmetic) (a b : Int64) : Except Failure (Option Int64) :=
  match op with
  | .add => .ok (some (a + b))
  | .sub => .ok (some (a - b))
  | .mul => .ok (some (a * b))
  | .div => if b = 0 then .error (.zeroDivisor .div) else .ok (some (a / b))
  | .rem => if b = 0 then .error (.zeroDivisor .rem) else .ok (some (a % b))
  | .and => .ok (some (a &&& b))
  | .or => .ok (some (a ||| b))
  | .xor => .ok (some (a ^^^ b))
  | .shl | .shr | .ushr => .ok none

/-- The result of an operation on real numbers, if it has one. -/
def arithmeticReal {f : FloatFormat} (op : Arithmetic) (a b : BinaryFloat f) :
    Option (BinaryFloat f) :=
  match op with
  | .add => some (a.add b)
  | .sub => some (a.sub b)
  | .mul => some (a.mul b)
  | .div => some (a.div b)
  | .rem => some (a.rem b)
  | _ => none

/-- A word shifted by fewer places than it has bits. Only the unsigned right shift fills up
with zeros. -/
def shiftWord {w : Nat} (op : Arithmetic) (a : BitVec w) (places : Nat) : BitVec w :=
  match op with
  | .shl => a <<< places
  | .shr => a.sshiftRight places
  | _ => a >>> places

/-- The number of places that a shift distance stands for. -/
def shiftPlaces (width : Nat) (distance : Number) : Nat :=
  distance.toInt64.toUInt64.toNat % width

/-- The result of a shift; a real number has none. -/
def shift (op : Arithmetic) (a distance : Number) : Option Number :=
  match a with
  | .int value =>
    some (.int (.ofBitVec (shiftWord op value.toBitVec (shiftPlaces 32 distance))))
  | .long value =>
    some (.long (.ofBitVec (shiftWord op value.toBitVec (shiftPlaces 64 distance))))
  | .float _ | .double _ => none

/-- The result of an operation, if it has one. -/
def arithmetic (op : Arithmetic) (a b : Number) : Except Failure (Option Number) :=
  if op.isShift then .ok (shift op a b)
  else
    match Number.Kind.join a.kind b.kind with
    | .int => (arithmetic32 op a.toInt32 b.toInt32).map (·.map .int)
    | .long => (arithmetic64 op a.toInt64 b.toInt64).map (·.map .long)
    | .float => .ok ((arithmeticReal op a.toSingle b.toSingle).map .float)
    | .double => .ok ((arithmeticReal op a.toDouble b.toDouble).map .double)

/-! ## Comparison -/

/-- Real numbers closer than this are equal. -/
def tolerance : Double := .ofRatio false 1 100000

def nearlyEqual (a b : Double) : Bool := (a.sub b).abs.lt tolerance

/-- Whether two numbers denote the same value. -/
def numbersEqual (a b : Number) : Bool :=
  if a.isReal || b.isReal then nearlyEqual a.toDouble b.toDouble
  else a.toInt64 == b.toInt64

/-- Whether two literals denote the same value; none if they cannot be compared. -/
def literalsEqual? (a b : Literal) : Option Bool :=
  match Number.ofLiteral? a, Number.ofLiteral? b with
  | some x, some y => some (numbersEqual x y)
  | _, _ =>
    match a, b with
    | .null, .null => some true
    | .string s, .string t => some (s == t)
    | .class s, .class t => some (s == t)
    | .null, .string _ | .null, .class _ | .string _, .null | .class _, .null => some false
    | _, _ => none

/-- The order of two numbers; none if one of them is no number. -/
def order? (a b : Number) : Option Ordering :=
  if a.isReal || b.isReal then a.toDouble.compare? b.toDouble
  else some (Ord.compare a.toInt64.toInt b.toInt64.toInt)

/-- The integer that a three-way comparison gives. -/
def orderValue : Ordering → Int32
  | .lt => -1
  | .eq => 0
  | .gt => 1

/-- The outcome of a comparison between numbers. -/
def compareNumbers (op : Comparison) (a b : Number) : Literal :=
  match op with
  | .eq => .bool (numbersEqual a b)
  | .neq => .bool (!numbersEqual a b)
  | .lt => .bool (order? a b == some .lt)
  | .gt => .bool (order? a b == some .gt)
  | .le => .bool (order? a b == some .lt || order? a b == some .eq)
  | .ge => .bool (order? a b == some .gt || order? a b == some .eq)
  | .cmp | .cmpl => .int (((order? a b).map orderValue).getD (-1))
  | .cmpg => .int (((order? a b).map orderValue).getD 1)

/-- The outcome of a comparison between literals; other than numbers they can only be
compared for equality. -/
def compare? (op : Comparison) (a b : Literal) : Option Literal :=
  match Number.ofLiteral? a, Number.ofLiteral? b with
  | some x, some y => some (compareNumbers op x y)
  | _, _ =>
    match op with
    | .eq => (literalsEqual? a b).map .bool
    | .neq => (literalsEqual? a b).map fun same => .bool !same
    | _ => none

end Concolic.Folding
