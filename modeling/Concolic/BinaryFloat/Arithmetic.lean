import Concolic.BinaryFloat.Basic

/-!
# Floating-point arithmetic

Each operation is the exact operation on what its operands stand for, rounded once. A sum
that cancels is a positive zero unless both operands are negative; a remainder has the sign
of its first operand.
-/

namespace Concolic

namespace Numeral

/-- A signed significand moved down to a smaller exponent. -/
def alignedTo (target : Int) (negative : Bool) (significand : Nat) (exponent : Int) : Int :=
  let moved : Nat := significand <<< (exponent - target).toNat
  if negative then -moved else moved

/-- The order of two numerals; none if one of them is no number. -/
def compare? : Numeral → Numeral → Option Ordering
  | .nan, _ | _, .nan => none
  | .infinity a, .infinity b => some (Ord.compare b a)
  | .infinity a, .finite _ _ _ => some (if a then .lt else .gt)
  | .finite _ _ _, .infinity b => some (if b then .gt else .lt)
  | .finite s m e, .finite t n d =>
    let target := min e d
    some (Ord.compare (alignedTo target s m e) (alignedTo target t n d))

end Numeral

namespace BinaryFloat

variable {f : FloatFormat}

/-- The number with the other sign. -/
def neg (x : BinaryFloat f) : BinaryFloat f :=
  ofMagnitude (!x.isNegative) x.magnitude

/-- The number without its sign. -/
def abs (x : BinaryFloat f) : BinaryFloat f := ofMagnitude false x.magnitude

def add (x y : BinaryFloat f) : BinaryFloat f :=
  match x.decode, y.decode with
  | .nan, _ | _, .nan => nan
  | .infinity a, .infinity b => if a = b then infinity a else nan
  | .infinity a, .finite _ _ _ => infinity a
  | .finite _ _ _, .infinity b => infinity b
  | .finite s m e, .finite t n d =>
    let target := min e d
    let sum := Numeral.alignedTo target s m e + Numeral.alignedTo target t n d
    if sum = 0 then zero (s && t) else ofScaled (decide (sum < 0)) sum.natAbs target

def sub (x y : BinaryFloat f) : BinaryFloat f := x.add y.neg

def mul (x y : BinaryFloat f) : BinaryFloat f :=
  match x.decode, y.decode with
  | .nan, _ | _, .nan => nan
  | .infinity a, .infinity b => infinity (a != b)
  | .infinity a, .finite t n _ => if n = 0 then nan else infinity (a != t)
  | .finite s m _, .infinity b => if m = 0 then nan else infinity (s != b)
  | .finite s m e, .finite t n d => ofScaled (s != t) (m * n) (e + d)

def div (x y : BinaryFloat f) : BinaryFloat f :=
  match x.decode, y.decode with
  | .nan, _ | _, .nan => nan
  | .infinity _, .infinity _ => nan
  | .infinity a, .finite t _ _ => infinity (a != t)
  | .finite s _ _, .infinity b => zero (s != b)
  | .finite s m e, .finite t n d =>
    if n = 0 then
      if m = 0 then nan else infinity (s != t)
    else if d ≤ e then
      ofRatio (s != t) (m <<< (e - d).toNat) n
    else
      ofRatio (s != t) m (n <<< (d - e).toNat)

/-- The remainder of the division that rounds toward zero. -/
def rem (x y : BinaryFloat f) : BinaryFloat f :=
  match x.decode, y.decode with
  | .nan, _ | _, .nan => nan
  | .infinity _, _ => nan
  | .finite _ _ _, .infinity _ => x
  | .finite s m e, .finite _ n d =>
    if n = 0 then nan else
      let target := min e d
      let rest := m <<< (e - target).toNat % n <<< (d - target).toNat
      ofScaled s rest target

/-- The order of two numbers; none if one of them is no number. -/
def compare? (x y : BinaryFloat f) : Option Ordering := x.decode.compare? y.decode

/-- Whether the first number is below the second; never so for no number. -/
def lt (x y : BinaryFloat f) : Bool := x.compare? y == some .lt

end BinaryFloat
end Concolic
