import Concolic.BinaryFloat.Basic

/-!
# Decimal forms of floating-point numbers

Writing takes the shortest decimal that reads back as the same number: of the grids
`10 ^ k`, from coarse to fine, the first on which one of the number's two neighbours lies
in the interval of reals that round to the number (its ends belong to it when the
significand is even). Of two such neighbours the nearer one is taken, and the upper one on
a tie.

Reading takes an optional sign and either a word for infinity or for no number, or digits
with an optional point and an optional exponent, and rounds once.
-/

namespace Concolic

/-- The decimal `digits * 10 ^ exponent`. -/
structure Decimal where
  digits : Nat
  exponent : Int
  deriving DecidableEq, Repr

namespace Decimal

/-- Multiply a fraction by a power of ten, without leaving the natural numbers. -/
def scaleByTen (num den : Nat) (power : Int) : Nat × Nat :=
  if 0 ≤ power then (num * Nat.pow 10 power.toNat, den)
  else (num, den * Nat.pow 10 (-power).toNat)

/-- The decimal on the grid `10 ^ k` nearest to `4 * m` units, of the two neighbours that
lie between `low` and `high` units. The unit is `num / den`. -/
def onGrid? (num den m low high : Nat) (inclusive : Bool) (k : Int) : Option Decimal :=
  let (unit, base) := scaleByTen num den (-k)
  let inside (d : Nat) : Bool :=
    if inclusive then decide (low * unit ≤ d * base) && decide (d * base ≤ high * unit)
    else decide (low * unit < d * base) && decide (d * base < high * unit)
  let below := 4 * m * unit / base
  let above := below + 1
  let nearerAbove := decide (base ≤ 2 * (4 * m * unit % base))
  if inside below && !(inside above && nearerAbove) then some ⟨below, k⟩
  else if inside above then some ⟨above, k⟩
  else none

/-- The first hit on the grids from `10 ^ k` down. -/
def firstOnGrids (num den m low high : Nat) (inclusive : Bool) : (grids : Nat) → Int → Decimal
  | 0, k => ⟨0, k⟩
  | grids + 1, k =>
    match onGrid? num den m low high inclusive k with
    | some d => d
    | none => firstOnGrids num den m low high inclusive grids (k - 1)

/-- The shortest decimal that rounds to the positive number `m * 2 ^ q`. The number below
it is half as far away when `narrowBelow`. Three grids above the leading digit and twenty
below it are enough for every format up to 64 bits. -/
def shortest (m : Nat) (q : Int) (narrowBelow : Bool) : Decimal :=
  let start : Int := ((m.log2 : Int) + q) * 30103 / 100000 + 3
  let num := if 2 ≤ q then 1 <<< (q - 2).toNat else 1
  let den := if 2 ≤ q then 1 else 1 <<< (2 - q).toNat
  let low := if narrowBelow then 4 * m - 1 else 4 * m - 2
  firstOnGrids num den m low (4 * m + 2) (m % 2 == 0) 24 start

/-- The digits, most significant first. -/
def digitText (d : Decimal) : List Char := Nat.toDigits 10 d.digits

/-- The power of ten of the leading digit. -/
def leadingExponent (d : Decimal) : Int := d.digitText.length - 1 + d.exponent

/-- The decimal without an exponent, however many zeros that takes. -/
def positional (d : Decimal) : String :=
  let ds := d.digitText
  if 0 ≤ d.exponent then
    String.ofList (ds ++ List.replicate d.exponent.toNat '0')
  else
    let places := (-d.exponent).toNat
    if places < ds.length then
      let whole := ds.length - places
      String.ofList (ds.take whole ++ '.' :: ds.drop whole)
    else
      String.ofList ('0' :: '.' :: List.replicate (places - ds.length) '0' ++ ds)

/-- One digit before the point, and the power of ten after an `e`. -/
def scientific (d : Decimal) : String :=
  let power := toString d.leadingExponent
  match d.digitText with
  | [] => "0e" ++ power
  | [lead] => String.ofList [lead] ++ "e" ++ power
  | lead :: rest => String.ofList (lead :: '.' :: rest) ++ "e" ++ power

end Decimal

namespace BinaryFloat

variable {f : FloatFormat}

/-- The shortest decimal of a finite number other than zero, without its sign. -/
def toDecimal (significand : Nat) (exponent : Int) : Decimal :=
  Decimal.shortest significand exponent
    (decide (significand = 1 <<< f.fractionBits) && decide (f.minExponent < exponent))

/-- How real numbers are written. -/
structure DecimalStyle where
  positiveInfinity : String
  negativeInfinity : String
  /-- What follows a number without a fractional part. -/
  wholeSuffix : String
  /-- The powers of ten of the leading digit that are written without an exponent. -/
  positionalFrom : Option Int
  positionalBelow : Option Int

/-- Positional whatever the size, whole numbers without a point. -/
def DecimalStyle.plain : DecimalStyle where
  positiveInfinity := "inf"
  negativeInfinity := "-inf"
  wholeSuffix := ""
  positionalFrom := none
  positionalBelow := none

/-- With a fractional part always, and an exponent from `10 ^ 16` on and below `10 ^ -4`. -/
def DecimalStyle.general : DecimalStyle where
  positiveInfinity := "Infinity"
  negativeInfinity := "-Infinity"
  wholeSuffix := ".0"
  positionalFrom := some (-4)
  positionalBelow := some 16

/-- The text of a positive decimal. -/
def DecimalStyle.write (style : DecimalStyle) (d : Decimal) : String :=
  let lead := d.leadingExponent
  if style.positionalFrom.all (· ≤ lead) && style.positionalBelow.all (lead < ·) then
    d.positional ++ if 0 ≤ d.exponent then style.wholeSuffix else ""
  else
    d.scientific

/-- The text of a number. -/
def write (style : DecimalStyle) (x : BinaryFloat f) : String :=
  match x.decode with
  | .nan => "NaN"
  | .infinity negative => if negative then style.negativeInfinity else style.positiveInfinity
  | .finite negative significand exponent =>
    let sign := if negative then "-" else ""
    if significand = 0 then sign ++ "0" ++ style.wholeSuffix
    else sign ++ style.write (toDecimal (f := f) significand exponent)

/-! ## Reading -/

/-- The digits at the front of a text, and what follows them. -/
def spanDigits (cs : List Char) : List Char × List Char :=
  (cs.takeWhile Char.isDigit, cs.dropWhile Char.isDigit)

/-- The number that decimal digits write. -/
def digitsToNat (ds : List Char) : Nat :=
  ds.foldl (fun n c => 10 * n + (c.toNat - '0'.toNat)) 0

/-- The exponent part: nothing, or an `e` with an optional sign and at least one digit. -/
def readExponent? : List Char → Option Int
  | [] => some 0
  | e :: rest =>
    if e = 'e' ∨ e = 'E' then
      let (negative, digits) : Bool × List Char :=
        match rest with
        | '-' :: ds => (true, ds)
        | '+' :: ds => (false, ds)
        | ds => (false, ds)
      if digits.isEmpty || !digits.all Char.isDigit then none
      else some (if negative then -(digitsToNat digits : Int) else digitsToNat digits)
    else none

/-- The number nearest to a decimal. Exponents that leave every format's range are cut off
before the power of ten is computed. -/
def ofDecimal (negative : Bool) (d : Decimal) : BinaryFloat f :=
  if d.digits = 0 then zero negative
  else if 400 < d.leadingExponent then infinity negative
  else if d.leadingExponent < -400 then zero negative
  else
    let (num, den) := Decimal.scaleByTen d.digits 1 d.exponent
    ofRatio negative num den

/-- An unsigned number: a word in any case, or digits with an optional point and exponent. -/
def readUnsigned? (negative : Bool) (cs : List Char) : Option (BinaryFloat f) :=
  let word := String.ofList (cs.map Char.toLower)
  if word = "inf" ∨ word = "infinity" then some (infinity negative)
  else if word = "nan" then some nan
  else
    let (whole, rest) := spanDigits cs
    let (fraction, rest) : List Char × List Char :=
      match rest with
      | '.' :: tail => spanDigits tail
      | tail => ([], tail)
    if whole.isEmpty && fraction.isEmpty then none
    else
      (readExponent? rest).map fun exponent =>
        ofDecimal negative ⟨digitsToNat (whole ++ fraction), exponent - fraction.length⟩

/-- Read a number. -/
def read? (cs : List Char) : Option (BinaryFloat f) :=
  match cs with
  | '-' :: rest => readUnsigned? true rest
  | '+' :: rest => readUnsigned? false rest
  | rest => readUnsigned? false rest

end BinaryFloat
end Concolic
