import Concolic.BinaryFloat.Arithmetic
import Concolic.Proofs.BinaryFloat.Written
import Mathlib.Data.Nat.Log

/-!
# Finite numbers

Taking a number from itself leaves zero when the number is finite, and no number otherwise: two
infinities of the same sign have no difference. Widening a 32-bit number neither makes nor loses
an infinity, since the exponents of the wider format reach much further.

## Main definitions

* `BinaryFloat.isFinite` — neither an infinity nor no number.

## Main statements

* `BinaryFloat.sub_self` — the difference of a number and itself.
* `BinaryFloat.isFinite_ofRatio` — what is far below the greatest 64-bit number stays finite.
* `BinaryFloat.isFinite_convert` — widening keeps the finite numbers apart from the others.
-/

namespace Concolic

namespace Numeral

def isFinite : Numeral → Bool
  | .nan | .infinity _ => false
  | .finite _ _ _ => true

/-- The numeral with the other sign. -/
def neg : Numeral → Numeral
  | .nan => .nan
  | .infinity negative => .infinity !negative
  | .finite negative significand exponent => .finite (!negative) significand exponent

end Numeral

namespace BinaryFloat

variable {f : FloatFormat}

def isFinite (x : BinaryFloat f) : Bool := x.decode.isFinite

/-! ## Differences -/

theorem magnitude_lt (x : BinaryFloat f) : x.magnitude < 2 ^ (f.width - 1) := by
  rw [magnitude, Nat.one_shiftLeft]
  exact Nat.mod_lt _ (Nat.two_pow_pos _)

theorem decode_neg (x : BinaryFloat f) : x.neg.decode = x.decode.neg := by
  have hmagnitude : x.neg.magnitude = x.magnitude := magnitude_ofMagnitude _ x.magnitude_lt
  have hnegative : x.neg.isNegative = !x.isNegative := isNegative_ofMagnitude _ x.magnitude_lt
  simp only [decode, hmagnitude, hnegative]
  split_ifs <;> rfl

theorem sub_self (x : BinaryFloat f) : x.sub x = if x.isFinite then zero false else nan := by
  rw [sub, add, decode_neg, isFinite]
  cases x.decode with
  | nan => rfl
  | infinity negative => cases negative <;> rfl
  | finite negative significand exponent =>
    have hcancel : Numeral.alignedTo (min exponent exponent) negative significand exponent +
        Numeral.alignedTo (min exponent exponent) (!negative) significand exponent = 0 := by
      cases negative <;> simp [Numeral.alignedTo]
    simp only [Numeral.neg, hcancel, Numeral.isFinite, if_true, Bool.and_not_self]

/-! ## Rounding -/

theorem roundHalfEven_le (num den : Nat) : roundHalfEven num den ≤ num / den + 1 := by
  unfold roundHalfEven
  dsimp only
  split <;> omega

theorem isFinite_ofMagnitude (negative : Bool) {m : Nat}
    (h : m < FloatFormat.double.infinityMagnitude) :
    (ofMagnitude negative m : Double).isFinite = true := by
  have hsign : FloatFormat.double.infinityMagnitude < 2 ^ (FloatFormat.double.width - 1) := by
    decide
  have hmagnitude : (ofMagnitude negative m : Double).magnitude = m :=
    magnitude_ofMagnitude negative (h.trans hsign)
  rw [isFinite, decode_of_lt (hmagnitude.trans_lt h)]
  rfl

/-- The logarithms of numerator and denominator tell that of the quotient up to one. -/
theorem floorLog2_bounds (num den : Nat) :
    (num.log2 : Int) - den.log2 - 1 ≤ floorLog2 num den ∧
      floorLog2 num den ≤ (num.log2 : Int) - den.log2 := by
  unfold floorLog2
  dsimp only
  split_ifs <;> omega

theorem div_lt_two_pow {a b i j n : Nat} (ha : a < 2 ^ i) (hb : 2 ^ j ≤ b) (h : i ≤ j + n) :
    a / b < 2 ^ n := by
  refine Nat.div_lt_of_lt_mul ?_
  calc a < 2 ^ i := ha
    _ ≤ 2 ^ (j + n) := Nat.pow_le_pow_right Nat.two_pos h
    _ = 2 ^ j * 2 ^ n := Nat.pow_add ..
    _ ≤ b * 2 ^ n := Nat.mul_le_mul_right _ hb

/-- A quotient far below the greatest number stays finite when it is rounded. -/
theorem isFinite_ofRatio (negative : Bool) {num den k : Nat} (hden : den ≠ 0)
    (h : num < den * 2 ^ k) (hk : k ≤ 900) :
    (ofRatio negative num den : Double).isFinite = true := by
  by_cases hnum : num = 0
  · rw [ofRatio, if_pos hnum]
    exact isFinite_ofMagnitude negative (by decide)
  obtain ⟨hlow, hhigh⟩ := floorLog2_bounds num den
  have hnumLog : num < 2 ^ (num.log2 + 1) := Nat.lt_log2_self
  have hdenLog : 2 ^ den.log2 ≤ den := Nat.log2_self_le hden
  have hlog : num.log2 < den.log2 + 1 + k := by
    refine (Nat.log2_lt hnum).mpr ?_
    calc num < den * 2 ^ k := h
      _ ≤ 2 ^ (den.log2 + 1) * 2 ^ k := Nat.mul_le_mul_right _ Nat.lt_log2_self.le
      _ = 2 ^ (den.log2 + 1 + k) := (Nat.pow_add ..).symm
  have hfraction : (FloatFormat.double.fractionBits : Int) = 52 := rfl
  have hmin : FloatFormat.double.minExponent = -1074 := rfl
  have hinfinity : FloatFormat.double.infinityMagnitude = 2047 * 2 ^ 52 := rfl
  simp only [ofRatio, if_neg hnum]
  generalize hexponent : max (floorLog2 num den - FloatFormat.double.fractionBits)
    FloatFormat.double.minExponent = exponent
  -- the exponent keeps a significand of 53 bits, and one more at most while the logarithm is a guess
  have hsignificand : (if 0 ≤ exponent then roundHalfEven num (den <<< exponent.toNat)
      else roundHalfEven (num <<< (-exponent).toNat) den) ≤ 2 ^ 54 := by
    split_ifs with hpos
    · have hshift : 2 ^ (den.log2 + exponent.toNat) ≤ den <<< exponent.toNat := by
        rw [Nat.shiftLeft_eq, Nat.pow_add]
        exact Nat.mul_le_mul_right _ hdenLog
      have hquotient := div_lt_two_pow (n := 54) hnumLog hshift (by omega)
      have := roundHalfEven_le num (den <<< exponent.toNat)
      omega
    · have hshift : num <<< (-exponent).toNat < 2 ^ (num.log2 + 1 + (-exponent).toNat) := by
        rw [Nat.shiftLeft_eq, Nat.pow_add]
        exact Nat.mul_lt_mul_of_pos_right hnumLog (Nat.two_pow_pos _)
      have hquotient := div_lt_two_pow (n := 54) hshift hdenLog (by omega)
      have := roundHalfEven_le (num <<< (-exponent).toNat) den
      omega
  refine isFinite_ofMagnitude negative (lt_of_le_of_lt (Nat.min_le_left _ _) ?_)
  have hplace : (exponent - FloatFormat.double.minExponent).toNat ≤ 1930 := by omega
  rw [Nat.shiftLeft_eq, hinfinity]
  calc _ ≤ 1930 * 2 ^ 52 + 2 ^ 54 := Nat.add_le_add (Nat.mul_le_mul_right _ hplace) hsignificand
    _ < 2047 * 2 ^ 52 := by decide

theorem isFinite_ofScaled (negative : Bool) {m : Nat} {e : Int} (hm : m < 2 ^ 24) (he : e ≤ 104) :
    (ofScaled negative m e : Double).isFinite = true := by
  unfold ofScaled
  split_ifs with hpos
  · refine isFinite_ofRatio negative (k := 128) Nat.one_ne_zero ?_ (by decide)
    have hplaces : 2 ^ e.toNat ≤ 2 ^ 104 := Nat.pow_le_pow_right Nat.two_pos (by omega)
    rw [Nat.shiftLeft_eq]
    calc m * 2 ^ e.toNat < 2 ^ 24 * 2 ^ 104 := Nat.mul_lt_mul_of_lt_of_le hm hplaces (by decide)
      _ = 1 * 2 ^ 128 := by decide
  · refine isFinite_ofRatio negative (k := 24) ?_ ?_ (by decide)
    · rw [Nat.one_shiftLeft]
      exact (Nat.two_pow_pos _).ne'
    · rw [Nat.one_shiftLeft]
      exact hm.trans_le (Nat.le_mul_of_pos_left _ (Nat.two_pow_pos _))

theorem isFinite_iff {x : BinaryFloat f} :
    x.isFinite = true ↔ x.magnitude < f.infinityMagnitude := by
  rcases Nat.lt_trichotomy x.magnitude f.infinityMagnitude with hlt | heq | hgt
  · simp [isFinite, decode_of_lt hlt, Numeral.isFinite, hlt]
  · simp [isFinite, decode, Numeral.isFinite, heq]
  · simp [isFinite, decode, Numeral.isFinite, hgt, hgt.le]

/-- Widening keeps the finite numbers apart from the others. -/
theorem isFinite_convert (x : Single) : (x.convert : Double).isFinite = x.isFinite := by
  cases hdecode : x.decode with
  | nan =>
    rw [convert, isFinite, isFinite, hdecode]
    decide
  | infinity negative =>
    rw [convert, isFinite, isFinite, hdecode]
    cases negative <;> decide
  | finite negative m e =>
    have hx : x.isFinite = true := by rw [isFinite, hdecode]; rfl
    have hlt := isFinite_iff.mp hx
    have hshift : FloatFormat.single.shift x.magnitude ≤ 253 := by
      have hfield : x.magnitude / 2 ^ 23 < 255 := Nat.div_lt_of_lt_mul hlt
      change x.magnitude / 2 ^ 23 - 1 ≤ 253
      omega
    rw [decode_of_lt hlt] at hdecode
    obtain ⟨-, rfl, rfl⟩ := Numeral.finite.inj hdecode
    have he : FloatFormat.single.exponent x.magnitude ≤ 104 := by
      have hmin : FloatFormat.single.minExponent = -149 := rfl
      rw [FloatFormat.exponent]
      omega
    rw [hx, convert, decode_of_lt hlt]
    exact isFinite_ofScaled _ (FloatFormat.significand_lt _) he

end BinaryFloat
end Concolic
