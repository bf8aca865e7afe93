import Concolic.Proofs.BinaryFloat.Written

/-!
# Widening

Numbers of different formats are compared by the quantity that they stand for. In units of the
smallest number of a format, the finite numbers are the multiples of powers of two by what fits
into a significand, as far as the exponents go: twice a number is a number again, with the next
exponent or, among the smallest, with twice the significand. The wider format has room for every
number of the narrower one.

## Main definitions

* `Quantity` — what a number stands for, apart from its format.

## Main statements

* `FloatFormat.exists_scaled_eq` — every multiple of a power of two by a significand is a number.
* `BinaryFloat.exists_double` — every 32-bit number stands for the same as a 64-bit number.
-/

namespace Concolic

/-- What a number stands for: none, an infinity, or a rational number. Zero may have either sign. -/
inductive Quantity where
  | nan
  | infinity (negative : Bool)
  | finite (negative : Bool) (size : ℚ)

def Numeral.quantity : Numeral → Quantity
  | .nan => .nan
  | .infinity negative => .infinity negative
  | .finite negative significand exponent => .finite negative (significand * 2 ^ exponent)

namespace FloatFormat

variable {f : FloatFormat} {k n : Nat}

/-! ## Doubling -/

/-- The smallest numbers are the multiples of the smallest one. -/
theorem scaled_of_lt (h : n < 2 * 2 ^ f.fractionBits) : f.scaled n = n := by
  have hdiv := Nat.mod_add_div n (2 ^ f.fractionBits)
  have hfield : n / 2 ^ f.fractionBits < 2 := Nat.div_lt_of_lt_mul (by rwa [Nat.mul_comm])
  unfold scaled significand shift
  generalize n / 2 ^ f.fractionBits = field at hdiv hfield ⊢
  generalize n % 2 ^ f.fractionBits = fraction at hdiv ⊢
  obtain rfl | rfl : field = 0 ∨ field = 1 := by omega
  · rw [if_pos rfl]
    omega
  · rw [if_neg Nat.one_ne_zero]
    omega

/-- Above these, the next exponent doubles a number. -/
theorem scaled_add (h : 2 ^ f.fractionBits ≤ n) :
    f.scaled (n + 2 ^ f.fractionBits) = f.scaled n * 2 := by
  have hpos := Nat.two_pow_pos f.fractionBits
  have hfield : 0 < n / 2 ^ f.fractionBits := Nat.div_pos h hpos
  unfold scaled significand shift
  rw [Nat.add_div_right n hpos, Nat.add_mod_right, if_neg (Nat.succ_ne_zero _), if_neg (by omega),
    Nat.mul_assoc, ← Nat.pow_succ]
  congr 2
  omega

/-- Whatever fits into a significand can be moved up by as many places as there are exponents. -/
theorem exists_scaled_eq (hk : k < 2 * 2 ^ f.fractionBits) (j : Nat) :
    ∃ n, f.scaled n = k * 2 ^ j ∧ n < (j + 2) * 2 ^ f.fractionBits := by
  induction j with
  | zero => exact ⟨k, by rw [scaled_of_lt hk, Nat.pow_zero, Nat.mul_one], by omega⟩
  | succ j ih =>
    obtain ⟨n, hscaled, hn⟩ := ih
    rw [Nat.pow_succ, ← Nat.mul_assoc, ← hscaled]
    have hroom : (j + 1 + 2) * 2 ^ f.fractionBits =
        (j + 2) * 2 ^ f.fractionBits + 2 ^ f.fractionBits := by ring
    by_cases hlarge : 2 ^ f.fractionBits ≤ n
    · exact ⟨n + 2 ^ f.fractionBits, scaled_add hlarge, by omega⟩
    · refine ⟨n * 2, ?_, ?_⟩
      · rw [scaled_of_lt (by omega), scaled_of_lt (by omega)]
      · have htwo : 2 * 2 ^ f.fractionBits ≤ (j + 1 + 2) * 2 ^ f.fractionBits :=
          Nat.mul_le_mul_right _ (by omega)
        omega

end FloatFormat

namespace BinaryFloat

variable {f : FloatFormat} {m : Nat}

/-! ## What numbers stand for -/

theorem quantity_of_lt {x : BinaryFloat f} (h : x.magnitude < f.infinityMagnitude) :
    x.decode.quantity =
      .finite x.isNegative (f.scaled x.magnitude * 2 ^ f.minExponent) := by
  have hsize : (f.significand x.magnitude : ℚ) * 2 ^ f.exponent x.magnitude =
      f.scaled x.magnitude * 2 ^ f.minExponent := by
    rw [FloatFormat.scaled, FloatFormat.exponent, zpow_add₀ two_ne_zero, zpow_natCast]
    push_cast
    ring
  rw [decode_of_lt h, Numeral.quantity, hsize]

theorem quantity_of_eq {x : BinaryFloat f} (h : x.magnitude = f.infinityMagnitude) :
    x.decode.quantity = .infinity x.isNegative := by
  rw [decode, h, if_neg (Nat.lt_irrefl _), if_pos rfl]
  rfl

theorem quantity_of_gt {x : BinaryFloat f} (h : f.infinityMagnitude < x.magnitude) :
    x.decode.quantity = .nan := by
  rw [decode, if_pos h]
  rfl

/-- Every 32-bit number stands for the same as a 64-bit number. -/
theorem exists_double (x : Single) : ∃ y : Double, y.decode.quantity = x.decode.quantity := by
  have hsign : FloatFormat.double.infinityMagnitude < 2 ^ (FloatFormat.double.width - 1) := by
    decide
  rcases Nat.lt_trichotomy x.magnitude FloatFormat.single.infinityMagnitude with hlt | heq | hgt
  · have hshift : FloatFormat.single.shift x.magnitude < 254 := by
      have hfield : x.magnitude / 2 ^ 23 < 255 := Nat.div_lt_of_lt_mul hlt
      exact Nat.lt_of_le_of_lt (Nat.sub_le_sub_right (Nat.le_of_lt_succ hfield) 1) (by decide)
    have hk : FloatFormat.single.significand x.magnitude <
        2 * 2 ^ FloatFormat.double.fractionBits :=
      Nat.lt_of_lt_of_le (FloatFormat.significand_lt _) (by decide)
    obtain ⟨apart, hle, hapart⟩ : ∃ apart : Nat, apart ≤ 925 ∧
        FloatFormat.single.minExponent = apart + FloatFormat.double.minExponent :=
      ⟨925, Nat.le_refl _, rfl⟩
    obtain ⟨n, hscaled, hn⟩ :=
      FloatFormat.exists_scaled_eq hk (FloatFormat.single.shift x.magnitude + apart)
    have hfinite : n < FloatFormat.double.infinityMagnitude := by
      have hinfinity : FloatFormat.double.infinityMagnitude = 2047 * 2 ^ 52 := rfl
      have hfraction : FloatFormat.double.fractionBits = 52 := rfl
      have hexponents : FloatFormat.single.shift x.magnitude + apart + 2 ≤ 2047 := by omega
      rw [hinfinity, ← hfraction]
      exact Nat.lt_of_lt_of_le hn (Nat.mul_le_mul_right _ hexponents)
    have hmagnitude := magnitude_ofMagnitude x.isNegative (Nat.lt_trans hfinite hsign)
    refine ⟨ofMagnitude x.isNegative n, ?_⟩
    rw [quantity_of_lt (hmagnitude.trans_lt hfinite), quantity_of_lt hlt, hmagnitude,
      isNegative_ofMagnitude _ (Nat.lt_trans hfinite hsign), hscaled]
    rw [hapart, zpow_add₀ two_ne_zero, zpow_natCast, FloatFormat.scaled, Nat.pow_add]
    push_cast
    congr 1
    ring
  · have hmagnitude : (infinity x.isNegative : Double).magnitude =
        FloatFormat.double.infinityMagnitude := magnitude_ofMagnitude _ hsign
    have hnegative : (infinity x.isNegative : Double).isNegative = x.isNegative :=
      isNegative_ofMagnitude _ hsign
    exact ⟨infinity x.isNegative, by rw [quantity_of_eq heq, quantity_of_eq hmagnitude, hnegative]⟩
  · exact ⟨nan, by rw [quantity_of_gt hgt]; rfl⟩

end BinaryFloat
end Concolic
