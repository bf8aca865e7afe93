import Concolic.Proofs.BinaryFloat.Shortest
import Concolic.Proofs.Term.Inverse

/-!
# Numbers that are written alike

A finite number is known by its bits below the sign, which count the numbers of a format in
ascending order. Its interval reaches halfway to the numbers on both sides, so the intervals of two
numbers share an end at most, and that belongs to the one with the even significand. A decimal can
be read back from its digits, and it is in the interval of the number that was written. So numbers
that are written alike are equal, unless they stand for no number.

## Main statements

* `FloatFormat.eq_of_within` — no real is in the intervals of two numbers.
* `FloatFormat.within_toDecimal` — the decimal of a number is in the interval of the number.
* `Decimal.value_ofPositional` — a decimal that is written out can be read back.
* `BinaryFloat.eq_or_nan_of_write_eq` — numbers that are written alike.
-/

namespace Concolic

/-! ## Numbers by their bits below the sign -/

namespace FloatFormat

variable (f : FloatFormat)

/-- The significand of the finite number with the given bits below the sign. -/
def significand (magnitude : Nat) : Nat :=
  if magnitude / 2 ^ f.fractionBits = 0 then magnitude % 2 ^ f.fractionBits
  else 2 ^ f.fractionBits + magnitude % 2 ^ f.fractionBits

/-- By how many powers of two its last bit counts for more than that of the smallest numbers. -/
def shift (magnitude : Nat) : Nat := magnitude / 2 ^ f.fractionBits - 1

/-- The number in units of the smallest one. -/
def scaled (magnitude : Nat) : Nat := f.significand magnitude * 2 ^ f.shift magnitude

/-- Halfway from one number to the next. -/
def midpoint (magnitude : Nat) : ℚ :=
  (f.scaled magnitude + f.scaled (magnitude + 1) : Nat) * 2 ^ (f.minExponent - 1)

/-- Counting on by one carries into the quotient, or it does not. -/
theorem succ_div_mod {n p : Nat} (hp : 0 < p) :
    ((n + 1) / p = n / p ∧ (n + 1) % p = n % p + 1) ∨
      ((n + 1) / p = n / p + 1 ∧ (n + 1) % p = 0 ∧ n % p + 1 = p) := by
  have hdiv := Nat.mod_add_div n p
  have hlt := Nat.mod_lt n hp
  by_cases hcarry : n % p + 1 = p
  · have hnext : (n + 1) / p = n / p + 1 ∧ (n + 1) % p = 0 := by
      rw [Nat.div_mod_unique hp, Nat.mul_add]
      omega
    exact .inr ⟨hnext.1, hnext.2, hcarry⟩
  · refine .inl ((Nat.div_mod_unique hp).mpr ?_)
    omega

/-- The next number is one of its last bits away. -/
theorem scaled_succ (n : Nat) : f.scaled (n + 1) = f.scaled n + 2 ^ f.shift n := by
  unfold scaled significand shift
  have hpos : 0 < 2 ^ f.fractionBits := Nat.two_pow_pos _
  have hnext := succ_div_mod (n := n) hpos
  generalize 2 ^ f.fractionBits = p at *
  generalize n / p = field at *
  generalize n % p = fraction at *
  rcases hnext with ⟨hdiv, hmod⟩ | ⟨hdiv, hmod, hcarry⟩
  · rw [hdiv, hmod]
    split
    · next h => simp [h]
    · ring
  · rw [hdiv, hmod, if_neg (by omega)]
    cases field with
    | zero => simp [hcarry]
    | succ field =>
      rw [if_neg (by omega), Nat.add_sub_cancel, Nat.add_sub_cancel, ← hcarry]
      ring

theorem scaled_strictMono : StrictMono f.scaled :=
  strictMono_nat_of_lt_succ fun n => by
    rw [scaled_succ]
    have := Nat.two_pow_pos (f.shift n)
    omega

theorem midpoint_strictMono : StrictMono f.midpoint :=
  strictMono_nat_of_lt_succ fun n => by
    have hstep : f.scaled n + f.scaled (n + 1) < f.scaled (n + 1) + f.scaled (n + 1 + 1) := by
      have := f.scaled_strictMono (show n < n + 1 + 1 by omega)
      omega
    exact mul_lt_mul_of_pos_right (Nat.cast_lt.mpr hstep) (zpow_pos (by norm_num) _)

theorem midpoint_zero_pos : 0 < f.midpoint 0 := by
  have hpos : 0 < f.scaled 0 + f.scaled (0 + 1) := by
    have := f.scaled_strictMono (show 0 < 0 + 1 by omega)
    omega
  exact mul_pos (Nat.cast_pos.mpr hpos) (zpow_pos (by norm_num) _)

variable {f}

/-- No number is in the intervals of two numbers: neighbours share an end of their intervals, and
only one of them has an even significand. -/
theorem eq_of_within {m n : Nat} {x : ℚ}
    (hm : Decimal.Within ((m + 1) % 2 == 0) (f.midpoint m) (f.midpoint (m + 1)) x)
    (hn : Decimal.Within ((n + 1) % 2 == 0) (f.midpoint n) (f.midpoint (n + 1)) x) : m = n := by
  have hle : ∀ {m n : Nat},
      Decimal.Within ((m + 1) % 2 == 0) (f.midpoint m) (f.midpoint (m + 1)) x →
      Decimal.Within ((n + 1) % 2 == 0) (f.midpoint n) (f.midpoint (n + 1)) x → n ≤ m := by
    intro m n hm hn
    by_contra hlt
    have hends : f.midpoint (m + 1) ≤ f.midpoint n := f.midpoint_strictMono.monotone (by omega)
    have hshared : f.midpoint (m + 1) = f.midpoint n :=
      le_antisymm hends (hn.low_le.trans hm.le_high)
    obtain rfl : m + 1 = n := f.midpoint_strictMono.injective hshared
    by_cases heven : (m + 1) % 2 = 0
    · have hodd : ((m + 1 + 1) % 2 == 0) = false := beq_false_of_ne (by omega)
      exact absurd hm.le_high (not_le.mpr (hn.inner hodd).1)
    · exact absurd hn.low_le (not_le.mpr (hm.inner (beq_false_of_ne heven)).2)
  exact Nat.le_antisymm (hle hn hm) (hle hm hn)

/-! ## Decoding -/

/-- What a format of up to 64 bits is like. -/
structure IsSmall (f : FloatFormat) : Prop where
  exponentBits_le : f.exponentBits ≤ 11
  fractionBits_le : f.fractionBits ≤ 52
  fractionBits_pos : 0 < f.fractionBits

theorem isSmall_single : single.IsSmall := ⟨by decide, by decide, by decide⟩

theorem isSmall_double : double.IsSmall := ⟨by decide, by decide, by decide⟩

variable (f)

/-- The exponent of the last bit. -/
def exponent (magnitude : Nat) : Int := f.minExponent + f.shift magnitude

/-- Whether the number before is nearer than the one behind. -/
def narrowBelow (magnitude : Nat) : Bool :=
  decide (f.significand magnitude = 1 <<< f.fractionBits) &&
    decide (f.minExponent < f.exponent magnitude)

variable {f}

theorem infinityMagnitude_eq :
    f.infinityMagnitude = (2 ^ f.exponentBits - 1) * 2 ^ f.fractionBits := by
  simp [infinityMagnitude, Nat.shiftLeft_eq]

theorem significand_lt (n : Nat) : f.significand n < 2 * 2 ^ f.fractionBits := by
  have hlt := Nat.mod_lt n (Nat.two_pow_pos f.fractionBits)
  unfold significand
  split <;> omega

theorem significand_eq_zero_iff {n : Nat} : f.significand n = 0 ↔ n = 0 := by
  have hdiv := Nat.div_add_mod n (2 ^ f.fractionBits)
  have hpos := Nat.two_pow_pos f.fractionBits
  unfold significand
  constructor
  · intro h
    split at h
    · next hfield =>
      rw [hfield, h] at hdiv
      omega
    · omega
  · rintro rfl
    simp

theorem significand_mod_two (hf : f.IsSmall) (n : Nat) : f.significand n % 2 = n % 2 := by
  have hpow : 2 ^ f.fractionBits = 2 * 2 ^ (f.fractionBits - 1) := by
    rw [← Nat.pow_succ', Nat.succ_eq_add_one, Nat.sub_add_cancel hf.fractionBits_pos]
  have hmod : n % 2 ^ f.fractionBits % 2 = n % 2 := Nat.mod_mod_of_dvd n ⟨_, hpow⟩
  unfold significand
  split <;> omega

theorem shift_lt (hf : f.IsSmall) {n : Nat} (hn : n < f.infinityMagnitude) : f.shift n < 2048 := by
  have hfield : n / 2 ^ f.fractionBits < 2 ^ f.exponentBits - 1 := by
    rw [Nat.div_lt_iff_lt_mul (Nat.two_pow_pos _), ← infinityMagnitude_eq]
    exact hn
  have hpow : 2 ^ f.exponentBits ≤ 2 ^ 11 := Nat.pow_le_pow_right (by decide) hf.exponentBits_le
  unfold shift
  omega

theorem minExponent_bounds (hf : f.IsSmall) : -1100 ≤ f.minExponent ∧ f.minExponent ≤ 2 := by
  have hpow : 2 ^ (f.exponentBits - 1) ≤ 2 ^ 10 :=
    Nat.pow_le_pow_right (by decide) (by have := hf.exponentBits_le; omega)
  have hpos := Nat.two_pow_pos (f.exponentBits - 1)
  have hfraction := hf.fractionBits_le
  unfold minExponent
  rw [Nat.one_shiftLeft]
  omega

/-- The number before is nearer only where the last bit begins to count for more. -/
theorem shift_eq (n : Nat) :
    (f.significand (n + 1) = 2 ^ f.fractionBits ∧ f.shift (n + 1) = f.shift n + 1) ∨
      ((f.significand (n + 1) = 2 ^ f.fractionBits → f.shift (n + 1) = 0) ∧
        f.shift (n + 1) = f.shift n) := by
  have hpos := Nat.two_pow_pos f.fractionBits
  have hlt := Nat.mod_lt (n + 1) hpos
  unfold significand shift
  rcases succ_div_mod (n := n) hpos with ⟨hdiv, hmod⟩ | ⟨hdiv, hmod, -⟩
  · refine .inr ⟨fun h => ?_, by rw [hdiv]⟩
    split at h <;> omega
  · rw [hdiv, hmod, if_neg (Nat.succ_ne_zero _)]
    omega

theorem narrowBelow_iff {n : Nat} :
    f.narrowBelow n = true ↔ f.significand n = 2 ^ f.fractionBits ∧ 0 < f.shift n := by
  rw [narrowBelow, Bool.and_eq_true, decide_eq_true_eq, decide_eq_true_eq, Nat.one_shiftLeft,
    exponent]
  omega

theorem two_zpow_exponent (n : Nat) :
    (2 : ℚ) ^ (f.exponent n - 2) = 2 ^ f.shift n * 2 ^ (f.minExponent - 2) := by
  rw [exponent, ← zpow_natCast, ← zpow_add₀ two_ne_zero]
  congr 1
  ring

theorem midpoint_eq (n : Nat) : f.midpoint n =
    (2 * (f.scaled n + f.scaled (n + 1)) : Nat) * 2 ^ (f.minExponent - 2) := by
  have hhalf : (2 : ℚ) ^ (f.minExponent - 1) = 2 * 2 ^ (f.minExponent - 2) := by
    rw [← zpow_one_add₀ two_ne_zero]
    congr 1
    ring
  rw [midpoint, hhalf]
  push_cast
  ring

/-- The lower end of the interval of a number is halfway from the number before it. -/
theorem low_mul_two_pow (n : Nat) :
    (if f.narrowBelow (n + 1) then 4 * f.significand (n + 1) - 1
      else 4 * f.significand (n + 1) - 2) * 2 ^ f.shift (n + 1) =
      2 * (f.scaled n + f.scaled (n + 1)) := by
  have hnext := f.scaled_succ n
  have hscaled : f.scaled (n + 1) = f.significand (n + 1) * 2 ^ f.shift (n + 1) := rfl
  rcases f.shift_eq n with ⟨hsignificand, hshift⟩ | ⟨hsmall, hshift⟩
  · rw [if_pos (narrowBelow_iff.mpr ⟨hsignificand, by omega⟩), Nat.sub_mul, Nat.mul_assoc,
      ← hscaled, hshift, Nat.pow_succ]
    omega
  · have hwide : ¬(f.significand (n + 1) = 2 ^ f.fractionBits ∧ 0 < f.shift (n + 1)) := by omega
    rw [if_neg (narrowBelow_iff.not.mpr hwide), Nat.sub_mul, Nat.mul_assoc, ← hscaled, hshift]
    omega

theorem midpoint_eq_low (n : Nat) : f.midpoint n =
    (if f.narrowBelow (n + 1) then 4 * f.significand (n + 1) - 1
      else 4 * f.significand (n + 1) - 2 : Nat) * 2 ^ (f.exponent (n + 1) - 2) := by
  rw [midpoint_eq, ← f.low_mul_two_pow n, two_zpow_exponent, Nat.cast_mul, Nat.cast_pow,
    Nat.cast_ofNat, mul_assoc]

theorem midpoint_eq_high (n : Nat) :
    f.midpoint n = (4 * f.significand n + 2 : Nat) * 2 ^ (f.exponent n - 2) := by
  rw [midpoint_eq, scaled_succ, scaled, two_zpow_exponent]
  push_cast
  ring

/-- The decimal of a number is in the interval of the number. -/
theorem within_toDecimal (hf : f.IsSmall) {n : Nat} (hn : n + 1 < f.infinityMagnitude) :
    Decimal.Within ((n + 1) % 2 == 0) (f.midpoint n) (f.midpoint (n + 1))
      (BinaryFloat.toDecimal (f := f) (f.significand (n + 1)) (f.exponent (n + 1))).value := by
  have hshift := shift_lt hf hn
  have hmin := minExponent_bounds hf
  have hbits : f.significand (n + 1) < 2 ^ 53 := by
    have hlt := f.significand_lt (n + 1)
    have hpow : 2 ^ f.fractionBits ≤ 2 ^ 52 := Nat.pow_le_pow_right (by decide) hf.fractionBits_le
    omega
  have hpos : 0 < f.significand (n + 1) :=
    Nat.pos_of_ne_zero fun h => by have := significand_eq_zero_iff.mp h; omega
  have hexponent : -3000 ≤ f.exponent (n + 1) ∧ f.exponent (n + 1) ≤ 3000 := by
    unfold exponent
    omega
  rw [← significand_mod_two hf, midpoint_eq_low, midpoint_eq_high]
  exact Decimal.within_shortest _ _ hpos hbits hexponent

end FloatFormat

/-! ## Reading decimals back -/

namespace Decimal

open BinaryFloat (spanDigits digitsToNat)

/-- The decimal that digits with an optional point write. -/
def ofPositional (cs : List Char) : Decimal :=
  let fraction := (spanDigits (spanDigits cs).2.tail).1
  ⟨digitsToNat ((spanDigits cs).1 ++ fraction), -fraction.length⟩

theorem digitsToNat_toDigits (n : Nat) : digitsToNat (Nat.toDigits 10 n) = n :=
  Nat.ofDigitChars_ten_toDigits

theorem digitsToNat_append_zeros (ds : List Char) (k : Nat) :
    digitsToNat (ds ++ List.replicate k '0') = digitsToNat ds * 10 ^ k := by
  induction k with
  | zero => simp
  | succ k ih =>
    have hlast : digitsToNat (ds ++ List.replicate (k + 1) '0') =
        10 * digitsToNat (ds ++ List.replicate k '0') := by
      rw [List.replicate_succ', ← List.append_assoc, digitsToNat, List.foldl_append]
      rfl
    rw [hlast, ih]
    ring

theorem digitsToNat_zeros_append (ds : List Char) (k : Nat) :
    digitsToNat (List.replicate k '0' ++ ds) = digitsToNat ds := by
  induction k with
  | zero => rfl
  | succ k ih => exact ih

theorem spanDigits_append {ds rest : List Char} (hds : ∀ c ∈ ds, c.isDigit = true)
    (hrest : ∀ c ∈ rest.head?, c.isDigit = false) : spanDigits (ds ++ rest) = (ds, rest) := by
  have hnone : rest.takeWhile Char.isDigit = [] ∧ rest.dropWhile Char.isDigit = rest := by
    cases rest with
    | nil => exact ⟨rfl, rfl⟩
    | cons c rest => simp [hrest c rfl]
  rw [spanDigits, List.takeWhile_append_of_pos hds, List.dropWhile_append_of_pos hds, hnone.1,
    hnone.2, List.append_nil]

theorem spanDigits_of_all {ds : List Char} (hds : ∀ c ∈ ds, c.isDigit = true) :
    spanDigits ds = (ds, []) := by
  have hspan : spanDigits (ds ++ []) = (ds, []) := spanDigits_append hds (by simp)
  rwa [List.append_nil] at hspan

theorem isDigit_of_mem_digitText {d : Decimal} {c : Char} (h : c ∈ d.digitText) :
    c.isDigit = true :=
  Nat.isDigit_of_mem_toDigits (by decide) (by decide) h

theorem isDigit_of_mem_zeros {k : Nat} {c : Char} (h : c ∈ List.replicate k '0') :
    c.isDigit = true := by
  rw [List.eq_of_mem_replicate h]
  rfl

/-- Digits around a point are read as they are written. -/
theorem ofPositional_append_point {whole fraction : List Char}
    (hwhole : ∀ c ∈ whole, c.isDigit = true) (hfraction : ∀ c ∈ fraction, c.isDigit = true) :
    ofPositional (whole ++ '.' :: fraction) =
      ⟨digitsToNat (whole ++ fraction), -fraction.length⟩ := by
  have hspan : spanDigits (whole ++ '.' :: fraction) = (whole, '.' :: fraction) :=
    spanDigits_append hwhole (by simp)
  rw [ofPositional, hspan, List.tail_cons, spanDigits_of_all hfraction]

theorem ofPositional_of_all {ds : List Char} (hds : ∀ c ∈ ds, c.isDigit = true) :
    ofPositional ds = ⟨digitsToNat ds, 0⟩ := by
  rw [ofPositional, spanDigits_of_all hds, List.tail_nil, spanDigits_of_all (by simp),
    List.append_nil]
  rfl

/-- A decimal is written as its digits and zeros behind them, or as digits around a point. -/
theorem positional_cases (d : Decimal) :
    (∃ zeros : Nat, d.exponent = zeros ∧
      d.positional.toList = d.digitText ++ List.replicate zeros '0') ∨
    ∃ whole fraction : List Char, whole ≠ [] ∧ (∀ c ∈ whole, c.isDigit = true) ∧
      (∀ c ∈ fraction, c.isDigit = true) ∧ digitsToNat (whole ++ fraction) = d.digits ∧
      d.exponent = -fraction.length ∧ d.positional.toList = whole ++ '.' :: fraction := by
  have hdigits : digitsToNat d.digitText = d.digits := digitsToNat_toDigits d.digits
  have hall : ∀ c ∈ d.digitText, c.isDigit = true := fun c hc => isDigit_of_mem_digitText hc
  unfold positional
  simp only [String.toList_ofList, apply_ite String.toList]
  by_cases hwhole : 0 ≤ d.exponent
  · obtain ⟨zeros, hzeros⟩ := Int.eq_ofNat_of_zero_le hwhole
    refine .inl ⟨zeros, hzeros, ?_⟩
    rw [if_pos hwhole, hzeros, Int.toNat_natCast]
  obtain ⟨places, hplaces⟩ := Int.eq_ofNat_of_zero_le (show 0 ≤ -d.exponent by omega)
  rw [if_neg hwhole, hplaces, Int.toNat_natCast]
  by_cases hlt : places < d.digitText.length
  · refine .inr ⟨d.digitText.take (d.digitText.length - places),
      d.digitText.drop (d.digitText.length - places), ?_,
      fun c hc => hall c (List.mem_of_mem_take hc), fun c hc => hall c (List.mem_of_mem_drop hc),
      by rw [List.take_append_drop, hdigits], ?_, if_pos hlt⟩
    · rw [← List.length_pos_iff, List.length_take]
      omega
    · rw [List.length_drop]
      omega
  · refine .inr ⟨List.replicate 1 '0',
      List.replicate (places - d.digitText.length) '0' ++ d.digitText, by simp,
      fun c hc => isDigit_of_mem_zeros hc, ?_, ?_, ?_, if_neg hlt⟩
    · intro c hc
      rcases List.mem_append.mp hc with hc | hc
      · exact isDigit_of_mem_zeros hc
      · exact hall c hc
    · rw [digitsToNat_zeros_append, digitsToNat_zeros_append, hdigits]
    · rw [List.length_append, List.length_replicate]
      omega

/-- A decimal written out is read back as the same number. -/
theorem value_ofPositional (d : Decimal) :
    (ofPositional d.positional.toList).value = d.value := by
  rcases d.positional_cases with
    ⟨zeros, hexponent, htext⟩ | ⟨whole, fraction, -, hwhole, hfraction, hdigits, hexponent, htext⟩
  · have hall : ∀ c ∈ d.digitText ++ List.replicate zeros '0', c.isDigit = true := by
      intro c hc
      rcases List.mem_append.mp hc with hc | hc
      · exact isDigit_of_mem_digitText hc
      · exact isDigit_of_mem_zeros hc
    rw [htext, ofPositional_of_all hall, value, value, hexponent, digitsToNat_append_zeros,
      digitText, digitsToNat_toDigits]
    push_cast
    simp
  · rw [htext, ofPositional_append_point hwhole hfraction, value, value, hdigits, hexponent]

/-- A decimal is written with a digit in front. -/
theorem isDigit_head_positional (d : Decimal) :
    ∃ c rest, d.positional.toList = c :: rest ∧ c.isDigit = true := by
  rcases d.positional_cases with ⟨zeros, -, htext⟩ | ⟨whole, fraction, hne, hwhole, -, -, -, htext⟩
  · obtain ⟨c, rest, hcons⟩ := List.exists_cons_of_ne_nil (show d.digitText ≠ [] from
      Nat.toDigits_ne_nil)
    refine ⟨c, rest ++ List.replicate zeros '0', by rw [htext, hcons, List.cons_append], ?_⟩
    exact isDigit_of_mem_digitText (by rw [hcons]; exact List.mem_cons_self ..)
  · obtain ⟨c, rest, rfl⟩ := List.exists_cons_of_ne_nil hne
    exact ⟨c, rest ++ '.' :: fraction, htext, hwhole c (List.mem_cons_self ..)⟩

end Decimal

namespace BinaryFloat

variable {f : FloatFormat}

/-! ## Bit patterns -/

/-- Half of the patterns have the sign. -/
theorem two_pow_width (f : FloatFormat) : 2 ^ f.width = 2 * 2 ^ (f.width - 1) := by
  rw [← Nat.pow_succ']
  congr 1
  unfold FloatFormat.width
  omega

/-- A number is its sign and the bits below. -/
theorem eq_of_magnitude_eq {x y : BinaryFloat f} (hsign : x.isNegative = y.isNegative)
    (hmagnitude : x.magnitude = y.magnitude) : x = y := by
  obtain ⟨a⟩ := x
  obtain ⟨b⟩ := y
  have hwidth := two_pow_width f
  have ha := a.isLt
  have hb := b.isLt
  simp only [isNegative, magnitude, BitVec.msb_eq_decide, decide_eq_decide, Nat.one_shiftLeft]
    at hsign hmagnitude
  have hbits : a.toNat = b.toNat := by
    rw [hwidth] at ha hb
    rcases Nat.lt_or_ge a.toNat (2 ^ (f.width - 1)) with hlow | hhigh
    · have hlow' : b.toNat < 2 ^ (f.width - 1) := by omega
      rwa [Nat.mod_eq_of_lt hlow, Nat.mod_eq_of_lt hlow'] at hmagnitude
    · have hhigh' := hsign.mp hhigh
      rw [Nat.mod_eq_sub_mod hhigh, Nat.mod_eq_sub_mod hhigh', Nat.mod_eq_of_lt (by omega),
        Nat.mod_eq_of_lt (by omega)] at hmagnitude
      omega
  rw [BitVec.eq_of_toNat_eq hbits]

theorem two_pow_sign_lt (f : FloatFormat) : 2 ^ (f.width - 1) < 2 ^ f.width := by
  have hpos : 0 < 2 ^ (f.width - 1) := Nat.two_pow_pos _
  have hwidth := two_pow_width f
  omega

variable {m : Nat}

theorem toNat_bits_ofMagnitude (negative : Bool) (h : m < 2 ^ (f.width - 1)) :
    (ofMagnitude negative m : BinaryFloat f).bits.toNat =
      m + if negative then 2 ^ (f.width - 1) else 0 := by
  have hwidth := two_pow_width f
  rw [ofMagnitude, BitVec.toNat_ofNat, Nat.one_shiftLeft]
  cases negative with
  | false => exact Nat.mod_eq_of_lt (Nat.lt_trans h (two_pow_sign_lt f))
  | true => exact Nat.mod_eq_of_lt (by rw [if_pos rfl]; omega)

theorem isNegative_ofMagnitude (negative : Bool) (h : m < 2 ^ (f.width - 1)) :
    (ofMagnitude negative m : BinaryFloat f).isNegative = negative := by
  rw [isNegative, BitVec.msb_eq_decide, toNat_bits_ofMagnitude negative h]
  cases negative with
  | false => exact decide_eq_false (Nat.not_le.mpr h)
  | true => exact decide_eq_true (Nat.le_add_left _ _)

theorem magnitude_ofMagnitude (negative : Bool) (h : m < 2 ^ (f.width - 1)) :
    (ofMagnitude negative m : BinaryFloat f).magnitude = m := by
  rw [magnitude, toNat_bits_ofMagnitude negative h, Nat.one_shiftLeft]
  cases negative with
  | false => exact Nat.mod_eq_of_lt h
  | true => rw [if_pos rfl, Nat.add_mod_right, Nat.mod_eq_of_lt h]

/-- There are two zeros, told apart by the sign. -/
theorem eq_zero_of_magnitude {x : BinaryFloat f} (hmagnitude : x.magnitude = 0) :
    x = zero x.isNegative :=
  eq_of_magnitude_eq (isNegative_ofMagnitude _ (Nat.two_pow_pos _)).symm
    (hmagnitude.trans (magnitude_ofMagnitude _ (Nat.two_pow_pos _)).symm)

theorem decode_of_lt {x : BinaryFloat f} (h : x.magnitude < f.infinityMagnitude) :
    x.decode = .finite x.isNegative (f.significand x.magnitude) (f.exponent x.magnitude) := by
  have hfield : x.magnitude >>> f.fractionBits = x.magnitude / 2 ^ f.fractionBits :=
    Nat.shiftRight_eq_div_pow _ _
  unfold decode FloatFormat.significand FloatFormat.exponent FloatFormat.shift
  simp only [Nat.one_shiftLeft, hfield]
  rw [if_neg (by omega), if_neg (by omega)]
  split
  · next hzero => rw [hzero]; simp
  · next hpos =>
    generalize x.magnitude / 2 ^ f.fractionBits = field at hpos ⊢
    congr 1
    omega

/-! ## Texts -/

/-- The text of the finite number with the given bits below the sign, without its sign. -/
def body (f : FloatFormat) (magnitude : Nat) : String :=
  if f.significand magnitude = 0 then "0"
  else (toDecimal (f := f) (f.significand magnitude) (f.exponent magnitude)).positional

theorem write_of_lt {x : BinaryFloat f} (h : x.magnitude < f.infinityMagnitude) :
    x.write .plain = (if x.isNegative then "-" else "") ++ body f x.magnitude := by
  rw [write, decode_of_lt h, body]
  simp only
  split
  · simp [DecimalStyle.plain]
  · simp [DecimalStyle.plain, DecimalStyle.write]

theorem isDigit_head_body (f : FloatFormat) (magnitude : Nat) :
    ∃ c rest, (body f magnitude).toList = c :: rest ∧ c.isDigit = true := by
  unfold body
  split
  · exact ⟨'0', [], rfl, rfl⟩
  · exact Decimal.isDigit_head_positional _

theorem value_body_zero (f : FloatFormat) :
    (Decimal.ofPositional (body f 0).toList).value = 0 := by
  rw [body, if_pos (FloatFormat.significand_eq_zero_iff.mpr rfl)]
  simp [Decimal.ofPositional, spanDigits, digitsToNat, Decimal.value]

/-- What the text of a number says is in the interval of the number. -/
theorem within_body (hf : f.IsSmall) {n : Nat} (hn : n + 1 < f.infinityMagnitude) :
    Decimal.Within ((n + 1) % 2 == 0) (f.midpoint n) (f.midpoint (n + 1))
      (Decimal.ofPositional (body f (n + 1)).toList).value := by
  rw [body, if_neg (FloatFormat.significand_eq_zero_iff.not.mpr n.succ_ne_zero),
    Decimal.value_ofPositional]
  exact FloatFormat.within_toDecimal hf hn

/-- Numbers whose texts without a sign are equal have the same bits below the sign. -/
theorem eq_of_body_eq (hf : f.IsSmall) {m n : Nat} (hm : m < f.infinityMagnitude)
    (hn : n < f.infinityMagnitude) (h : body f m = body f n) : m = n := by
  have hzero : ∀ {k : Nat}, k + 1 < f.infinityMagnitude → body f 0 ≠ body f (k + 1) := by
    intro k hk hbody
    have hlow := (within_body hf hk).low_le
    rw [← hbody, value_body_zero] at hlow
    have hpos := (f.midpoint_zero_pos).trans_le (f.midpoint_strictMono.monotone k.zero_le)
    exact absurd hlow (not_le.mpr hpos)
  cases m with
  | zero =>
    cases n with
    | zero => rfl
    | succ n => exact absurd h (hzero hn)
  | succ m =>
    cases n with
    | zero => exact absurd h.symm (hzero hm)
    | succ n =>
      have hwithin := within_body hf hm
      rw [h] at hwithin
      rw [FloatFormat.eq_of_within hwithin (within_body hf hn)]

/-! ## All numbers -/

/-- What a text tells of a number: nothing, infinity, or a finite number, and the sign. -/
theorem cases_write (x : BinaryFloat f) :
    (x.decode = .nan ∧ x.write .plain = "NaN") ∨
      (x.magnitude = f.infinityMagnitude ∧
        x.write .plain = (if x.isNegative then "-" else "") ++ "inf") ∨
      (x.magnitude < f.infinityMagnitude ∧
        x.write .plain = (if x.isNegative then "-" else "") ++ body f x.magnitude) := by
  rcases Nat.lt_trichotomy x.magnitude f.infinityMagnitude with hlt | heq | hgt
  · exact .inr (.inr ⟨hlt, write_of_lt hlt⟩)
  · have hdecode : x.decode = .infinity x.isNegative := by
      unfold decode
      simp only
      rw [if_neg (by omega), if_pos heq]
    refine .inr (.inl ⟨heq, ?_⟩)
    rw [write, hdecode]
    cases x.isNegative <;> rfl
  · have hdecode : x.decode = .nan := by
      unfold decode
      simp only
      rw [if_pos hgt]
    refine .inl ⟨hdecode, ?_⟩
    rw [write, hdecode]

/-- Texts with a sign in front are equal when the signs are and the rest is. -/
theorem eq_of_sign_append_eq {negative negative' : Bool} {s t : String}
    (hs : s.toList.head? ≠ some '-') (ht : t.toList.head? ≠ some '-')
    (h : (if negative then "-" else "") ++ s = (if negative' then "-" else "") ++ t) :
    negative = negative' ∧ s = t := by
  have hlist := congrArg String.toList h
  cases negative <;> cases negative' <;> simp [String.toList_append] at hlist
  · exact ⟨rfl, String.toList_inj.mp hlist⟩
  · simp [hlist] at hs
  · simp [← hlist] at ht
  · exact ⟨rfl, String.toList_inj.mp hlist⟩

theorem head?_body_ne {n : Nat} {c : Char} (hc : c.isDigit = false) :
    (body f n).toList.head? ≠ some c := by
  obtain ⟨d, rest, hcons, hd⟩ := isDigit_head_body f n
  rw [hcons]
  intro h
  obtain rfl := Option.some.inj h
  rw [hc] at hd
  cases hd

/-- The words for infinity and for no number are told from digits, and from each other. -/
theorem body_ne_word (n : Nat) : body f n ≠ "inf" ∧ body f n ≠ "NaN" := by
  have hinf : (body f n).toList.head? ≠ some 'i' := head?_body_ne rfl
  have hnan : (body f n).toList.head? ≠ some 'N' := head?_body_ne rfl
  exact ⟨fun h => hinf (h ▸ rfl), fun h => hnan (h ▸ rfl)⟩

/-- **Numbers that are written alike.** Numbers of a format of up to 64 bits that are written
alike are equal, or neither of them is a number. -/
theorem eq_or_nan_of_write_eq (hf : f.IsSmall) {x y : BinaryFloat f}
    (h : x.write .plain = y.write .plain) :
    x = y ∨ x.decode = .nan ∧ y.decode = .nan := by
  have hinf : "inf".toList.head? ≠ some '-' := by decide
  have hnan : "NaN".toList.head? ≠ some '-' := by decide
  have hbody : ∀ n, (body f n).toList.head? ≠ some '-' := fun n => head?_body_ne rfl
  have hunsigned : "NaN" = (if false then "-" else "") ++ "NaN" := rfl
  rcases cases_write x with ⟨hx, htext⟩ | ⟨hx, htext⟩ | ⟨hx, htext⟩ <;>
    rcases cases_write y with ⟨hy, htext'⟩ | ⟨hy, htext'⟩ | ⟨hy, htext'⟩ <;>
    rw [htext, htext'] at h
  · exact .inr ⟨hx, hy⟩
  · rw [hunsigned] at h
    exact absurd (eq_of_sign_append_eq hnan hinf h).2 (by decide)
  · rw [hunsigned] at h
    exact absurd (eq_of_sign_append_eq hnan (hbody _) h).2.symm (body_ne_word _).2
  · rw [hunsigned] at h
    exact absurd (eq_of_sign_append_eq hinf hnan h).2 (by decide)
  · exact .inl (eq_of_magnitude_eq (eq_of_sign_append_eq hinf hinf h).1 (hx.trans hy.symm))
  · exact absurd (eq_of_sign_append_eq hinf (hbody _) h).2.symm (body_ne_word _).1
  · rw [hunsigned] at h
    exact absurd (eq_of_sign_append_eq (hbody _) hnan h).2 (body_ne_word _).2
  · exact absurd (eq_of_sign_append_eq (hbody _) hinf h).2 (body_ne_word _).1
  · obtain ⟨hsign, hsame⟩ := eq_of_sign_append_eq (hbody _) (hbody _) h
    exact .inl (eq_of_magnitude_eq hsign (eq_of_body_eq hf hx hy hsame))

/-- What the text of a number begins with. -/
theorem exists_head_write (x : BinaryFloat f) : ∃ c rest, (x.write .plain).toList = c :: rest ∧
    (c.isDigit = true ∨ c ∈ ['-', 'i', 'N']) := by
  rcases cases_write x with ⟨-, htext⟩ | ⟨-, htext⟩ | ⟨-, htext⟩ <;> rw [htext]
  · exact ⟨'N', ['a', 'N'], rfl, .inr (by decide)⟩
  · cases x.isNegative with
    | true => exact ⟨'-', ['i', 'n', 'f'], rfl, .inr (by decide)⟩
    | false => exact ⟨'i', ['n', 'f'], rfl, .inr (by decide)⟩
  · cases x.isNegative with
    | true => exact ⟨'-', _, by rw [String.toList_append]; rfl, .inr (by decide)⟩
    | false =>
      obtain ⟨c, rest, hcons, hc⟩ := isDigit_head_body f x.magnitude
      exact ⟨c, rest, by rw [String.toList_append, hcons]; rfl, .inl hc⟩

end BinaryFloat
end Concolic
