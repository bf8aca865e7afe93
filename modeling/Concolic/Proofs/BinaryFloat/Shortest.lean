import Concolic.BinaryFloat.Decimal
import Mathlib.Algebra.Order.Field.Power
import Mathlib.Data.Rat.Cast.Order
import Mathlib.Tactic.FieldSimp
import Mathlib.Tactic.Linarith
import Mathlib.Tactic.NormNum
import Mathlib.Tactic.Ring

/-!
# The shortest decimal rounds to its number

Writing a number looks for a decimal on ever finer grids, and takes the first that lies in the
interval of the reals that round to the number. On a grid whose step is no wider than the distance
to the lower end of the interval there is such a decimal, and powers of ten and of two are close
enough to one another for the search to come to such a grid. So what is found is in the interval.

## Main statements

* `Decimal.within_of_onGrid?`, `Decimal.isSome_onGrid?` — one grid.
* `Decimal.within_shortest` — the whole search.
-/

namespace Concolic
namespace Decimal

/-- The number that a decimal stands for. -/
def value (d : Decimal) : ℚ := d.digits * 10 ^ d.exponent

/-- Between two numbers; the ends count if `inclusive`. -/
structure Within (inclusive : Bool) (low high x : ℚ) : Prop where
  low_le : low ≤ x
  le_high : x ≤ high
  inner : inclusive = false → low < x ∧ x < high

theorem within_true {low high x : ℚ} : Within true low high x ↔ low ≤ x ∧ x ≤ high :=
  ⟨fun h => ⟨h.low_le, h.le_high⟩, fun h => ⟨h.1, h.2, nofun⟩⟩

theorem within_false {low high x : ℚ} : Within false low high x ↔ low < x ∧ x < high :=
  ⟨fun h => h.inner rfl, fun h => ⟨h.1.le, h.2.le, fun _ => h⟩⟩

theorem Within.of_lt {inclusive : Bool} {low high x : ℚ} (hlow : low < x) (hhigh : x < high) :
    Within inclusive low high x :=
  ⟨hlow.le, hhigh.le, fun _ => ⟨hlow, hhigh⟩⟩

/-! ## Grids -/

section grid
variable {num den m low high : Nat} {inclusive : Bool} {k : Int}

theorem scaleByTen_snd_pos (num : Nat) (hden : 0 < den) (power : Int) :
    0 < (scaleByTen num den power).2 := by
  unfold scaleByTen
  split
  · exact hden
  · exact Nat.mul_pos hden (Nat.pow_pos (by decide))

theorem scaleByTen_div (num : Nat) (hden : 0 < den) (power : Int) :
    ((scaleByTen num den power).1 : ℚ) / (scaleByTen num den power).2 = num / den * 10 ^ power := by
  have hden : (den : ℚ) ≠ 0 := by exact_mod_cast hden.ne'
  unfold scaleByTen
  split
  · next h =>
    obtain ⟨n, rfl⟩ := Int.eq_ofNat_of_zero_le h
    simp
    ring
  · next h =>
    obtain ⟨n, hn⟩ := Int.eq_ofNat_of_zero_le (show 0 ≤ -power by omega)
    obtain rfl : power = -n := by omega
    simp
    field_simp

/-- What the scaled comparisons compare, up to a positive factor. -/
theorem exists_scale (num : Nat) (hden : 0 < den) (k : Int) : ∃ s : ℚ, 0 < s ∧
    (∀ n : Nat, ((n * (scaleByTen num den (-k)).1 : Nat) : ℚ) * s = n * (num / den)) ∧
    ∀ d : Nat, ((d * (scaleByTen num den (-k)).2 : Nat) : ℚ) * s = value ⟨d, k⟩ := by
  have hbase : (0 : ℚ) < (scaleByTen num den (-k)).2 := by
    exact_mod_cast scaleByTen_snd_pos num hden (-k)
  have hten : (0 : ℚ) < 10 ^ k := zpow_pos (by norm_num) k
  have hunit := scaleByTen_div num hden (-k)
  rw [zpow_neg, div_eq_iff hbase.ne'] at hunit
  refine ⟨10 ^ k / (scaleByTen num den (-k)).2, div_pos hten hbase, fun n => ?_, fun d => ?_⟩
  · push_cast
    rw [hunit]
    field_simp
  · push_cast
    rw [value]
    field_simp

/-- The test for a neighbour of the number is that its decimal is within the bounds. -/
theorem inside_iff (hden : 0 < den) (d : Nat) :
    (if inclusive then
        decide (low * (scaleByTen num den (-k)).1 ≤ d * (scaleByTen num den (-k)).2) &&
          decide (d * (scaleByTen num den (-k)).2 ≤ high * (scaleByTen num den (-k)).1)
      else
        decide (low * (scaleByTen num den (-k)).1 < d * (scaleByTen num den (-k)).2) &&
          decide (d * (scaleByTen num den (-k)).2 < high * (scaleByTen num den (-k)).1)) = true ↔
      Within inclusive (low * (num / den)) (high * (num / den)) (value ⟨d, k⟩) := by
  obtain ⟨s, hs, hunit, hbase⟩ := exists_scale num hden k
  rw [← hunit low, ← hunit high, ← hbase d]
  cases inclusive <;>
    simp only [within_true, within_false, Bool.false_eq_true, if_false, if_true, Bool.and_eq_true,
      decide_eq_true_eq, mul_le_mul_iff_of_pos_right hs, mul_lt_mul_iff_of_pos_right hs,
      Nat.cast_le, Nat.cast_lt]

/-- What is looked at on a grid: the neighbours of the number, each as to whether its decimal is
within the bounds. -/
theorem onGrid?_eq (num m low high : Nat) (inclusive : Bool) (k : Int) (hden : 0 < den) :
    ∃ (inside : Nat → Bool) (nearerAbove : Bool) (below : Nat), (∀ d, inside d = true ↔
      Within inclusive (low * (num / den)) (high * (num / den)) (value ⟨d, k⟩)) ∧
    below = 4 * m * (scaleByTen num den (-k)).1 / (scaleByTen num den (-k)).2 ∧
    onGrid? num den m low high inclusive k =
      if inside below && !(inside (below + 1) && nearerAbove) then some ⟨below, k⟩
      else if inside (below + 1) then some ⟨below + 1, k⟩ else none :=
  ⟨_, _, _, inside_iff hden, rfl, rfl⟩

/-- A hit on a grid is within the bounds. -/
theorem within_of_onGrid? (hden : 0 < den) {d : Decimal}
    (h : onGrid? num den m low high inclusive k = some d) :
    Within inclusive (low * (num / den)) (high * (num / den)) d.value := by
  obtain ⟨inside, nearerAbove, below, hinside, -, heq⟩ := onGrid?_eq num m low high inclusive
    k hden
  rw [heq] at h
  split at h
  · next hbelow =>
    rw [Bool.and_eq_true] at hbelow
    obtain rfl := Option.some.inj h
    exact (hinside below).mp hbelow.1
  · split at h
    · next habove =>
      obtain rfl := Option.some.inj h
      exact (hinside (below + 1)).mp habove
    · cases h

/-- On a grid finer than the distance to the lower bound there is a hit. -/
theorem isSome_onGrid? (hden : 0 < den) (hnum : 0 < num) (hlow : low < 4 * m)
    (hhigh : 4 * m < high) (hk : (10 : ℚ) ^ k ≤ num / den) :
    (onGrid? num den m low high inclusive k).isSome = true := by
  obtain ⟨inside, nearerAbove, below, hinside, hbelow, heq⟩ := onGrid?_eq num m low high inclusive
    k hden
  obtain ⟨s, hs, hunit, hbase⟩ := exists_scale num hden k
  have hpos := scaleByTen_snd_pos num hden (-k)
  have hu : (0 : ℚ) < num / den := div_pos (by exact_mod_cast hnum) (by exact_mod_cast hden)
  -- The lower neighbour is at most one step of the grid below the number.
  have hfloor : value ⟨below, k⟩ ≤ (4 * m : Nat) * (num / den : ℚ) := by
    rw [← hbase, ← hunit, hbelow]
    exact mul_le_mul_of_nonneg_right (Nat.cast_le.mpr (Nat.div_mul_le_self _ _)) hs.le
  have hstep : (4 * m : Nat) * (num / den : ℚ) < value ⟨below, k⟩ + 10 ^ k := by
    have hone : value ⟨below + 1, k⟩ = value ⟨below, k⟩ + 10 ^ k := by
      simp only [value]
      push_cast
      ring
    rw [← hone, ← hbase, ← hunit, hbelow]
    exact mul_lt_mul_of_pos_right
      (Nat.cast_lt.mpr (Nat.lt_mul_of_div_lt (Nat.lt_succ_self _) hpos)) hs
  have hin : inside below = true := by
    refine (hinside below).mpr (Within.of_lt ?_ (hfloor.trans_lt ?_))
    · have hlow : (low : ℚ) + 1 ≤ (4 * m : Nat) := by exact_mod_cast hlow
      nlinarith
    · have hhigh : ((4 * m : Nat) : ℚ) < high := by exact_mod_cast hhigh
      nlinarith
  rw [heq, hin]
  cases inside (below + 1) <;> cases nearerAbove <;> rfl

/-- Some grid has a hit, so the first one is within the bounds. -/
theorem within_firstOnGrids (hden : 0 < den) {grids : Nat} {start : Int}
    (h : ∃ i < grids, (onGrid? num den m low high inclusive (start - i)).isSome = true) :
    Within inclusive (low * (num / den)) (high * (num / den))
      (firstOnGrids num den m low high inclusive grids start).value := by
  induction grids generalizing start with
  | zero =>
    obtain ⟨i, hi, -⟩ := h
    omega
  | succ grids ih =>
    rw [firstOnGrids]
    split
    · next d hd => exact within_of_onGrid? hden hd
    · next hnone =>
      obtain ⟨i, hi, hsome⟩ := h
      cases i with
      | zero => simp [hnone] at hsome
      | succ i =>
        refine ih ⟨i, by omega, ?_⟩
        rw [show start - 1 - (i : Int) = start - (i + 1 : Nat) by push_cast; ring]
        exact hsome

end grid

/-! ## Powers of ten and of two -/

/-- Three digits take no more than ten bits, and twenty-eight digits no fewer than ninety-three. -/
theorem ten_zpow_le_two_zpow {a b : Int} (hpos : 0 ≤ a → 10 * a ≤ 3 * b)
    (hneg : a ≤ 0 → 93 * a ≤ 28 * b) : (10 : ℚ) ^ a ≤ 2 ^ b := by
  rcases le_total 0 a with ha | ha
  · obtain ⟨n, rfl⟩ := Int.eq_ofNat_of_zero_le ha
    have hthree : ((10 : ℚ) ^ (n : Int)) ^ 3 ≤ (2 ^ b) ^ 3 := by
      calc ((10 : ℚ) ^ (n : Int)) ^ 3 = (10 ^ 3) ^ n := by
            rw [zpow_natCast, ← pow_mul, ← pow_mul, mul_comm]
        _ ≤ (2 ^ 10) ^ n := by gcongr; norm_num
        _ = 2 ^ (10 * (n : Int)) := by rw [← pow_mul, ← zpow_natCast]; push_cast; rfl
        _ ≤ 2 ^ (b * 3) := zpow_le_zpow_right₀ (by norm_num) (by have := hpos ha; omega)
        _ = (2 ^ b) ^ 3 := by rw [zpow_mul]; norm_cast
    exact le_of_pow_le_pow_left₀ (by decide) (zpow_pos (by norm_num) b).le hthree
  · obtain ⟨n, hn⟩ := Int.eq_ofNat_of_zero_le (show 0 ≤ -a by omega)
    obtain rfl : a = -n := by omega
    have hpow : ((10 : ℚ) ^ (-(n : Int))) ^ 28 ≤ (2 ^ b) ^ 28 := by
      calc ((10 : ℚ) ^ (-(n : Int))) ^ 28 = ((10 ^ 28) ^ n)⁻¹ := by
            rw [zpow_neg, zpow_natCast, inv_pow, ← pow_mul, ← pow_mul, mul_comm]
        _ ≤ ((2 ^ 93) ^ n)⁻¹ := by gcongr; norm_num
        _ = 2 ^ (-(93 * (n : Int))) := by rw [← pow_mul, zpow_neg, ← zpow_natCast]; push_cast; rfl
        _ ≤ 2 ^ (b * 28) := zpow_le_zpow_right₀ (by norm_num) (by have := hneg ha; omega)
        _ = (2 ^ b) ^ 28 := by rw [zpow_mul]; norm_cast
    exact le_of_pow_le_pow_left₀ (by decide) (zpow_pos (by norm_num) b).le hpow

/-! ## The shortest decimal -/

/-- The distance to the lower bound, as the quotient that the search works with. -/
theorem unit_eq (q : Int) : (((if 2 ≤ q then 1 <<< (q - 2).toNat else 1 : Nat) : ℚ) /
    (if 2 ≤ q then 1 else 1 <<< (2 - q).toNat : Nat)) = 2 ^ (q - 2) := by
  split
  · next h =>
    obtain ⟨n, hn⟩ := Int.eq_ofNat_of_zero_le (show 0 ≤ q - 2 by omega)
    rw [hn]
    simp [Nat.shiftLeft_eq]
  · next h =>
    obtain ⟨n, hn⟩ := Int.eq_ofNat_of_zero_le (show 0 ≤ 2 - q by omega)
    rw [hn, show q - 2 = -(n : Int) by omega]
    simp [Nat.shiftLeft_eq]

/-- The shortest decimal of a number with up to fifty-three bits is in the interval of those that
round to the number. -/
theorem within_shortest {m : Nat} (q : Int) (narrowBelow : Bool) (hm : 0 < m) (hbits : m < 2 ^ 53)
    (hq : -3000 ≤ q ∧ q ≤ 3000) :
    Within (m % 2 == 0) ((if narrowBelow then 4 * m - 1 else 4 * m - 2 : Nat) * 2 ^ (q - 2))
      ((4 * m + 2 : Nat) * 2 ^ (q - 2)) (shortest m q narrowBelow).value := by
  have hlog : m.log2 ≤ 52 := Nat.lt_succ_iff.mp ((Nat.log2_lt hm.ne').mpr hbits)
  rw [← unit_eq q]
  unfold shortest
  refine within_firstOnGrids ?_ ⟨23, by decide, isSome_onGrid? ?_ ?_ ?_ ?_ ?_⟩
  · split
    · decide
    · simp [Nat.shiftLeft_eq]
  · split
    · decide
    · simp [Nat.shiftLeft_eq]
  · split
    · simp [Nat.shiftLeft_eq]
    · decide
  · split <;> omega
  · omega
  · rw [unit_eq]
    refine ten_zpow_le_two_zpow ?_ ?_ <;> omega

end Decimal
end Concolic
