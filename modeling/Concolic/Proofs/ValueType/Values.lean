import Concolic.Number
import Concolic.Proofs.BinaryFloat.Widening

/-!
# Values of types

What the numbers of a type can stand for. For an integral type these are the integers between two
bounds, so one integral type takes in another if its bounds do; the wider of two types does except
that a `char` is never negative and the other types are.

## Main definitions

* `ValueType.Holds` — some literal of the type stands for the quantity.
* `ValueType.bounds?` — the least and the greatest integer of an integral type.
-/

namespace Concolic

/-- The integer as a quantity. -/
def Quantity.ofInt (i : Int) : Quantity := .finite (decide (i < 0)) |(i : ℚ)|

theorem Quantity.ofInt_injective {i j : Int} (h : ofInt i = ofInt j) : i = j := by
  obtain ⟨hsign, hsize⟩ := Quantity.finite.inj h
  rw [decide_eq_decide] at hsign
  rcases abs_eq_abs.mp hsize with heq | heq
  · exact_mod_cast heq
  · have hneg : i = -j := by exact_mod_cast heq
    omega

def Number.quantity : Number → Quantity
  | .int value => .ofInt value.toInt
  | .long value => .ofInt value.toInt
  | .float value => value.decode.quantity
  | .double value => value.decode.quantity

namespace ValueType

/-- Some number of the type stands for the quantity; truth values stand for one and zero. -/
def Holds (type : ValueType) (q : Quantity) : Prop :=
  ∃ l : Literal, l.type = type ∧ (Number.ofLiteral? l).map Number.quantity = some q

/-- The least and the greatest integer of an integral type. -/
def bounds? : ValueType → Option (Int × Int)
  | .bool => some (0, 1)
  | .byte => some (-2 ^ 7, 2 ^ 7 - 1)
  | .char => some (0, 2 ^ 16 - 1)
  | .short => some (-2 ^ 15, 2 ^ 15 - 1)
  | .int => some (-2 ^ 31, 2 ^ 31 - 1)
  | .long => some (-2 ^ 63, 2 ^ 63 - 1)
  | _ => none

variable {s t : ValueType} {q : Quantity} {low high : Int}

/-! ## Integers -/

/-- If the literals of a type are made from what stands for the integers between two bounds, these
are what the type holds. -/
theorem holds_iff_of {α : Type} (wrap : α → Literal) (toInt : α → Int)
    (htype : ∀ l : Literal, l.type = t ↔ ∃ x, wrap x = l)
    (hvalue : ∀ x, (Number.ofLiteral? (wrap x)).map Number.quantity = some (.ofInt (toInt x)))
    (hbounds : ∀ i, (∃ x, toInt x = i) ↔ low ≤ i ∧ i ≤ high) :
    t.Holds q ↔ ∃ i, low ≤ i ∧ i ≤ high ∧ q = .ofInt i := by
  constructor
  · rintro ⟨l, hl, hq⟩
    obtain ⟨x, rfl⟩ := (htype l).mp hl
    rw [hvalue] at hq
    obtain ⟨hlow, hhigh⟩ := (hbounds _).mp ⟨x, rfl⟩
    exact ⟨toInt x, hlow, hhigh, (Option.some.inj hq).symm⟩
  · rintro ⟨i, hlow, hhigh, rfl⟩
    obtain ⟨x, rfl⟩ := (hbounds i).mpr ⟨hlow, hhigh⟩
    exact ⟨wrap x, (htype _).mpr ⟨x, rfl⟩, hvalue x⟩

theorem holds_bool_iff : bool.Holds q ↔ ∃ i, 0 ≤ i ∧ i ≤ 1 ∧ q = .ofInt i := by
  refine holds_iff_of .bool (fun value => if value then 1 else 0) (fun l => ?_) (fun value => ?_)
    fun i => ?_
  · cases l <;> simp [Literal.type, string, classObject]
  · cases value <;> rfl
  · constructor
    · rintro ⟨value, rfl⟩
      cases value <;> decide
    · rintro ⟨hlow, hhigh⟩
      obtain rfl | rfl : i = 0 ∨ i = 1 := by omega
      · exact ⟨false, rfl⟩
      · exact ⟨true, rfl⟩

theorem holds_byte_iff : byte.Holds q ↔ ∃ i, -2 ^ 7 ≤ i ∧ i ≤ 2 ^ 7 - 1 ∧ q = .ofInt i := by
  refine holds_iff_of .byte Int8.toInt (fun l => ?_) (fun value => ?_) fun i => ?_
  · cases l <;> simp [Literal.type, string, classObject]
  · rw [← value.toInt_toInt32]
    rfl
  · constructor
    · rintro ⟨value, rfl⟩
      exact ⟨value.le_toInt, Int.le_sub_one_of_lt value.toInt_lt⟩
    · rintro ⟨hlow, hhigh⟩
      exact ⟨Int8.ofInt i, Int8.toInt_ofInt_of_le hlow (by omega)⟩

theorem holds_char_iff : char.Holds q ↔ ∃ i, 0 ≤ i ∧ i ≤ 2 ^ 16 - 1 ∧ q = .ofInt i := by
  refine holds_iff_of .char (fun unit => unit.toNat) (fun l => ?_) (fun unit => ?_) fun i => ?_
  · cases l <;> simp [Literal.type, string, classObject]
  · have hlt := unit.toNat_lt
    rw [Number.ofLiteral?, Option.map_some, Number.quantity,
      Int32.toInt_ofInt_of_le (by omega) (by omega)]
  · constructor
    · rintro ⟨unit, rfl⟩
      have hlt := unit.toNat_lt
      omega
    · rintro ⟨hlow, hhigh⟩
      refine ⟨UInt16.ofNat i.toNat, ?_⟩
      rw [UInt16.toNat_ofNat', Nat.mod_eq_of_lt (by omega), Int.toNat_of_nonneg hlow]

theorem holds_short_iff : short.Holds q ↔ ∃ i, -2 ^ 15 ≤ i ∧ i ≤ 2 ^ 15 - 1 ∧ q = .ofInt i := by
  refine holds_iff_of .short Int16.toInt (fun l => ?_) (fun value => ?_) fun i => ?_
  · cases l <;> simp [Literal.type, string, classObject]
  · rw [← value.toInt_toInt32]
    rfl
  · constructor
    · rintro ⟨value, rfl⟩
      exact ⟨value.le_toInt, Int.le_sub_one_of_lt value.toInt_lt⟩
    · rintro ⟨hlow, hhigh⟩
      exact ⟨Int16.ofInt i, Int16.toInt_ofInt_of_le hlow (by omega)⟩

theorem holds_int_iff : int.Holds q ↔ ∃ i, -2 ^ 31 ≤ i ∧ i ≤ 2 ^ 31 - 1 ∧ q = .ofInt i := by
  refine holds_iff_of .int Int32.toInt (fun l => ?_) (fun _ => rfl) fun i => ?_
  · cases l <;> simp [Literal.type, string, classObject]
  · constructor
    · rintro ⟨value, rfl⟩
      exact ⟨value.le_toInt, Int.le_sub_one_of_lt value.toInt_lt⟩
    · rintro ⟨hlow, hhigh⟩
      exact ⟨Int32.ofInt i, Int32.toInt_ofInt_of_le hlow (by omega)⟩

theorem holds_long_iff : long.Holds q ↔ ∃ i, -2 ^ 63 ≤ i ∧ i ≤ 2 ^ 63 - 1 ∧ q = .ofInt i := by
  refine holds_iff_of .long Int64.toInt (fun l => ?_) (fun _ => rfl) fun i => ?_
  · cases l <;> simp [Literal.type, string, classObject]
  · constructor
    · rintro ⟨value, rfl⟩
      exact ⟨value.le_toInt, Int.le_sub_one_of_lt value.toInt_lt⟩
    · rintro ⟨hlow, hhigh⟩
      exact ⟨Int64.ofInt i, Int64.toInt_ofInt_of_le hlow (by omega)⟩

theorem holds_iff_of_bounds? (h : t.bounds? = some (low, high)) :
    t.Holds q ↔ ∃ i, low ≤ i ∧ i ≤ high ∧ q = .ofInt i := by
  cases t with
  | bool => cases h; exact holds_bool_iff
  | byte => cases h; exact holds_byte_iff
  | char => cases h; exact holds_char_iff
  | short => cases h; exact holds_short_iff
  | int => cases h; exact holds_int_iff
  | long => cases h; exact holds_long_iff
  | void | float | double | null | «class» | array | location => cases h

/-- The integral types. -/
def integral : List ValueType := [.bool, .byte, .char, .short, .int, .long]

theorem mem_integral (h : t.isIntegral = true) : t ∈ integral := by
  cases t with
  | bool | byte | char | short | int | long => decide
  | void | float | double | null | «class» | array | location => cases h

/-- A type with fewer bits has room in one with more, but for the numbers below zero. -/
theorem bounds?_le : ∀ s ∈ integral, ∀ t ∈ integral, s.bits?.getD 0 ≤ t.bits?.getD 0 →
    ¬(t = .char ∧ (s = .byte ∨ s = .short)) → ¬(t = .short ∧ s = .char) →
    (s.bounds?.any fun inner => t.bounds?.any fun outer =>
      decide (outer.1 ≤ inner.1) && decide (inner.2 ≤ outer.2)) = true := by
  decide

theorem Holds.widen (hs : s.isIntegral = true) (ht : t.isIntegral = true)
    (hbits : s.bits?.getD 0 ≤ t.bits?.getD 0) (hchar : ¬(t = .char ∧ (s = .byte ∨ s = .short)))
    (hshort : ¬(t = .short ∧ s = .char)) (h : s.Holds q) : t.Holds q := by
  have hbounds := bounds?_le s (mem_integral hs) t (mem_integral ht) hbits hchar hshort
  obtain ⟨⟨low, high⟩, hinner, hany⟩ := (Option.any_eq_true _ _).mp hbounds
  obtain ⟨⟨low', high'⟩, houter, hwithin⟩ := (Option.any_eq_true _ _).mp hany
  rw [Bool.and_eq_true, decide_eq_true_eq, decide_eq_true_eq] at hwithin
  obtain ⟨i, hlow, hhigh, rfl⟩ := (holds_iff_of_bounds? hinner).mp h
  exact (holds_iff_of_bounds? houter).mpr
    ⟨i, hwithin.1.trans hlow, hhigh.trans hwithin.2, rfl⟩

/-! ## Real numbers -/

theorem isReal_of_isIntegral (h : t.isIntegral = true) : t.isReal = false := by
  cases t with
  | float | double => cases h
  | _ => rfl

theorem holds_double_of_float (h : float.Holds q) : double.Holds q := by
  obtain ⟨l, hl, hq⟩ := h
  cases l with
  | float x =>
    obtain ⟨y, hy⟩ := BinaryFloat.exists_double x
    refine ⟨.double y, rfl, ?_⟩
    rw [← hq]
    exact congrArg some hy
  | _ => cases hl

end ValueType
end Concolic
