import Concolic.Proofs.Term.Literals

/-!
# Decoding units

Text is a sequence of characters, but it is cut up by its 16-bit units. What decoding makes of any
sequence of units is said here by positions: a surrogate without the other half of its pair gives
way to the replacement character, and every other unit stays what and where it is. The units of a
text pair up, so a piece of them loses only what a cut inside a pair leaves at its two ends.

## Main statements

* `Text.ofUnits_units` — decoding undoes encoding.
* `Text.units_ofUnits` — the units of what any units decode to, position by position.
* `Text.isLone_slice` — which surrogates stand alone in a piece of a text.
-/

namespace Concolic.Text

/-- Whether a position lies between the two halves of a surrogate pair. -/
def splitsPair (us : List UInt16) : Nat → Bool
  | 0 => false
  | k + 1 => us[k]?.any isHighSurrogate && us[k + 1]?.any isLowSurrogate

/-- Whether a surrogate without the other half of its pair is at a position. -/
def isLone (us : List UInt16) (k : Nat) : Bool :=
  (us[k]?.any isHighSurrogate && !splitsPair us (k + 1)) ||
    (us[k]?.any isLowSurrogate && !splitsPair us k)

/-- The unit of the replacement character. -/
def replacementUnit : UInt16 := 0xfffd

variable {us : List UInt16} {u v : UInt16} {c d : Char} {k : Nat}

/-! ## Surrogates -/

theorem isHighSurrogate_iff : isHighSurrogate u = true ↔ 0xd800 ≤ u.toNat ∧ u.toNat ≤ 0xdbff := by
  simp [isHighSurrogate, UInt16.le_iff_toNat_le]

theorem isLowSurrogate_iff : isLowSurrogate u = true ↔ 0xdc00 ≤ u.toNat ∧ u.toNat ≤ 0xdfff := by
  simp [isLowSurrogate, UInt16.le_iff_toNat_le]

theorem isLowSurrogate_of_high (h : isHighSurrogate u = true) : isLowSurrogate u = false := by
  rw [← Bool.not_eq_true, isLowSurrogate_iff]
  rw [isHighSurrogate_iff] at h
  omega

theorem isHighSurrogate_of_low (h : isLowSurrogate u = true) : isHighSurrogate u = false := by
  rw [← Bool.not_eq_true]
  intro hhigh
  rw [isLowSurrogate_of_high hhigh] at h
  cases h

/-! ## One character -/

/-- A character beyond the basic plane is a pair, and any other one a unit that is no surrogate. -/
theorem unitsOfChar_cases (c : Char) :
    (∃ u, unitsOfChar c = [u] ∧ charOfUnit? u = some c) ∨
      ∃ high low, unitsOfChar c = [high, low] ∧ isHighSurrogate high = true ∧
        isLowSurrogate low = true ∧ charOfPair high low = c := by
  have hvalid := c.valid
  have htoNat : c.val.toNat = c.toNat := rfl
  simp only [UInt32.isValidChar, Nat.isValidChar, htoNat] at hvalid
  unfold unitsOfChar
  split
  · next hsmall =>
    refine .inl ⟨_, rfl, ?_⟩
    have hunit : (c.toNat.toUInt16).toNat = c.toNat := by
      rw [Nat.toUInt16_eq, UInt16.toNat_ofNat', Nat.mod_eq_of_lt hsmall]
    have hhigh : ¬isHighSurrogate c.toNat.toUInt16 = true := by
      rw [isHighSurrogate_iff, hunit]
      omega
    have hlow : ¬isLowSurrogate c.toNat.toUInt16 = true := by
      rw [isLowSurrogate_iff, hunit]
      omega
    rw [charOfUnit?, if_neg (by simp [hhigh, hlow]), hunit, Char.ofNat_toNat]
  · next hlarge =>
    have hhigh : ((0xd800 + (c.toNat - 0x10000) / 0x400).toUInt16).toNat =
        0xd800 + (c.toNat - 0x10000) / 0x400 := by
      rw [Nat.toUInt16_eq, UInt16.toNat_ofNat', Nat.mod_eq_of_lt (by omega)]
    have hlow : ((0xdc00 + (c.toNat - 0x10000) % 0x400).toUInt16).toNat =
        0xdc00 + (c.toNat - 0x10000) % 0x400 := by
      rw [Nat.toUInt16_eq, UInt16.toNat_ofNat', Nat.mod_eq_of_lt (by omega)]
    refine .inr ⟨_, _, rfl, ?_, ?_, ?_⟩
    · rw [isHighSurrogate_iff, hhigh]
      omega
    · rw [isLowSurrogate_iff, hlow]
      omega
    · rw [charOfPair, hhigh, hlow, show 0x10000 + (0xd800 + (c.toNat - 0x10000) / 0x400 - 0xd800) *
        0x400 + (0xdc00 + (c.toNat - 0x10000) % 0x400 - 0xdc00) = c.toNat by omega,
        Char.ofNat_toNat]

theorem charsOfUnits_cons (h : charOfUnit? u = some c) :
    charsOfUnits (u :: us) = c :: charsOfUnits us := by
  have hhigh : isHighSurrogate u = false := by
    unfold charOfUnit? at h
    split at h
    · cases h
    · next hsurrogate =>
      rw [Bool.not_eq_true, Bool.or_eq_false_iff] at hsurrogate
      exact hsurrogate.1
  cases us with
  | nil => simp [charsOfUnits, h]
  | cons v rest => simp [charsOfUnits, h, hhigh]

theorem charsOfUnits_pair (hhigh : isHighSurrogate u = true) (hlow : isLowSurrogate v = true) :
    charsOfUnits (u :: v :: us) = charOfPair u v :: charsOfUnits us := by
  simp [charsOfUnits, hhigh, hlow]

theorem charsOfUnits_unitsOfChar (c : Char) (us : List UInt16) :
    charsOfUnits (unitsOfChar c ++ us) = c :: charsOfUnits us := by
  rcases unitsOfChar_cases c with ⟨u, hunits, hu⟩ | ⟨high, low, hunits, hhigh, hlow, hpair⟩
  · rw [hunits]
    exact charsOfUnits_cons hu
  · rw [hunits, ← hpair]
    exact charsOfUnits_pair hhigh hlow

theorem charsOfUnits_flatMap (cs : List Char) : charsOfUnits (cs.flatMap unitsOfChar) = cs := by
  induction cs with
  | nil => rfl
  | cons c cs ih => rw [List.flatMap_cons, charsOfUnits_unitsOfChar, ih]

/-- Decoding undoes encoding. -/
theorem ofUnits_units (s : String) : ofUnits (units s) = s := by
  rw [ofUnits, units, charsOfUnits_flatMap, String.ofList_toList]

theorem units_injective {s t : String} (h : units s = units t) : s = t := by
  rw [← ofUnits_units s, h, ofUnits_units]

theorem units_append (s t : String) : units (s ++ t) = units s ++ units t := by
  rw [units, String.toList_append, List.flatMap_append]
  rfl

theorem units_ofUnits_eq (us : List UInt16) :
    units (ofUnits us) = (charsOfUnits us).flatMap unitsOfChar := by
  rw [units, ofUnits, String.toList_ofList]

/-! ## The units of decoded text -/

/-- A unit decoded by itself stays what it is, unless it is a surrogate. -/
theorem unitsOfChar_getD (u : UInt16) : unitsOfChar ((charOfUnit? u).getD replacement) =
    [if isHighSurrogate u || isLowSurrogate u then replacementUnit else u] := by
  cases h : charOfUnit? u with
  | none =>
    have hsurrogate : (isHighSurrogate u || isLowSurrogate u) = true := by
      unfold charOfUnit? at h
      split at h
      · assumption
      · cases h
    rw [hsurrogate]
    rfl
  | some c =>
    have hsurrogate : ¬(isHighSurrogate u || isLowSurrogate u) = true := by
      intro hsurrogate
      rw [charOfUnit?, if_pos hsurrogate] at h
      cases h
    rw [if_neg hsurrogate, Option.getD_some, unitsOfChar, toNat_of_charOfUnit? h,
      if_pos u.toNat_lt, Nat.toUInt16_eq, UInt16.ofNat_toNat]

theorem unitsOfChar_charOfPair (hhigh : isHighSurrogate u = true) (hlow : isLowSurrogate v = true) :
    unitsOfChar (charOfPair u v) = [u, v] := by
  rw [isHighSurrogate_iff] at hhigh
  rw [isLowSurrogate_iff] at hlow
  have hchar : (charOfPair u v).toNat =
      0x10000 + (u.toNat - 0xd800) * 0x400 + (v.toNat - 0xdc00) := by
    have hvalid : Nat.isValidChar (0x10000 + (u.toNat - 0xd800) * 0x400 + (v.toNat - 0xdc00)) := by
      unfold Nat.isValidChar
      omega
    rw [charOfPair, Char.ofNat, dif_pos hvalid]
    rfl
  have hu : (0xd800 + ((charOfPair u v).toNat - 0x10000) / 0x400).toUInt16 = u := by
    rw [← UInt16.toNat_inj, Nat.toUInt16_eq, UInt16.toNat_ofNat', hchar]
    omega
  have hv : (0xdc00 + ((charOfPair u v).toNat - 0x10000) % 0x400).toUInt16 = v := by
    rw [← UInt16.toNat_inj, Nat.toUInt16_eq, UInt16.toNat_ofNat', hchar]
    omega
  rw [unitsOfChar, if_neg (by omega)]
  dsimp only
  rw [hu, hv]

/-- What decoding and encoding again puts at a position. -/
def repaired (us : List UInt16) (k : Nat) (u : UInt16) : UInt16 :=
  if isLone us k then replacementUnit else u

theorem isLone_cons_add_two (u : UInt16) (us : List UInt16) (k : Nat) :
    isLone (u :: us) (k + 2) = isLone us (k + 1) := rfl

/-- Whether a surrogate stands alone does not depend on what stands before the unit before it. -/
theorem isLone_cons_succ (h : (isHighSurrogate u && us[0]?.any isLowSurrogate) = false) (k : Nat) :
    isLone (u :: us) (k + 1) = isLone us k := by
  cases k with
  | zero =>
    have hsplits : splitsPair (u :: us) 1 = false := h
    simp only [isLone, hsplits]
    rfl
  | succ k => exact isLone_cons_add_two u us k

theorem mapIdx_repaired_cons (h : (isHighSurrogate u && us[0]?.any isLowSurrogate) = false) :
    (u :: us).mapIdx (repaired (u :: us)) =
      repaired (u :: us) 0 u :: us.mapIdx (repaired us) := by
  rw [List.mapIdx_cons]
  congr 2
  funext k v
  rw [repaired, isLone_cons_succ h]
  rfl

/-- Decoding puts the replacement character for the surrogates that stand alone, and nothing else
changes. -/
theorem units_ofUnits (us : List UInt16) : units (ofUnits us) = us.mapIdx (repaired us) := by
  rw [units_ofUnits_eq]
  fun_induction charsOfUnits us with
  | case1 => rfl
  | case2 u =>
    rw [List.flatMap_cons, unitsOfChar_getD]
    simp [repaired, isLone, splitsPair]
  | case3 u v rest hpair ih =>
    rw [Bool.and_eq_true] at hpair
    have hfirst : repaired (u :: v :: rest) 0 u = u := by
      simp [repaired, isLone, splitsPair, hpair, isLowSurrogate_of_high hpair.1]
    have hsecond : repaired (u :: v :: rest) 1 v = v := by
      simp [repaired, isLone, splitsPair, hpair, isHighSurrogate_of_low hpair.2]
    have hrest : (fun k w => repaired (u :: v :: rest) (k + 1 + 1) w) = repaired rest := by
      funext k w
      rw [repaired, isLone_cons_add_two,
        isLone_cons_succ (by rw [isHighSurrogate_of_low hpair.2, Bool.false_and])]
      rfl
    rw [List.flatMap_cons, unitsOfChar_charOfPair hpair.1 hpair.2, ih, List.mapIdx_cons,
      List.mapIdx_cons, hfirst, hsecond, hrest]
    rfl
  | case4 u v rest hpair ih =>
    rw [Bool.not_eq_true] at hpair
    have hrest : (u :: v :: rest).mapIdx (repaired (u :: v :: rest)) =
        repaired (u :: v :: rest) 0 u :: (v :: rest).mapIdx (repaired (v :: rest)) :=
      mapIdx_repaired_cons hpair
    have hfirst : repaired (u :: v :: rest) 0 u =
        if isHighSurrogate u || isLowSurrogate u then replacementUnit else u := by
      cases hu : isHighSurrogate u <;> simp_all [repaired, isLone, splitsPair]
    rw [List.flatMap_cons, unitsOfChar_getD, ih, hrest, hfirst]
    rfl

theorem length_units_ofUnits (us : List UInt16) : (units (ofUnits us)).length = us.length := by
  rw [units_ofUnits, List.length_mapIdx]

theorem getElem?_units_ofUnits (us : List UInt16) (k : Nat) :
    (units (ofUnits us))[k]? = us[k]?.map (repaired us k) := by
  rw [units_ofUnits, List.getElem?_mapIdx]

/-- A surrogate that stands alone is a surrogate. -/
theorem exists_of_isLone (h : isLone us k = true) :
    ∃ u, us[k]? = some u ∧ (isHighSurrogate u || isLowSurrogate u) = true := by
  rw [isLone, Bool.or_eq_true, Bool.and_eq_true, Bool.and_eq_true, Option.any_eq_true,
    Option.any_eq_true] at h
  rcases h with ⟨⟨u, hget, hu⟩, -⟩ | ⟨⟨u, hget, hu⟩, -⟩
  · exact ⟨u, hget, by rw [hu, Bool.true_or]⟩
  · exact ⟨u, hget, by rw [hu, Bool.or_true]⟩

/-- Decoding loses nothing if, and only if, no surrogate stands alone. -/
theorem units_ofUnits_eq_self_iff : units (ofUnits us) = us ↔ ∀ k, isLone us k = false := by
  constructor
  · intro heq k
    by_contra hlone
    rw [Bool.not_eq_false] at hlone
    obtain ⟨u, hget, hsurrogate⟩ := exists_of_isLone hlone
    have hunit := getElem?_units_ofUnits us k
    rw [heq, hget, Option.map_some, repaired, if_pos hlone] at hunit
    rw [Option.some.inj hunit] at hsurrogate
    exact absurd hsurrogate (by decide)
  · intro hnone
    refine List.ext_getElem? fun k => ?_
    have hid : repaired us k = id := by
      funext u
      rw [repaired, hnone k]
      rfl
    rw [getElem?_units_ofUnits, hid, Option.map_id, id]

/-! ## Pieces of a text -/

/-- The units of a text pair up. -/
theorem isLone_units (s : String) (k : Nat) : isLone (units s) k = false :=
  units_ofUnits_eq_self_iff.mp (by rw [ofUnits_units]) k

/-- In a text, the positions inside a pair are those of the low surrogates. -/
theorem splitsPair_units (s : String) (k : Nat) :
    splitsPair (units s) k = (units s)[k]?.any isLowSurrogate := by
  have hlone := isLone_units s k
  cases hlow : (units s)[k]?.any isLowSurrogate with
  | true =>
    rw [isLone, hlow, Bool.or_eq_false_iff, Bool.true_and, Bool.not_eq_false'] at hlone
    exact hlone.2
  | false =>
    cases k with
    | zero => rfl
    | succ k => rw [splitsPair, hlow, Bool.and_false]

/-- In a text, the positions inside a pair are those behind the high surrogates. -/
theorem splitsPair_units_succ (s : String) (k : Nat) :
    splitsPair (units s) (k + 1) = (units s)[k]?.any isHighSurrogate := by
  have hlone := isLone_units s k
  cases hhigh : (units s)[k]?.any isHighSurrogate with
  | true =>
    rw [isLone, hhigh, Bool.or_eq_false_iff, Bool.true_and, Bool.not_eq_false'] at hlone
    exact hlone.1
  | false => rw [splitsPair, hhigh, Bool.false_and]

/-- In a piece of a text, a surrogate stands alone where the piece starts or ends inside its
pair. -/
theorem isLone_slice (s : String) (start : Nat) {count k : Nat} (hk : k < count) :
    isLone (((units s).drop start).take count) k =
      ((k == 0 && splitsPair (units s) start) ||
        (k + 1 == count && splitsPair (units s) (start + count))) := by
  have hget {i : Nat} (hi : i < count) :
      (((units s).drop start).take count)[i]? = (units s)[start + i]? := by
    rw [List.getElem?_take_of_lt hi, List.getElem?_drop]
  have hhigh : ((units s)[start + k]?.any isHighSurrogate &&
      !splitsPair (((units s).drop start).take count) (k + 1)) =
        (k + 1 == count && splitsPair (units s) (start + count)) := by
    rcases Nat.lt_or_eq_of_le (Nat.succ_le_of_lt hk) with hlt | rfl
    · have hsplits : splitsPair (((units s).drop start).take count) (k + 1) =
          splitsPair (units s) (start + k + 1) := by
        rw [splitsPair, splitsPair, hget hk, hget hlt, Nat.add_assoc]
      rw [hsplits, splitsPair_units_succ, Bool.and_not_self, beq_false_of_ne (Nat.ne_of_lt hlt),
        Bool.false_and]
    · have hend : (((units s).drop start).take (k + 1))[k + 1]? = none :=
        List.getElem?_take_eq_none (Nat.le_refl _)
      have hsplits : splitsPair (units s) (start + (k + 1)) =
          (units s)[start + k]?.any isHighSurrogate := splitsPair_units_succ s (start + k)
      rw [splitsPair, hend, hsplits]
      simp
  have hlow : ((units s)[start + k]?.any isLowSurrogate &&
      !splitsPair (((units s).drop start).take count) k) =
        (k == 0 && splitsPair (units s) start) := by
    cases k with
    | zero =>
      rw [splitsPair_units]
      simp [splitsPair]
    | succ k =>
      have hsplits : splitsPair (((units s).drop start).take count) (k + 1) =
          splitsPair (units s) (start + (k + 1)) := by
        rw [splitsPair, hget hk, hget (Nat.lt_of_succ_lt hk), ← Nat.add_assoc, splitsPair,
          Nat.add_assoc]
      rw [hsplits, splitsPair_units, Bool.and_not_self]
      rfl
  rw [isLone, hget hk, hhigh, hlow, Bool.or_comm]

end Concolic.Text
