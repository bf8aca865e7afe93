import Concolic.Proofs.Folding.Strings
import Concolic.Proofs.Text.Searching

/-!
# Searching texts

A position is looked for among the units of a text, a part among its characters. Both are found at
the same places: the position is the least at which the units of the part are those of the text, and
there is one from the start exactly if the octets of the part are found in those of the text.

## Main definitions

* `occurrences` — the positions at which the units of one text are found in another.

## Main statements

* `indexOf_cases` — a search gives the least of them, or `-1` if there is none.
* `contains_iff_octets`, `contains_iff_units` — a part is found in either encoding or in none.
-/

namespace Concolic.Folding

open Text

/-- The positions from an offset on, or from the end if that comes first, at which the units of a
text are those of the part. An offset below zero is none. -/
def occurrences (s part : String) (offset : Int) : Set Nat :=
  {i | min offset.toNat (units s).length ≤ i ∧
    ((units s).drop i).take (units part).length = units part}

section

variable {s part : String} {offset : Int} {i : Nat}

theorem mem_occurrences_iff : i ∈ occurrences s part offset ↔
    min offset.toNat (units s).length ≤ i ∧ units part <+: (units s).drop i := by
  rw [List.prefix_iff_eq_take, eq_comm]
  rfl

/-! ## Positions -/

theorem lt_length_of_occurs (hpart : units part ≠ []) (h : units part <+: (units s).drop i) :
    i < (units s).length := by
  by_contra hlarge
  rw [List.drop_eq_nil_of_le (by omega), List.prefix_nil] at h
  exact hpart h

theorem mem_occurrences_iff_of_ne_nil (hpart : units part ≠ []) :
    i ∈ occurrences s part offset ↔
      ∃ k, i = offset.toNat + k ∧ units part <+: ((units s).drop offset.toNat).drop k := by
  rw [mem_occurrences_iff]
  constructor
  · rintro ⟨hle, hoccurs⟩
    have hlt := lt_length_of_occurs hpart hoccurs
    refine ⟨i - offset.toNat, by omega, ?_⟩
    rwa [List.drop_drop, show offset.toNat + (i - offset.toNat) = i by omega]
  · rintro ⟨k, rfl, hoccurs⟩
    rw [List.drop_drop] at hoccurs
    exact ⟨by omega, hoccurs⟩

/-- A search gives the least position at which the part is found, or `-1` if there is none. -/
theorem indexOf_cases (s part : String) (offset : Int) :
    (∃ i, IsLeast (occurrences s part offset) i ∧ i ≤ (units s).length ∧
      indexOf s part offset = Int32.ofInt i) ∨
    (occurrences s part offset = ∅ ∧ indexOf s part offset = -1) := by
  by_cases hpart : units part = []
  · have hindex : indexOf s part offset =
        Int32.ofInt (min offset.toNat (units s).length : Nat) := by
      rw [indexOf, if_pos (by rw [hpart]; rfl)]
      congr 1
      omega
    refine .inl ⟨_, ⟨?_, fun i hi => (mem_occurrences_iff.mp hi).1⟩, by omega, hindex⟩
    rw [mem_occurrences_iff, hpart]
    exact ⟨Nat.le_refl _, List.nil_prefix⟩
  · rcases findFrom?_cases (units part) ((units s).drop offset.toNat) offset.toNat with
      ⟨k, hfound, hk, hleast⟩ | ⟨hnone, hnowhere⟩
    · have hmem : offset.toNat + k ∈ occurrences s part offset :=
        (mem_occurrences_iff_of_ne_nil hpart).mpr ⟨k, rfl, hk⟩
      refine .inl ⟨offset.toNat + k, ⟨hmem, fun i hi => ?_⟩, ?_, ?_⟩
      · obtain ⟨j, rfl, hj⟩ := (mem_occurrences_iff_of_ne_nil hpart).mp hi
        exact Nat.add_le_add_left (hleast hj) _
      · exact Nat.le_of_lt (lt_length_of_occurs hpart (mem_occurrences_iff.mp hmem).2)
      · simp [indexOf, hpart, hfound]
    · refine .inr ⟨Set.eq_empty_iff_forall_notMem.mpr fun i hi => ?_, ?_⟩
      · obtain ⟨k, -, hk⟩ := (mem_occurrences_iff_of_ne_nil hpart).mp hi
        exact hnowhere k hk
      · simp [indexOf, hpart, hnone]

/-! ## Parts -/

theorem contains_iff (s part : String) : contains s part = true ↔ part.toList <:+: s.toList :=
  isSome_findFrom?_iff 0

theorem contains_iff_units (s part : String) :
    contains s part = true ↔ units part <:+: units s := by
  rw [contains_iff, units, units, isSynchronizing_unitsOfChar.infix_flatMap_iff]

theorem contains_iff_octets (s part : String) :
    contains s part = true ↔ octets part <:+: octets s := by
  rw [contains_iff, octets_eq, octets_eq, isSynchronizing_utf8EncodeChar.infix_flatMap_iff]

theorem contains_iff_nonempty (s part : String) :
    contains s part = true ↔ (occurrences s part 0).Nonempty := by
  rw [contains_iff_units, infix_iff_exists_drop]
  constructor
  · rintro ⟨i, hi⟩
    exact ⟨i, mem_occurrences_iff.mpr ⟨by simp, hi⟩⟩
  · rintro ⟨i, hi⟩
    exact ⟨i, (mem_occurrences_iff.mp hi).2⟩

end

/-! ## Folding searches -/

section

variable {text piece offset origin : Term} {s part : String} {o : Int}

theorem foldTerm_indexOf_cases (hs : Spells text s) (hpart : Spells piece part)
    (hsize : (units s).length < 2 ^ 31) (ho : Counts offset o) :
    (∃ i, IsLeast (occurrences s part o) i ∧ ∃ value : Int32,
      foldTerm (.indexOf text piece offset) = .int value ∧ value.toInt = i) ∨
    (occurrences s part o = ∅ ∧ foldTerm (.indexOf text piece offset) = .int (-1)) := by
  rw [foldTerm_indexOf hs hpart ho]
  rcases indexOf_cases s part o with ⟨i, hi, hle, hindex⟩ | ⟨hempty, hindex⟩
  · refine .inl ⟨i, hi, _, rfl, ?_⟩
    rw [hindex, Int32.toInt_ofInt_of_le (by omega) (by omega)]
  · exact .inr ⟨hempty, by rw [hindex]⟩

/-- A search for a position gives the least at which the units of the part are found, or `-1` if
there is none, and a search for a part, which is one among octets, tells whether there is one from
the start. -/
theorem searches_agree (hs : Spells text s) (hpart : Spells piece part)
    (hsize : (units s).length < 2 ^ 31) :
    (∀ {offset : Term} {o : Int}, Counts offset o →
      (∃ i, IsLeast (occurrences s part o) i ∧ ∃ value : Int32,
        foldTerm (.indexOf text piece offset) = .int value ∧ value.toInt = i) ∨
      (occurrences s part o = ∅ ∧ foldTerm (.indexOf text piece offset) = .int (-1))) ∧
    ∃ found : Bool, foldTerm (.stringContains text piece) = .bool found ∧
      (found = true ↔ octets part <:+: octets s) ∧
      ∀ {origin : Term}, Counts origin 0 →
        (found = true ↔ foldTerm (.indexOf text piece origin) ≠ .int (-1)) := by
  refine ⟨fun ho => foldTerm_indexOf_cases hs hpart hsize ho, contains s part,
    foldTerm_stringContains hs hpart, contains_iff_octets s part, fun horigin => ?_⟩
  rw [contains_iff_nonempty]
  rcases foldTerm_indexOf_cases hs hpart hsize horigin with
    ⟨i, hi, value, hfold, hvalue⟩ | ⟨hempty, hfold⟩
  · refine iff_of_true ⟨i, hi.1⟩ fun hnone => ?_
    have hminus : value = -1 := by
      rw [hfold] at hnone
      cases hnone
      rfl
    rw [hminus] at hvalue
    have hnegative : (-1 : Int32).toInt = -1 := rfl
    omega
  · rw [hempty]
    exact iff_of_false Set.not_nonempty_empty fun hsome => hsome hfold

end

/-- In `a😀b😀` the pair is found again behind its first occurrence, not at the second half of
it. -/
theorem searches_for_pair : Spells (.string "a😀b😀") "a😀b😀" ∧ Spells (.string "😀") "😀" ∧
    (units "a😀b😀").length < 2 ^ 31 ∧
    foldTerm (.indexOf (.string "a😀b😀") (.string "😀") (.int 2)) = .int 4 ∧
    foldTerm (.stringContains (.string "a😀b😀") (.string "😀")) = .bool true := by
  have hs := spells_string "a😀b😀"
  have hpart := spells_string "😀"
  have hsize : (units "a😀b😀").length < 2 ^ 31 := by decide
  obtain ⟨hindex, found, hfound, hoctets, -⟩ := searches_agree hs hpart hsize
  have hmem : 4 ∈ occurrences "a😀b😀" "😀" 2 := ⟨by decide, by decide⟩
  refine ⟨hs, hpart, hsize, ?_, ?_⟩
  · rcases hindex (counts_int 2) with ⟨i, hi, value, hfold, hvalue⟩ | ⟨hempty, -⟩
    · have hle : i ≤ 4 := hi.2 hmem
      have hge : 2 ≤ i := hi.1.1
      have htwo : i ≠ 2 := fun h => absurd (h ▸ hi.1.2) (by decide)
      have hthree : i ≠ 3 := fun h => absurd (h ▸ hi.1.2) (by decide)
      obtain rfl : i = 4 := by omega
      rw [hfold, Int32.toInt_inj.mp (hvalue.trans (show (4 : Int) = (4 : Int32).toInt from rfl))]
    · exact absurd (hempty ▸ hmem) (Set.notMem_empty 4)
  · rw [hfound, hoctets.mpr ⟨octets "a", octets "b😀", by decide⟩]

end Concolic.Folding
