import Concolic.Proofs.Folding.Strings
import Concolic.Proofs.Text.Units

/-!
# Slices of texts

Slicing cuts the units of a text and makes a text of them again, so the length, the units and the
parts of a text are those of its units except where a cut goes through a surrogate pair. Either half
that is left there is the replacement character: a unit at the end of a slice then differs from that
of the text, and two slices that meet there do not make up the text.

## Main definitions

* `slice` — the text of a piece of the units of a text.

## Main statements

* `getElem?_slice` — the units of a slice are those of the text, but for what a cut leaves.
* `slice_append_slice_iff` — two slices that meet make up the text unless they meet inside a pair.
-/

namespace Concolic.Folding

open Text

/-- The text of the units from some position on. -/
def slice (s : String) (start count : Nat) : String :=
  ofUnits (((units s).drop start).take count)

section

variable {s : String} {start count cut k : Nat}

theorem substring?_eq_slice (h : start + count ≤ (units s).length) :
    substring? s start count = some (slice s start count) := by
  rw [substring?, if_neg (by omega)]
  rfl

theorem length_slice (h : start + count ≤ (units s).length) :
    (units (slice s start count)).length = count := by
  rw [slice, length_units_ofUnits, List.length_take, List.length_drop]
  omega

/-- A unit of a slice is that of the text, unless the slice begins or ends there inside a pair. -/
theorem getElem?_slice (hk : k < count) :
    (units (slice s start count))[k]? = (units s)[start + k]?.map fun unit =>
      if (k = 0 ∧ splitsPair (units s) start) ∨
          (k + 1 = count ∧ splitsPair (units s) (start + count))
        then replacementUnit else unit := by
  rw [slice, getElem?_units_ofUnits, List.getElem?_take_of_lt hk, List.getElem?_drop]
  congr 1
  funext unit
  rw [repaired, isLone_slice s start hk]
  simp

/-! ## Slices that meet -/

theorem units_slice (hstart : splitsPair (units s) start = false)
    (hstop : splitsPair (units s) (start + count) = false) :
    units (slice s start count) = ((units s).drop start).take count := by
  rw [slice, units_ofUnits_eq_self_iff]
  intro k
  by_cases hk : k < count
  · rw [isLone_slice s start hk, hstart, hstop]
    simp
  · rw [← Bool.not_eq_true]
    intro hlone
    obtain ⟨unit, hunit, -⟩ := exists_of_isLone hlone
    rw [List.getElem?_take_eq_none (by omega)] at hunit
    cases hunit

/-- A slice whose units are those of the text does not end inside a pair. -/
theorem splitsPair_of_units_slice (hcount : 0 < count)
    (h : units (slice s start count) = ((units s).drop start).take count) :
    splitsPair (units s) (start + count) = false := by
  have hlone := units_ofUnits_eq_self_iff.mp h (count - 1)
  rw [isLone_slice s start (by omega), Bool.or_eq_false_iff, Nat.sub_add_cancel hcount,
    beq_self_eq_true, Bool.true_and] at hlone
  exact hlone.2

theorem splitsPair_length (s : String) : splitsPair (units s) (units s).length = false := by
  rw [splitsPair_units, List.getElem?_eq_none (Nat.le_refl _)]
  rfl

theorem slice_append_slice_iff (hcut : cut ≤ (units s).length) :
    slice s 0 cut ++ slice s cut ((units s).length - cut) = s ↔
      splitsPair (units s) cut = false := by
  constructor
  · intro h
    have hunits : units (slice s 0 cut) ++ units (slice s cut ((units s).length - cut)) =
        (units s).take cut ++ (units s).drop cut := by
      rw [← units_append, h, List.take_append_drop]
    have hlength : (units (slice s 0 cut)).length = ((units s).take cut).length := by
      rw [length_slice (by omega), List.length_take]
      omega
    cases cut with
    | zero => rfl
    | succ cut =>
      have hfront := (List.append_inj hunits hlength).1
      have hstop : splitsPair (units s) (0 + (cut + 1)) = false :=
        splitsPair_of_units_slice (Nat.succ_pos cut) hfront
      rwa [Nat.zero_add] at hstop
  · intro h
    have hfront : units (slice s 0 cut) = (units s).take cut :=
      units_slice rfl (by rwa [Nat.zero_add])
    have hback : units (slice s cut ((units s).length - cut)) = (units s).drop cut := by
      rw [units_slice h (by rw [Nat.add_sub_cancel' hcut]; exact splitsPair_length s),
        List.take_of_length_le (by rw [List.length_drop])]
    refine units_injective ?_
    rw [units_append, hfront, hback, List.take_append_drop]

end

/-! ## Folding slices -/

section

variable {text other first count index shifted origin cut rest : Term} {s t : String} {o l i : Nat}

theorem toInt_length (h : (units s).length < 2 ^ 31) : (length s).toInt = (units s).length := by
  rw [length, Int32.toInt_ofInt_of_le (by omega) (by omega)]

theorem length_append (s t : String) : length (s ++ t) = length s + length t := by
  rw [length, length, length, units_append, List.length_append, Int.natCast_add, Int32.ofInt_add]

theorem charAt?_natCast (s : String) (k : Nat) : charAt? s k = (units s)[k]? := by
  rw [charAt?, if_neg (by omega), Int.toNat_natCast]

theorem spells_substring (hs : Spells text s) (ho : Counts first o) (hl : Counts count l)
    (h : o + l ≤ (units s).length) : Spells (.substring text first count) (slice s o l) :=
  spells_of_foldTerm_eq (foldTerm_substring hs ho hl (substring?_eq_slice h))

theorem stringLength_substring (hs : Spells text s) (hsize : (units s).length < 2 ^ 31)
    (ho : Counts first o) (hl : Counts count l) (h : o + l ≤ (units s).length) :
    ∃ value : Int32, foldTerm (.stringLength (.substring text first count)) = .int value ∧
      value.toInt = l := by
  have hlength := length_slice h
  refine ⟨_, foldTerm_stringLength (spells_substring hs ho hl h), ?_⟩
  rw [toInt_length (by omega), hlength]

theorem charAt_substring (hs : Spells text s) (ho : Counts first o) (hl : Counts count l)
    (h : o + l ≤ (units s).length) (hi : Counts index i) (hshifted : Counts shifted ↑(o + i))
    (hlt : i < l) :
    ∃ unit, foldTerm (.charAt text shifted) = .char unit ∧
      foldTerm (.charAt (.substring text first count) index) =
        .char (if (i = 0 ∧ splitsPair (units s) o) ∨ (i + 1 = l ∧ splitsPair (units s) (o + l))
          then replacementUnit else unit) := by
  have hunit : (units s)[o + i]? = some (units s)[o + i] := List.getElem?_eq_getElem (by omega)
  refine ⟨(units s)[o + i], foldTerm_charAt hs hshifted (by rw [charAt?_natCast, hunit]), ?_⟩
  refine foldTerm_charAt (spells_substring hs ho hl h) hi ?_
  rw [charAt?_natCast, getElem?_slice hlt, hunit, Option.map_some]

theorem concat_substrings_iff (hs : Spells text s) (horigin : Counts origin 0)
    (hcut : Counts cut o) (hrest : Counts rest ↑((units s).length - o))
    (h : o ≤ (units s).length) :
    foldTerm (.concat (.substring text origin cut) (.substring text cut rest)) = .string s ↔
      splitsPair (units s) o = false := by
  have hfront : Spells (.substring text origin cut) (slice s 0 o) :=
    spells_substring hs horigin hcut (by omega)
  have hback : Spells (.substring text cut rest) (slice s o ((units s).length - o)) :=
    spells_substring hs hcut hrest (by omega)
  rw [foldTerm_concat hfront hback, ← slice_append_slice_iff h]
  constructor
  · intro heq
    exact Option.some.inj (congrArg string? heq)
  · intro heq
    rw [heq]

theorem stringLength_concat (hs : Spells text s) (ht : Spells other t) :
    foldTerm (.stringLength (.concat text other)) =
      foldTerm (.arithmetic .add .int (.stringLength text) (.stringLength other)) := by
  rw [foldTerm_stringLength (spells_of_foldTerm_eq (foldTerm_concat hs ht)), length_append,
    foldTerm_add (foldTerm_stringLength hs) (foldTerm_stringLength ht)]

/-- The length of a slice is the one asked for, and its units are those of the text, but for half a
pair at either end. Two slices that meet make up the text unless they meet inside a pair, and the
lengths of texts that are put together add up. -/
theorem slices_cohere (hs : Spells text s) (hsize : (units s).length < 2 ^ 31) :
    (∀ {first count : Term} {o l : Nat}, Counts first o → Counts count l →
      o + l ≤ (units s).length →
      (∃ value : Int32, foldTerm (.stringLength (.substring text first count)) = .int value ∧
        value.toInt = l) ∧
      ∀ {index shifted : Term} {i : Nat}, Counts index i → Counts shifted ↑(o + i) → i < l →
        ∃ unit, foldTerm (.charAt text shifted) = .char unit ∧
          foldTerm (.charAt (.substring text first count) index) =
            .char (if (i = 0 ∧ splitsPair (units s) o) ∨
                (i + 1 = l ∧ splitsPair (units s) (o + l))
              then replacementUnit else unit)) ∧
    (∀ {origin cut rest : Term} {o : Nat}, Counts origin 0 → Counts cut o →
      Counts rest ↑((units s).length - o) → o ≤ (units s).length →
      (foldTerm (.concat (.substring text origin cut) (.substring text cut rest)) = .string s ↔
        splitsPair (units s) o = false)) ∧
    ∀ {a b : Term} {x y : String}, Spells a x → Spells b y →
      foldTerm (.stringLength (.concat a b)) =
        foldTerm (.arithmetic .add .int (.stringLength a) (.stringLength b)) := by
  refine ⟨fun ho hl h => ⟨?_, fun hi hshifted hlt => ?_⟩, fun horigin hcut hrest h => ?_,
    fun ha hb => ?_⟩
  · exact stringLength_substring hs hsize ho hl h
  · exact charAt_substring hs ho hl h hi hshifted hlt
  · exact concat_substrings_iff hs horigin hcut hrest h
  · exact stringLength_concat ha hb

end

/-- In `a😀b` the only position inside a pair is the third: a slice that begins there has a unit of
its own, and the text is not made up again from its two parts. -/
theorem slices_of_pair : Spells (.string "a😀b") "a😀b" ∧ (units "a😀b").length < 2 ^ 31 ∧
    foldTerm (.concat (.substring (.string "a😀b") (.int 0) (.int 1))
      (.substring (.string "a😀b") (.int 1) (.int 3))) = .string "a😀b" ∧
    foldTerm (.concat (.substring (.string "a😀b") (.int 0) (.int 2))
      (.substring (.string "a😀b") (.int 2) (.int 2))) ≠ .string "a😀b" ∧
    ∃ unit, foldTerm (.charAt (.string "a😀b") (.int 2)) = .char unit ∧
      foldTerm (.charAt (.substring (.string "a😀b") (.int 2) (.int 2)) (.int 0)) =
        .char replacementUnit := by
  have hs := spells_string "a😀b"
  have hsize : (units "a😀b").length < 2 ^ 31 := by decide
  obtain ⟨hslice, hcut, -⟩ := slices_cohere hs hsize
  refine ⟨hs, hsize, ?_, ?_, ?_⟩
  · exact (hcut (o := 1) (counts_int 0) (counts_int 1) (counts_int 3) (by decide)).mpr (by decide)
  · exact (hcut (o := 2) (counts_int 0) (counts_int 2) (counts_int 2) (by decide)).not.mpr
      (by decide)
  · exact (hslice (o := 2) (l := 2) (counts_int 2) (counts_int 2) (by decide)).2 (i := 0)
      (counts_int 0) (counts_int 2) (by decide)

/-- Cut between its two units, a pair is lost: its halves put together are two replacement
characters. -/
theorem concat_halves : (units "😀").length = 2 ∧
    foldTerm (.concat (.substring (.string "😀") (.int 0) (.int 1))
      (.substring (.string "😀") (.int 1) (.int 1))) = .string "\ufffd\ufffd" ∧
    foldTerm (.concat (.substring (.string "😀") (.int 0) (.int 1))
      (.substring (.string "😀") (.int 1) (.int 1))) ≠ .string "😀" := by
  have hs := spells_string "😀"
  have hfront := spells_substring (o := 0) (l := 1) hs (counts_int 0) (counts_int 1) (by decide)
  have hback := spells_substring (o := 1) (l := 1) hs (counts_int 1) (counts_int 1) (by decide)
  have hhalves : slice "😀" 0 1 ++ slice "😀" 1 1 = "\ufffd\ufffd" := by decide
  rw [foldTerm_concat hfront hback, hhalves]
  refine ⟨by decide, rfl, fun heq => ?_⟩
  have htext : "\ufffd\ufffd" = "😀" := Option.some.inj (congrArg string? heq)
  exact absurd htext (by decide)

end Concolic.Folding
