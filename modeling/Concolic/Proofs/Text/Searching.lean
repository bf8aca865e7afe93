import Concolic.Proofs.Text.Units
import Mathlib.Order.Bounds.Basic

/-!
# Searching encoded text

A part of a text can be looked for among its characters, its 16-bit units or its octets. The three
searches find the same, because in both encodings the first unit of a character is told from those
that follow it and no character is the beginning of another: units that spell a text start and end
between the characters of the text in which they occur.

## Main statements

* `Text.findFrom?_cases` — a search gives the least position, and fails only if there is none.
* `Text.IsSynchronizing.infix_flatMap_iff` — one text is part of another if its units are.
* `Text.isSynchronizing_unitsOfChar`, `Text.isSynchronizing_utf8EncodeChar` — both encodings are
  of this kind.
-/

namespace Concolic.Text

/-! ## Positions -/

section

variable {α : Type} {part text : List α}

/-- One list is part of another if it is found behind some of its elements. -/
theorem infix_iff_exists_drop : part <:+: text ↔ ∃ k, part <+: text.drop k := by
  rw [List.infix_iff_prefix_suffix]
  constructor
  · rintro ⟨rest, hpart, hrest⟩
    rw [List.suffix_iff_eq_drop] at hrest
    exact ⟨_, hrest ▸ hpart⟩
  · rintro ⟨k, hpart⟩
    exact ⟨_, hpart, List.drop_suffix k text⟩

/-- A search gives the least position at which the list is found, and fails only if there is
none. -/
theorem findFrom?_cases [BEq α] [LawfulBEq α] (part text : List α) (start : Nat) :
    (∃ k, findFrom? part start text = some (start + k) ∧
      IsLeast {k | part <+: text.drop k} k) ∨
    (findFrom? part start text = none ∧ ∀ k, ¬part <+: text.drop k) := by
  induction text generalizing start with
  | nil =>
    cases part with
    | nil => exact .inl ⟨0, rfl, ⟨List.nil_prefix, fun _ _ => Nat.zero_le _⟩⟩
    | cons x part => exact .inr ⟨rfl, fun k => by simp⟩
  | cons x text ih =>
    rw [findFrom?]
    by_cases hhere : part <+: x :: text
    · rw [if_pos (List.isPrefixOf_iff_prefix.mpr hhere)]
      exact .inl ⟨0, rfl, ⟨hhere, fun _ _ => Nat.zero_le _⟩⟩
    · rw [if_neg (mt List.isPrefixOf_iff_prefix.mp hhere)]
      rcases ih (start + 1) with ⟨k, hfound, hk, hleast⟩ | ⟨hnone, hnowhere⟩
      · refine .inl ⟨k + 1, by rw [hfound, Nat.add_assoc, Nat.add_comm 1 k], hk, fun j hj => ?_⟩
        cases j with
        | zero => exact absurd hj hhere
        | succ j => exact Nat.succ_le_succ (hleast hj)
      · refine .inr ⟨hnone, fun k hk => ?_⟩
        cases k with
        | zero => exact hhere hk
        | succ k => exact hnowhere k hk

theorem isSome_findFrom?_iff [BEq α] [LawfulBEq α] (start : Nat) :
    (findFrom? part start text).isSome = true ↔ part <:+: text := by
  rw [infix_iff_exists_drop]
  rcases findFrom?_cases part text start with ⟨k, hfound, hk, -⟩ | ⟨hnone, hnowhere⟩
  · rw [hfound]
    exact iff_of_true rfl ⟨k, hk⟩
  · rw [hnone]
    exact iff_of_false Bool.false_ne_true fun ⟨k, hk⟩ => hnowhere k hk

end

/-! ## Encodings -/

/-- An encoding of characters in which the first unit of a character is told from those that follow
it, and no character is the beginning of another. -/
structure IsSynchronizing {α : Type} (encode : Char → List α) (isTrail : α → Bool) : Prop where
  exists_lead : ∀ c, ∃ u rest, encode c = u :: rest ∧ isTrail u = false ∧
    ∀ v ∈ rest, isTrail v = true
  eq_of_begins : ∀ {c d}, encode c <+: encode d → c = d

namespace IsSynchronizing

variable {α : Type} {encode : Char → List α} {isTrail : α → Bool} {part text : List Char}

theorem prefix_flatMap_iff (h : IsSynchronizing encode isTrail) :
    part.flatMap encode <+: text.flatMap encode ↔ part <+: text := by
  induction part generalizing text with
  | nil => simp
  | cons d part ih =>
    cases text with
    | nil =>
      obtain ⟨u, rest, hd, -, -⟩ := h.exists_lead d
      simp [hd]
    | cons c text =>
      rw [List.flatMap_cons, List.flatMap_cons, List.cons_prefix_cons]
      constructor
      · intro hstarts
        have hsame : d = c := by
          have hd := (List.prefix_append (encode d) (part.flatMap encode)).trans hstarts
          rcases List.prefix_or_prefix_of_prefix hd (List.prefix_append (encode c) _) with hd | hc
          · exact h.eq_of_begins hd
          · exact (h.eq_of_begins hc).symm
        subst hsame
        exact ⟨rfl, ih.mp ((List.prefix_append_right_inj _).mp hstarts)⟩
      · rintro ⟨rfl, hpart⟩
        exact (List.prefix_append_right_inj _).mpr (ih.mpr hpart)

/-- Units that spell a text do not start inside a character. -/
theorem infix_of_infix_flatMap (h : IsSynchronizing encode isTrail) (hpart : part ≠ [])
    (hoccurs : part.flatMap encode <:+: text.flatMap encode) : part <:+: text := by
  obtain ⟨d, part', rfl⟩ := List.exists_cons_of_ne_nil hpart
  obtain ⟨lead, trail, hd, hlead, -⟩ := h.exists_lead d
  have hstart : (d :: part').flatMap encode = lead :: (trail ++ part'.flatMap encode) := by
    rw [List.flatMap_cons, hd, List.cons_append]
  induction text with
  | nil =>
    rw [List.flatMap_nil, List.infix_nil, hstart] at hoccurs
    cases hoccurs
  | cons c text ih =>
    have htext : (c :: text).flatMap encode = encode c ++ text.flatMap encode := List.flatMap_cons
    obtain ⟨before, behind, heq⟩ := hoccurs
    rw [htext, List.append_assoc, List.append_eq_append_iff] at heq
    rcases heq with ⟨mid, hc, hrest⟩ | ⟨mid, -, hrest⟩
    · cases mid with
      | nil => exact List.infix_cons (ih ⟨[], behind, by simpa using hrest⟩)
      | cons m mid =>
        cases before with
        | nil =>
          have hstarts : (d :: part').flatMap encode <+: (c :: text).flatMap encode :=
            ⟨behind, by rw [hrest, htext, hc, List.nil_append]⟩
          exact (h.prefix_flatMap_iff.mp hstarts).isInfix
        | cons u before =>
          -- The occurrence would start at a unit that only follows others.
          obtain ⟨u', rest, hc', -, htrail⟩ := h.exists_lead c
          rw [hc'] at hc
          have hm : isTrail m = true := htrail m (by simp [(List.cons.inj hc).2])
          rw [hstart] at hrest
          rw [← (List.cons.inj hrest).1, hlead] at hm
          cases hm
    · exact List.infix_cons (ih ⟨mid, behind, by rw [hrest, List.append_assoc]⟩)

/-- One text is part of another if, and only if, its units are. -/
theorem infix_flatMap_iff (h : IsSynchronizing encode isTrail) :
    part.flatMap encode <:+: text.flatMap encode ↔ part <:+: text := by
  constructor
  · intro hoccurs
    by_cases hpart : part = []
    · rw [hpart]
      exact List.nil_infix
    · exact h.infix_of_infix_flatMap hpart hoccurs
  · rintro ⟨before, behind, rfl⟩
    rw [List.flatMap_append, List.flatMap_append]
    exact ⟨_, _, rfl⟩

end IsSynchronizing

theorem isSynchronizing_unitsOfChar : IsSynchronizing unitsOfChar isLowSurrogate where
  exists_lead c := by
    rcases unitsOfChar_cases c with ⟨u, hunits, hu⟩ | ⟨high, low, hunits, hhigh, hlow, -⟩
    · have hlow : isLowSurrogate u = false := by
        unfold charOfUnit? at hu
        split at hu
        · cases hu
        · next hsurrogate =>
          rw [Bool.not_eq_true, Bool.or_eq_false_iff] at hsurrogate
          exact hsurrogate.2
      exact ⟨u, [], hunits, hlow, nofun⟩
    · exact ⟨high, [low], hunits, isLowSurrogate_of_high hhigh, by simpa using hlow⟩
  eq_of_begins := by
    intro c d hstarts
    obtain ⟨rest, hrest⟩ := hstarts
    have hchars := congrArg charsOfUnits hrest
    rw [charsOfUnits_unitsOfChar, ← List.append_nil (unitsOfChar d),
      charsOfUnits_unitsOfChar] at hchars
    exact (List.cons.inj hchars).1

/-- The octets of a text. -/
def octets (s : String) : List UInt8 := s.toUTF8.data.toList

theorem octets_eq (s : String) : octets s = s.toList.flatMap String.utf8EncodeChar := by
  conv_lhs => rw [← String.ofList_toList (s := s)]
  rw [octets, String.toUTF8, String.toByteArray_ofList, List.utf8Encode, List.data_toByteArray]

theorem isSynchronizing_utf8EncodeChar :
    IsSynchronizing String.utf8EncodeChar fun octet => !decide octet.IsUTF8FirstByte where
  exists_lead c := by
    have hfirst (i : Nat) (hi : i < (String.utf8EncodeChar c).length) :
        (String.utf8EncodeChar c)[i].IsUTF8FirstByte ↔ i = 0 := by
      have hsize : i < [c].utf8Encode.size := by simpa [List.utf8Encode] using hi
      rw [← @List.isUTF8FirstByte_getElem_utf8Encode_singleton c i hsize]
      simp [List.utf8Encode]
    obtain ⟨u, rest, hc⟩ := List.exists_cons_of_ne_nil (show String.utf8EncodeChar c ≠ [] by
      rw [← List.length_pos_iff, String.length_utf8EncodeChar]
      exact Char.utf8Size_pos c)
    simp only [hc] at hfirst
    refine ⟨u, rest, hc, ?_, fun v hv => ?_⟩
    · have hu : u.IsUTF8FirstByte := (hfirst 0 (by simp)).mpr rfl
      simp [hu]
    · obtain ⟨i, hi, rfl⟩ := List.getElem_of_mem hv
      have hv : ¬rest[i].IsUTF8FirstByte := (hfirst (i + 1) (by simpa using hi)).not.mpr (by simp)
      simp [hv]
  eq_of_begins := by
    intro c d hstarts
    obtain ⟨rest, hrest⟩ := hstarts
    have hc := @ByteArray.utf8DecodeChar?_utf8EncodeChar_append rest.toByteArray c
    have hd := @ByteArray.utf8DecodeChar?_utf8EncodeChar_append [].toByteArray d
    rw [← List.toByteArray_append] at hc hd
    rw [List.append_nil, ← hrest, hc] at hd
    exact Option.some.inj hd

end Concolic.Text
