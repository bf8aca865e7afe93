import Concolic.Proofs.Term.Inverse
import Mathlib.Tactic.IntervalCases

/-!
# Literals that are written alike

Literals are compared by their texts. Whole numbers, truth values, characters and strings can be
told from theirs: the first character tells the sort, a suffix the kind of number, and the rest can
be read back. So those that are written alike are equal.

## Main statements

* `Text.readEscaped_escape` — an escaped character can be read back.
* `Text.quoteString_inj` — strings that are written alike are equal.
* `Literal.eq_of_text_eq` — literals of integral types that are written alike are equal.
-/

namespace Concolic

/-! ## Hexadecimal numbers -/

namespace Text

def hexDigit (c : Char) : Nat := if c.toNat < 58 then c.toNat - 48 else c.toNat - 87

/-- The number that hexadecimal digits stand for. -/
def readHex (digits : List Char) : Nat := digits.foldl (fun n c => 16 * n + hexDigit c) 0

theorem hexDigit_digitChar {n : Nat} (h : n < 16) : hexDigit n.digitChar = n := by
  interval_cases n <;> rfl

theorem readHex_concat (digits : List Char) (c : Char) :
    readHex (digits ++ [c]) = 16 * readHex digits + hexDigit c := by
  simp [readHex, List.foldl_append]

theorem readHex_toDigits (n : Nat) : readHex (Nat.toDigits 16 n) = n := by
  induction n using Nat.strong_induction_on with
  | _ n ih =>
    by_cases hn : n < 16
    · rw [Nat.toDigits_of_lt_base hn]
      simpa [readHex] using hexDigit_digitChar hn
    · rw [Nat.toDigits_of_base_le (by decide) (Nat.le_of_not_lt hn), readHex_concat,
        ih (n / 16) (by omega), hexDigit_digitChar (by omega)]
      omega

/-- Leading zeros do not count. -/
theorem readHex_replicate (k : Nat) (digits : List Char) :
    readHex (List.replicate k '0' ++ digits) = readHex digits := by
  induction k with
  | zero => rfl
  | succ k ih => exact ih

theorem readHex_hex4 (n : Nat) : readHex (hex4 n).toList = n := by
  simp [hex4, readHex_replicate, readHex_toDigits]

/-! ## Characters -/

/-- The character that a quoted text begins with, and what is behind it. -/
def readEscaped : List Char → Char × List Char
  | '\\' :: 'u' :: '\x7b' :: rest =>
    (Char.ofNat (readHex (rest.takeWhile (· ≠ '\x7d'))), (rest.dropWhile (· ≠ '\x7d')).tail)
  | '\\' :: '0' :: rest => ('\x00', rest)
  | '\\' :: 't' :: rest => ('\t', rest)
  | '\\' :: 'r' :: rest => ('\r', rest)
  | '\\' :: 'n' :: rest => ('\n', rest)
  | '\\' :: c :: rest => (c, rest)
  | c :: rest => (c, rest)
  | [] => ('\x00', [])

/-- The digits of a hexadecimal number. -/
theorem mem_hexDigits {n : Nat} {c : Char} (h : c ∈ Nat.toDigits 16 n) :
    c ∈ "0123456789abcdef".toList := by
  have hdigit : ∀ d < 16, d.digitChar ∈ "0123456789abcdef".toList := by decide
  induction n using Nat.strong_induction_on with
  | _ n ih =>
    by_cases hn : n < 16
    · rw [Nat.toDigits_of_lt_base hn, List.mem_singleton] at h
      exact h ▸ hdigit n hn
    · rw [Nat.toDigits_of_base_le (by decide) (Nat.le_of_not_lt hn), List.mem_append,
        List.mem_singleton] at h
      rcases h with h | rfl
      · exact ih (n / 16) (by omega) h
      · exact hdigit (n % 16) (Nat.mod_lt n (by decide))

/-- An escaped character can be read back, whatever is behind it. -/
theorem readEscaped_escape {quote : Char} (hquote : quote = '\'' ∨ quote = '"') (c : Char)
    (rest : List Char) : readEscaped ((escape quote c).toList ++ rest) = (c, rest) := by
  unfold escape
  split_ifs with hzero htab hreturn hnewline hbackslash hsame
  · rw [hzero]; rfl
  · rw [htab]; rfl
  · rw [hreturn]; rfl
  · rw [hnewline]; rfl
  · rw [hbackslash]; rfl
  · subst hsame
    rcases hquote with rfl | rfl <;> rfl
  · have hplain : c.toString.toList ++ rest = c :: rest := by simp
    rw [hplain]
    unfold readEscaped
    split <;> simp_all
  · have hdigits : ("\\u\x7b" ++ hex c.toNat ++ "\x7d").toList ++ rest =
        '\\' :: 'u' :: '\x7b' :: (Nat.toDigits 16 c.toNat ++ '\x7d' :: rest) := by
      simp [hex]
    have hinside : ∀ d ∈ Nat.toDigits 16 c.toNat, decide (d ≠ '\x7d') = true := by
      intro d hd
      refine decide_eq_true ?_
      rintro rfl
      exact absurd (mem_hexDigits hd) (by decide)
    rw [hdigits, readEscaped, List.takeWhile_append_of_pos hinside,
      List.dropWhile_append_of_pos hinside]
    simp [readHex_toDigits, Char.ofNat_toNat]

theorem escape_append_inj {quote c d : Char} (hquote : quote = '\'' ∨ quote = '"')
    {rest rest' : List Char}
    (h : (escape quote c).toList ++ rest = (escape quote d).toList ++ rest') :
    c = d ∧ rest = rest' := by
  have hread := congrArg readEscaped h
  rw [readEscaped_escape hquote, readEscaped_escape hquote] at hread
  exact Prod.mk.inj hread

theorem quoteChar_inj {c d : Char} (h : quoteChar c = quoteChar d) : c = d := by
  have hescape : escape '\'' c = escape '\'' d := by
    simpa [quoteChar, String.append_left_inj, String.append_right_inj] using h
  have hlist : (escape '\'' c).toList ++ [] = (escape '\'' d).toList ++ [] := by rw [hescape]
  exact (escape_append_inj (.inl rfl) hlist).1

theorem escape_ne_empty (quote c : Char) : escape quote c ≠ "" := by
  unfold escape
  split_ifs <;> simp [String.ext_iff]

/-- Characters that are escaped one after the other can be told apart. -/
theorem flatMap_escape_inj {cs ds : List Char}
    (h : (cs.flatMap fun c => (escape '"' c).toList) = ds.flatMap fun d => (escape '"' d).toList) :
    cs = ds := by
  induction cs generalizing ds with
  | nil =>
    cases ds with
    | nil => rfl
    | cons d ds => simp [escape_ne_empty] at h
  | cons c cs ih =>
    cases ds with
    | nil => simp [escape_ne_empty] at h
    | cons d ds =>
      rw [List.flatMap_cons, List.flatMap_cons] at h
      obtain ⟨rfl, hrest⟩ := escape_append_inj (.inr rfl) h
      rw [ih hrest]

/-- Strings that are written alike between quotes are equal. -/
theorem quoteString_inj {s t : String} (h : quoteString s = quoteString t) : s = t := by
  have hlist := congrArg String.toList h
  refine String.toList_inj.mp (flatMap_escape_inj ?_)
  simpa [quoteString, String.toList_join, List.flatMap_map] using hlist

/-- A unit that is a character is the code of the character. -/
theorem toNat_of_charOfUnit? {u : UInt16} {c : Char} (h : charOfUnit? u = some c) :
    c.toNat = u.toNat := by
  unfold charOfUnit? at h
  split at h
  · cases h
  · next hsurrogate =>
    obtain rfl := Option.some.inj h
    have hvalid : u.toNat.isValidChar := by
      simp only [isHighSurrogate, isLowSurrogate, Bool.or_eq_true, Bool.and_eq_true,
        decide_eq_true_eq, UInt16.le_iff_toNat_le] at hsurrogate
      have hlt := u.toNat_lt
      simp only [UInt16.toNat_ofNat] at hsurrogate
      unfold Nat.isValidChar
      omega
    rw [Char.ofNat, dif_pos hvalid]
    rfl

end Text

namespace Literal

/-! ## Numbers -/

/-- The value of an integer literal and the suffix that tells its kind. -/
def numeral? : Literal → Option (Int × List Char)
  | .byte value => some (value.toInt, ['b'])
  | .short value => some (value.toInt, ['s'])
  | .int value => some (value.toInt, [])
  | .long value => some (value.toInt, ['L'])
  | _ => none

/-- The characters that integers are written with. -/
def isNumeralChar (c : Char) : Bool := c.isDigit || c == '-'

theorem isNumeralChar_of_mem {i : Int} {c : Char} (h : c ∈ (toString i).toList) :
    isNumeralChar c = true := by
  rw [Int.toString_eq_repr, Int.repr_eq_if] at h
  rw [isNumeralChar, Bool.or_eq_true]
  split at h
  · exact .inl (isDigit_of_mem_repr h)
  · rw [String.toList_append, List.mem_append] at h
    exact (h.imp_left fun h => by simpa using h).symm.imp isDigit_of_mem_repr fun h => by simp [h]

theorem toString_ne_nil (i : Int) : (toString i).toList ≠ [] := by
  rw [Int.toString_eq_repr, Int.repr_eq_if]
  split
  · rw [Nat.toList_repr]
    exact Nat.toDigits_ne_nil
  · simp

theorem natRepr_inj {m n : Nat} (h : m.repr = n.repr) : m = n := by
  have hdigits := congrArg String.toList h
  rw [Nat.toList_repr, Nat.toList_repr] at hdigits
  rw [← Nat.ofDigitChars_ten_toDigits (n := m), hdigits, Nat.ofDigitChars_ten_toDigits]

theorem natRepr_ne_minus (m n : Nat) : m.repr ≠ "-" ++ n.repr := by
  intro h
  have hmem : '-' ∈ m.repr.toList := by simp [h]
  exact absurd (isDigit_of_mem_repr hmem) (by decide)

theorem toString_inj {i j : Int} (h : toString i = toString j) : i = j := by
  rw [Int.toString_eq_repr, Int.toString_eq_repr, Int.repr_eq_if, Int.repr_eq_if] at h
  split_ifs at h
  · have := natRepr_inj h
    omega
  · exact absurd h (natRepr_ne_minus _ _)
  · exact absurd h.symm (natRepr_ne_minus _ _)
  · have := natRepr_inj ((String.append_right_inj _).mp h)
    omega

variable {k l : Literal} {i j : Int} {suffix suffix' : List Char}

theorem toList_text_of_numeral? (h : l.numeral? = some (i, suffix)) :
    l.text.toList = (toString i).toList ++ suffix := by
  cases l with
  | byte | short | int | long =>
    cases h
    simp [text]
  | null | bool | char | float | double | string | «class» => cases h

theorem not_isNumeralChar_of_suffix (h : l.numeral? = some (i, suffix)) :
    ∀ c ∈ suffix, isNumeralChar c = false := by
  cases l with
  | byte | short | int | long =>
    cases h
    simp [isNumeralChar]
  | null | bool | char | float | double | string | «class» => cases h

/-- The digits and the suffix can be read off the text. -/
theorem takeWhile_text (h : l.numeral? = some (i, suffix)) :
    l.text.toList.takeWhile isNumeralChar = (toString i).toList ∧
      l.text.toList.dropWhile isNumeralChar = suffix := by
  have hsuffix : suffix.takeWhile isNumeralChar = [] ∧ suffix.dropWhile isNumeralChar = suffix := by
    cases suffix with
    | nil => exact ⟨rfl, rfl⟩
    | cons c rest => simp [not_isNumeralChar_of_suffix h c (List.mem_cons_self ..)]
  rw [toList_text_of_numeral? h,
    List.takeWhile_append_of_pos fun c hc => isNumeralChar_of_mem hc,
    List.dropWhile_append_of_pos fun c hc => isNumeralChar_of_mem hc, hsuffix.1, hsuffix.2]
  exact ⟨List.append_nil _, rfl⟩

theorem numeral?_eq_of_text_eq (hk : k.numeral? = some (i, suffix))
    (hl : l.numeral? = some (j, suffix')) (h : k.text = l.text) : i = j ∧ suffix = suffix' := by
  obtain ⟨hi, hsuffix⟩ := takeWhile_text hk
  obtain ⟨hj, hsuffix'⟩ := takeWhile_text hl
  rw [h] at hi hsuffix
  refine ⟨?_, hsuffix.symm.trans hsuffix'⟩
  exact toString_inj (String.toList_inj.mp (hi.symm.trans hj))

theorem eq_of_numeral?_eq (hk : k.numeral? = some (i, suffix))
    (hl : l.numeral? = some (i, suffix)) : k = l := by
  cases k <;> cases hk <;> cases l <;> simp_all [numeral?, Int8.toInt_inj, Int16.toInt_inj,
    Int32.toInt_inj, Int64.toInt_inj]

/-! ## All kinds -/

theorem takeWhile_text_char (unit : UInt16) :
    (text (.char unit)).toList.takeWhile isNumeralChar = [] := by
  simp only [text]
  split
  · simp [Text.quoteChar, isNumeralChar]
  · simp [isNumeralChar]

theorem char_eq_of_text_eq {u v : UInt16} (h : text (.char u) = text (.char v)) : u = v := by
  cases hu : Text.charOfUnit? u with
  | some c =>
    cases hv : Text.charOfUnit? v with
    | some d =>
      simp only [text, hu, hv] at h
      obtain rfl := Text.quoteChar_inj h
      exact UInt16.toNat_inj.mp
        ((Text.toNat_of_charOfUnit? hu).symm.trans (Text.toNat_of_charOfUnit? hv))
    | none =>
      have hhead := congrArg (fun s : String => s.toList.head?) h
      simp [text, hu, hv, Text.quoteChar] at hhead
  | none =>
    cases hv : Text.charOfUnit? v with
    | some d =>
      have hhead := congrArg (fun s : String => s.toList.head?) h
      simp [text, hu, hv, Text.quoteChar] at hhead
    | none =>
      simp only [text, hu, hv, String.append_right_inj] at h
      rw [← UInt16.toNat_inj, ← Text.readHex_hex4 u.toNat, h, Text.readHex_hex4]

/-- A literal of an integral type is a truth value, a character or a numeral. -/
theorem cases_of_isIntegral (h : l.type.isIntegral = true) :
    (∃ b, l = .bool b) ∨ (∃ unit, l = .char unit) ∨ ∃ i suffix, l.numeral? = some (i, suffix) := by
  cases l with
  | bool b => exact .inl ⟨b, rfl⟩
  | char unit => exact .inr (.inl ⟨unit, rfl⟩)
  | byte | short | int | long => exact .inr (.inr ⟨_, _, rfl⟩)
  | null | float | double | string | «class» => cases h

/-- **Literals that are written alike.** Whole numbers, truth values and characters that are
written alike are equal. -/
theorem eq_of_text_eq (hk : k.type.isIntegral = true) (hl : l.type.isIntegral = true)
    (h : k.text = l.text) : k = l := by
  have hmixed {unit : UInt16} {l : Literal} {i : Int} {suffix : List Char}
      (hl : l.numeral? = some (i, suffix)) : text (.char unit) ≠ l.text := fun h =>
    toString_ne_nil i (by rw [← (takeWhile_text hl).1, ← h, takeWhile_text_char])
  rcases cases_of_isIntegral hk with ⟨b, rfl⟩ | ⟨u, rfl⟩ | ⟨i, suffix, hk⟩
  · exact (eq_of_text_eq_boolText h.symm).symm
  · rcases cases_of_isIntegral hl with ⟨b, rfl⟩ | ⟨v, rfl⟩ | ⟨j, suffix', hl⟩
    · exact eq_of_text_eq_boolText h
    · rw [char_eq_of_text_eq h]
    · exact absurd h (hmixed hl)
  · rcases cases_of_isIntegral hl with ⟨b, rfl⟩ | ⟨v, rfl⟩ | ⟨j, suffix', hl⟩
    · exact eq_of_text_eq_boolText h
    · exact absurd h.symm (hmixed hk)
    · obtain ⟨rfl, rfl⟩ := numeral?_eq_of_text_eq hk hl h
      exact eq_of_numeral?_eq hk hl

end Literal
end Concolic
