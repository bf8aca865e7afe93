import Concolic.Proofs.BinaryFloat.Written
import Concolic.Proofs.Term.Literals

/-!
# Constants that are written alike

The written form of a literal tells its sort: class literals by their last two characters,
characters by their first one, and the others by their last one. Within a sort the payload can be
told too, with two exceptions. All patterns of a format that stand for no number are written alike,
and so are class literals for types that are written alike.

## Main statements

* `Literal.sortOf_text` — the sort of a literal is told by its text.
* `Literal.text_eq_iff` — which literals are written alike.
-/

namespace Concolic
namespace Literal

/-! ## Sorts -/

def sort : Literal → Nat
  | .class _ => 0
  | .char _ => 1
  | .string _ => 2
  | .float _ => 3
  | .double _ => 4
  | .byte _ => 5
  | .short _ => 6
  | .long _ => 7
  | .null => 8
  | .bool _ => 9
  | .int _ => 10

/-- The sort of the literal with the given text. -/
def sortOf (cs : List Char) : Nat :=
  if cs.reverse.take 2 = ['s', 's'] then 0
  else if cs.head? = some '\'' ∨ cs.head? = some '\\' then 1
  else
    match cs.reverse.head? with
    | some '"' => 2
    | some 'f' => 3
    | some 'd' => 4
    | some 'b' => 5
    | some 's' => 6
    | some 'L' => 7
    | some 'l' => 8
    | some 'e' => 9
    | _ => 10

/-- A text that begins otherwise than characters do, and ends with a mark. -/
theorem sortOf_append_mark {cs : List Char} (mark : Char)
    (hhead : ∃ c rest, cs = c :: rest ∧ c ≠ '\'' ∧ c ≠ '\\')
    (hmark : mark ≠ 's' ∨ cs.getLast? ≠ some 's') :
    sortOf (cs ++ [mark]) = sortOf ['0', mark] := by
  obtain ⟨c, rest, rfl, hquote, hslash⟩ := hhead
  have hends : ((c :: rest) ++ [mark]).reverse.take 2 ≠ ['s', 's'] := by
    rw [List.reverse_append, ← List.head?_reverse] at *
    cases hreverse : (c :: rest).reverse with
    | nil => simp at hreverse
    | cons last others =>
      simp only [hreverse, List.head?_cons, ne_eq, Option.some.injEq] at hmark
      intro hends
      simp only [List.reverse_singleton, List.singleton_append, List.take_succ_cons, List.take_zero,
        List.cons.injEq, and_true] at hends
      rcases hmark with hmark | hmark
      · exact hmark hends.1
      · exact hmark hends.2
  have hsingle : (['0', mark] : List Char).reverse.take 2 ≠ ['s', 's'] := by simp
  unfold sortOf
  rw [if_neg hends, if_neg hsingle, if_neg (by simp [hquote, hslash]), if_neg (by simp)]
  simp

theorem sortOf_of_numeral {cs : List Char} (hne : cs ≠ [])
    (h : ∀ c ∈ cs, isNumeralChar c = true) : sortOf cs = 10 := by
  obtain ⟨last, others, hreverse⟩ := List.exists_cons_of_ne_nil (List.reverse_ne_nil_iff.mpr hne)
  have hlast : isNumeralChar last = true :=
    h last (List.mem_reverse.mp (hreverse ▸ List.mem_cons_self ..))
  have hhead : ¬(cs.head? = some '\'' ∨ cs.head? = some '\\') := by
    rintro (hhead | hhead) <;> exact absurd (h _ (List.mem_of_head? hhead)) (by decide)
  have hends : ¬(last :: others).take 2 = ['s', 's'] := by
    intro hends
    obtain rfl : last = 's' := by simpa using congrArg List.head? hends
    exact absurd hlast (by decide)
  unfold sortOf
  rw [hreverse, if_neg hends, if_neg hhead, List.head?_cons]
  split
  all_goals first | rfl | next heq => cases heq; exact absurd hlast (by decide)

theorem exists_head_toString (i : Int) :
    ∃ c rest, (toString i).toList = c :: rest ∧ c ≠ '\'' ∧ c ≠ '\\' := by
  obtain ⟨c, rest, hcons⟩ := List.exists_cons_of_ne_nil (toString_ne_nil i)
  have hc : isNumeralChar c = true := isNumeralChar_of_mem (hcons ▸ List.mem_cons_self ..)
  refine ⟨c, rest, hcons, ?_, ?_⟩ <;> rintro rfl <;> exact absurd hc (by decide)

theorem exists_head_float {f : FloatFormat} (x : BinaryFloat f) :
    ∃ c rest, (x.write .plain).toList = c :: rest ∧ c ≠ '\'' ∧ c ≠ '\\' := by
  obtain ⟨c, rest, hcons, hc⟩ := x.exists_head_write
  refine ⟨c, rest, hcons, ?_, ?_⟩ <;> rintro rfl <;> exact absurd hc (by decide)

theorem sortOf_char (unit : UInt16) : sortOf (text (.char unit)).toList = 1 := by
  simp only [text]
  split
  · next c hc =>
    have hends : (Text.quoteChar c).toList.reverse.take 2 ≠ ['s', 's'] := by
      simp [Text.quoteChar]
    unfold sortOf
    rw [if_neg hends, if_pos (.inl (by simp [Text.quoteChar]))]
  · next hnone =>
    have hends : ("\\u" ++ Text.hex4 unit.toNat).toList.reverse.take 2 ≠ ['s', 's'] := by
      intro hends
      have hmem : 's' ∈ ("\\u" ++ Text.hex4 unit.toNat).toList :=
        List.mem_reverse.mp (List.mem_of_mem_take (hends ▸ List.mem_cons_self ..))
      have hdigit : 's' ∈ Nat.toDigits 16 unit.toNat := by simpa [Text.hex4] using hmem
      exact absurd (Text.mem_hexDigits hdigit) (by decide)
    unfold sortOf
    rw [if_neg hends, if_pos (.inr (by simp))]

/-- The sort of a literal is told by its text. -/
theorem sortOf_text (l : Literal) : sortOf l.text.toList = l.sort := by
  cases l with
  | null => decide
  | bool b => cases b <;> decide
  | byte value =>
    rw [text, String.toList_append]
    exact sortOf_append_mark 'b' (exists_head_toString _) (.inl (by decide))
  | short value =>
    rw [text, String.toList_append]
    refine sortOf_append_mark 's' (exists_head_toString _) (.inr fun hlast => ?_)
    exact absurd (isNumeralChar_of_mem (List.mem_of_getLast? hlast)) (by decide)
  | long value =>
    rw [text, String.toList_append]
    exact sortOf_append_mark 'L' (exists_head_toString _) (.inl (by decide))
  | int value => exact sortOf_of_numeral (toString_ne_nil _) fun c hc => isNumeralChar_of_mem hc
  | char unit => exact sortOf_char unit
  | float value =>
    rw [text, String.toList_append]
    exact sortOf_append_mark 'f' (exists_head_float _) (.inl (by decide))
  | double value =>
    rw [text, String.toList_append]
    exact sortOf_append_mark 'd' (exists_head_float _) (.inl (by decide))
  | string value =>
    rw [text, Text.quoteString, String.toList_append, String.toList_append]
    exact sortOf_append_mark '"' ⟨'"', _, rfl, by decide, by decide⟩ (.inl (by decide))
  | «class» named =>
    rw [text, String.toList_append, sortOf, if_pos (by simp)]
    rfl

/-! ## Payloads -/

/-- Literals that are written alike. -/
inductive Alike : Literal → Literal → Prop
  | refl (l : Literal) : Alike l l
  | float {x y : Single} : x.decode = .nan → y.decode = .nan → Alike (.float x) (.float y)
  | double {x y : Double} : x.decode = .nan → y.decode = .nan → Alike (.double x) (.double y)
  | class {s t : ValueType} : s.text = t.text → Alike (.class s) (.class t)

/-- **Literals that are written alike** are equal, or stand for no number of one format, or for
classes of types that are written alike. -/
theorem text_eq_iff {k l : Literal} : k.text = l.text ↔ k.Alike l := by
  constructor
  · intro h
    have hsort : k.sort = l.sort := by rw [← sortOf_text, ← sortOf_text, h]
    match k, l, hsort with
    | .null, .null, _ => exact .refl _
    | .bool _, .bool _, _ | .byte _, .byte _, _ | .char _, .char _, _ | .short _, .short _, _
    | .int _, .int _, _ | .long _, .long _, _ =>
      rw [eq_of_text_eq rfl rfl h]
      exact .refl _
    | .float x, .float y, _ =>
      have hwrite : x.write .plain = y.write .plain := by
        simpa [text, String.append_left_inj] using h
      rcases BinaryFloat.eq_or_nan_of_write_eq FloatFormat.isSmall_single hwrite with
        rfl | ⟨hx, hy⟩
      · exact .refl _
      · exact .float hx hy
    | .double x, .double y, _ =>
      have hwrite : x.write .plain = y.write .plain := by
        simpa [text, String.append_left_inj] using h
      rcases BinaryFloat.eq_or_nan_of_write_eq FloatFormat.isSmall_double hwrite with
        rfl | ⟨hx, hy⟩
      · exact .refl _
      · exact .double hx hy
    | .string s, .string t, _ =>
      rw [Text.quoteString_inj h]
      exact .refl _
    | .class s, .class t, _ =>
      refine .class ?_
      simpa [text, String.append_left_inj] using h
  · intro h
    cases h with
    | refl => rfl
    | float hx hy | double hx hy => rw [text, text, BinaryFloat.write, BinaryFloat.write, hx, hy]
    | «class» h => rw [text, text, h]

end Literal
end Concolic
