import Concolic.Proofs.Inlining.Interpretation
import Concolic.Proofs.Term.Literals

/-!
# Names of inlined bodies

Inlining makes names of two kinds: those of the leaves of a body, marked with the number of the
call that gives way to it, and those that the supply gives out. Both can be read back, so names
made at different times, or from different leaves, differ.

## Main statements

* `inlinedName_inj` — a marked name shows what it was made from.
* `Leaf.text_inj` — leaves that name a place have texts of their own.
-/

namespace Concolic

/-- The name of a leaf in the body that takes the place of the call with the given number. -/
def inlinedName (text : String) (number : Nat) : String :=
  text ++ "." ++ ("inlined" ++ toString number)

/-! ## Names differ -/

theorem toString_inj {m n : Nat} (h : toString m = toString n) : m = n := Literal.natRepr_inj h

/-- What stands behind the last occurrence of a character can be told from what is in front. -/
theorem eq_of_append_cons {xs ys ds es : List Char} {c : Char} (hds : c ∉ ds) (hes : c ∉ es)
    (h : xs ++ c :: ds = ys ++ c :: es) : xs = ys ∧ ds = es := by
  rcases List.append_eq_append_iff.mp h with ⟨_ | ⟨a, as⟩, rfl, hrest⟩ | ⟨_ | ⟨a, as⟩, rfl, hrest⟩
  · simpa using hrest
  · obtain ⟨-, rfl⟩ := List.cons.inj hrest
    exact absurd (List.mem_append_right as (List.mem_cons_self ..)) hds
  · simpa using hrest.symm
  · obtain ⟨-, rfl⟩ := List.cons.inj hrest
    exact absurd (List.mem_append_right as (List.mem_cons_self ..)) hes

/-- The digits at the end of a text can be told from what is in front of them. -/
theorem eq_of_append_digits {xs ys ds es : List Char} {c : Char} (hc : c.isDigit = false)
    (hds : ∀ d ∈ ds, d.isDigit = true) (hes : ∀ d ∈ es, d.isDigit = true)
    (h : xs ++ c :: ds = ys ++ c :: es) : xs = ys ∧ ds = es := by
  have hnot {zs : List Char} (hzs : ∀ d ∈ zs, d.isDigit = true) : c ∉ zs := fun hmem =>
    absurd (hzs c hmem) (by simp [hc])
  exact eq_of_append_cons (hnot hds) (hnot hes) h

theorem toList_inlinedName (text : String) (number : Nat) : (inlinedName text number).toList =
    (text.toList ++ ".inline".toList) ++ 'd' :: (toString number).toList := by
  simp [inlinedName]

/-- A marked name shows which text it was made from, and with which number. -/
theorem inlinedName_inj {a b : String} {m n : Nat} (h : inlinedName a m = inlinedName b n) :
    a = b ∧ m = n := by
  have hlist := congrArg String.toList h
  rw [toList_inlinedName, toList_inlinedName] at hlist
  obtain ⟨htext, hnumber⟩ := eq_of_append_digits (by decide)
    (fun _ => Literal.isDigit_of_mem_repr) (fun _ => Literal.isDigit_of_mem_repr) hlist
  exact ⟨String.toList_inj.mp (List.append_cancel_right htext),
    toString_inj (String.toList_inj.mp hnumber)⟩

theorem NameSupply.name_inj {m n : Nat} (h : name m = name n) : m = n :=
  toString_inj ((String.append_right_inj _).mp h)

/-- No marked name is given out by the supply. -/
theorem inlinedName_ne_name (text : String) (number n : Nat) :
    inlinedName text number ≠ NameSupply.name n := by
  intro h
  have hmem : '.' ∈ (NameSupply.name n).toList := by
    rw [← h, toList_inlinedName]
    simp
  rw [NameSupply.name, String.toList_append, List.mem_append] at hmem
  rcases hmem with hmem | hmem
  · exact absurd hmem (by decide)
  · exact absurd (Literal.isDigit_of_mem_repr hmem) (by decide)

/-! ## Names of a program -/

/-- The name is not made by inlining. -/
structure IsOriginal (name : String) : Prop where
  not_inlined (text : String) (number : Nat) : name ≠ inlinedName text number
  not_supplied (number : Nat) : name ≠ NameSupply.name number

/-- The name is not made by inlining, and no argument or result is written like it. -/
structure IsPlain (name : String) : Prop extends IsOriginal name where
  not_argument (type : ValueType) (index : Nat) : name ≠ (Leaf.argument index).text type
  not_result (type : ValueType) (method : Method) : name ≠ (Leaf.result method).text type

/-- A name is plain if its first characters tell it from others. -/
theorem isPlain_of_chars {name : String} (hdot : '.' ∉ name.toList)
    (hsupplied : name.toList.take 4 ≠ "term".toList) (hargument : name.toList.take 4 ≠ "arg$".toList)
    (hresult : name.toList.head? ≠ some '<') : IsPlain name where
  not_inlined text number h := hdot (by rw [h, toList_inlinedName]; simp)
  not_supplied number h := hsupplied (by rw [h, NameSupply.name]; simp)
  not_argument type index h := hargument (by rw [h, Leaf.text]; simp)
  not_result type method h := hresult (by rw [h, Leaf.text]; simp)

theorem isPlain_this : IsPlain "this" :=
  isPlain_of_chars (by decide) (by decide) (by decide) (by decide)

namespace Leaf

variable {W : Vocabulary}

theorem argument_ne_result (index : Nat) (method : Method) (s t : ValueType) :
    (argument index).text s ≠ (result method).text t := by
  intro h
  have hhead := congrArg (fun text : String => text.toList.head?) h
  simp [text] at hhead

/-- Leaves of a program that name a place have texts of their own. -/
theorem text_inj {a b : Leaf} {type : ValueType} (ha : a.Names) (hb : b.Names)
    (hwa : a.IsOver W IsPlain) (hwb : b.IsOver W IsPlain) (h : a.text type = b.text type) :
    a = b := by
  cases ha with
  | argument i =>
    cases hb with
    | argument j => rw [toString_inj ((String.append_right_inj _).mp h)]
    | value name => exact absurd h.symm (hwb.not_argument type i)
    | result m => exact absurd h (argument_ne_result i m type type)
  | value name =>
    cases hb with
    | argument j => exact absurd h (hwa.not_argument type j)
    | value name' => exact congrArg value h
    | result m => exact absurd h (hwa.not_result type m)
  | result m =>
    cases hb with
    | argument j => exact absurd h.symm (argument_ne_result j m type type)
    | value name => exact absurd h.symm (hwb.not_result type m)
    | result n => rw [W.method_eq hwa hwb (.inr ((String.append_right_inj _).mp h))]

end Leaf

/-! ## Names made so far -/

/-- The name is not made from now on, when so many calls have been inlined and so many names given
out. -/
structure IsOlder (next used : Nat) (name : String) : Prop where
  not_inlined (text : String) (number : Nat) : next ≤ number → name ≠ inlinedName text number
  not_supplied (number : Nat) : used ≤ number → name ≠ NameSupply.name number

variable {name : String} {next next' used used' : Nat}

theorem IsOriginal.isOlder (h : IsOriginal name) (next used : Nat) : IsOlder next used name :=
  ⟨fun text number _ => h.not_inlined text number, fun number _ => h.not_supplied number⟩

theorem IsOlder.mono (h : IsOlder next used name) (hnext : next ≤ next') (hused : used ≤ used') :
    IsOlder next' used' name :=
  ⟨fun text number hn => h.not_inlined text number (hnext.trans hn),
    fun number hn => h.not_supplied number (hused.trans hn)⟩

theorem isOlder_inlinedName (text : String) {number : Nat} (h : number < next) (used : Nat) :
    IsOlder next used (inlinedName text number) := by
  refine ⟨fun text' number' hn heq => ?_, fun n _ => inlinedName_ne_name text number n⟩
  have := (inlinedName_inj heq).2
  omega

theorem isOlder_supplied {number : Nat} (h : number < used) (next : Nat) :
    IsOlder next used (NameSupply.name number) := by
  refine ⟨fun text n _ heq => inlinedName_ne_name text n number heq.symm, fun n hn heq => ?_⟩
  have := NameSupply.name_inj heq
  omega

end Concolic
