import Concolic.Proofs.Folding.Results

/-!
# Folding string operations

A string operation whose operands fold to literals folds to its value, if it has one, whatever its
operands are built from. What an operand folds to matters only as a text or as a whole number.

## Main definitions

* `Spells`, `Counts` — a term folds to a literal text, to a literal whole number.
-/

namespace Concolic.Folding

variable {a b c : Term} {type : ValueType} {l m n : Literal} {s t : String} {i j : Int}

/-- The term folds to this text. -/
def Spells (a : Term) (s : String) : Prop := string? (foldTerm a) = some s

/-- The term folds to this whole number, of whatever type; truth values count as one and zero. -/
def Counts (a : Term) (i : Int) : Prop := integer? (foldTerm a) = some i

/-! ## Operands -/

theorem foldTerm_literal (l : Literal) : foldTerm (.literal l) = .literal l := foldTerm_leaf _ _

theorem Spells.literal? (h : Spells a s) : (foldTerm a).literal? = some (.string s) := by
  unfold Spells string? at h
  split at h
  · next s' hl =>
    obtain rfl := Option.some.inj h
    exact hl
  · cases h

theorem Counts.literal? (h : Counts a i) : ∃ l, (foldTerm a).literal? = some l := by
  obtain ⟨n, hn, -⟩ := Option.map_eq_some_iff.mp h
  obtain ⟨l, hl, -⟩ := Option.bind_eq_some_iff.mp (Option.eq_some_of_filter_eq_some hn)
  exact ⟨l, hl⟩

theorem spells_string (s : String) : Spells (.string s) s := by
  rw [Spells, Term.string, foldTerm_literal]
  rfl

theorem spells_of_foldTerm_eq (h : foldTerm a = .string s) : Spells a s := by
  rw [Spells, h]
  rfl

theorem counts_int (value : Int32) : Counts (.int value) value.toInt := by
  rw [Counts, Term.int, foldTerm_literal, ← Int32.toInt_toInt64]
  rfl

/-- A literal that a term folds to and that is written alike is the term itself. -/
theorem eq_of_foldTerm_beq (hl : (foldTerm a).literal? = some l)
    (hsame : (foldTerm a == a) = true) : a = foldTerm a := by
  cases a with
  | leaf type leaf => rw [foldTerm_leaf]
  | unary | binary | ternary | call | lambda =>
    cases hfold : foldTerm _ with
    | leaf =>
      rw [hfold] at hsame
      cases hsame
    | unary | binary | ternary | call | lambda =>
      rw [hfold] at hl
      cases hl

theorem foldTerm_unary_of_literal (op : UnaryOp) (ha : (foldTerm a).literal? = some l) :
    foldTerm (.unary op type a) = settled (.unary op type (foldTerm a)) := by
  rw [foldTerm_unary]
  split
  · next hsame => rw [← eq_of_foldTerm_beq ha hsame]
  · rfl

theorem foldTerm_binary_of_literals (op : BinaryOp) (ha : (foldTerm a).literal? = some l)
    (hb : (foldTerm b).literal? = some m) :
    foldTerm (.binary op type a b) = settled (.binary op type (foldTerm a) (foldTerm b)) := by
  rw [foldTerm_binary]
  split
  · next hsame =>
    rw [Bool.and_eq_true] at hsame
    rw [← eq_of_foldTerm_beq ha hsame.1, ← eq_of_foldTerm_beq hb hsame.2]
  · rfl

theorem foldTerm_ternary_of_literals (op : TernaryOp) (ha : (foldTerm a).literal? = some l)
    (hb : (foldTerm b).literal? = some m) (hc : (foldTerm c).literal? = some n) :
    foldTerm (.ternary op type a b c) =
      settled (.ternary op type (foldTerm a) (foldTerm b) (foldTerm c)) := by
  rw [foldTerm_ternary]
  split
  · next hsame =>
    rw [Bool.and_eq_true, Bool.and_eq_true] at hsame
    rw [← eq_of_foldTerm_beq ha hsame.1.1, ← eq_of_foldTerm_beq hb hsame.1.2,
      ← eq_of_foldTerm_beq hc hsame.2]
  · rfl

/-! ## Operations -/

theorem foldTerm_stringLength (hs : Spells a s) :
    foldTerm (.stringLength a) = .int (length s) := by
  rw [Term.stringLength, foldTerm_unary_of_literal _ hs.literal?, settled, step?, unaryTerm?, hs]
  rfl

theorem foldTerm_concat (hs : Spells a s) (ht : Spells b t) :
    foldTerm (.concat a b) = .string (s ++ t) := by
  rw [Term.concat, foldTerm_binary_of_literals _ hs.literal? ht.literal?, settled, step?,
    binaryTerm?, hs, ht]
  rfl

theorem foldTerm_charAt {unit : UInt16} (hs : Spells a s) (hi : Counts b i)
    (hunit : charAt? s i = some unit) : foldTerm (.charAt a b) = .char unit := by
  obtain ⟨l, hl⟩ := hi.literal?
  rw [Term.charAt, foldTerm_binary_of_literals _ hs.literal? hl, settled, step?, binaryTerm?, hs,
    hi]
  simp only [Option.bind_eq_bind, Option.bind_some, hunit]
  rfl

theorem foldTerm_substring (hs : Spells a s) (hi : Counts b i) (hj : Counts c j)
    (ht : substring? s i j = some t) : foldTerm (.substring a b c) = .string t := by
  obtain ⟨l, hl⟩ := hi.literal?
  obtain ⟨m, hm⟩ := hj.literal?
  rw [Term.substring, foldTerm_ternary_of_literals _ hs.literal? hl hm, settled, step?,
    ternaryTerm?, hs, hi, hj]
  simp only [Option.bind_eq_bind, Option.bind_some, ht]
  rfl

theorem foldTerm_stringContains (hs : Spells a s) (ht : Spells b t) :
    foldTerm (.stringContains a b) = .bool (contains s t) := by
  rw [Term.stringContains, foldTerm_binary_of_literals _ hs.literal? ht.literal?, settled, step?,
    binaryTerm?, hs, ht]
  rfl

theorem foldTerm_indexOf (hs : Spells a s) (ht : Spells b t) (hi : Counts c i) :
    foldTerm (.indexOf a b c) = .int (indexOf s t i) := by
  obtain ⟨l, hl⟩ := hi.literal?
  rw [Term.indexOf, foldTerm_ternary_of_literals _ hs.literal? ht.literal? hl, settled, step?,
    ternaryTerm?, hs, ht, hi]
  rfl

theorem foldTerm_toText (hl : (foldTerm a).literal? = some l) :
    foldTerm (.toText a) = .string (render l) := by
  rw [Term.toText, foldTerm_unary_of_literal _ hl, settled, step?, unaryTerm?, hl]
  rfl

/-- A text that cannot be read stays to be read. -/
theorem foldTerm_parse (hs : Spells a s) : foldTerm (.parse type a) =
    ((parse? type s).map .literal).getD (.parse type (foldTerm a)) := by
  rw [Term.parse, foldTerm_unary_of_literal _ hs.literal?, settled, step?, unaryTerm?, hs]
  rfl

theorem foldTerm_add {x y : Int32} (ha : foldTerm a = .int x) (hb : foldTerm b = .int y) :
    foldTerm (.arithmetic .add .int a b) = .int (x + y) := by
  have hx : (foldTerm a).literal? = some (.int x) := by rw [ha]; rfl
  have hy : (foldTerm b).literal? = some (.int y) := by rw [hb]; rfl
  rw [Term.arithmetic, foldTerm_binary_of_literals _ hx hy, ha, hb]
  rfl

end Concolic.Folding
