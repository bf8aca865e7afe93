import Concolic.Proofs.Folding.Words

/-!
# Folding keeps the value of a term

Folding computes with numbers of its own, the integral ones among which are words. Every
operation on them gives the word that the operation on words gives, or fails for a division by
zero. So a term over whole numbers and truth values that folds has the value of what it folds to,
whatever its leaves stand for.
-/

namespace Concolic

/-! ## Numbers are words -/

namespace Number

/-- The word that an integral number is. -/
def word? : Number → Option Word
  | .int value => some (.int value.toBitVec)
  | .long value => some (.long value.toBitVec)
  | .float _ | .double _ => none

variable {m n : Number} {x y : Word}

/-- Numbers that are words are integers of 32 or 64 bits. -/
theorem word?_cases (h : n.word? = some x) :
    (∃ value, n = .int value ∧ x = .int value.toBitVec) ∨
      ∃ value, n = .long value ∧ x = .long value.toBitVec := by
  cases n with
  | int value => exact .inl ⟨value, rfl, (Option.some.inj h).symm⟩
  | long value => exact .inr ⟨value, rfl, (Option.some.inj h).symm⟩
  | float | double => cases h

theorem word?_ofLiteral? (l : Literal) : (ofLiteral? l).bind word? = Word.ofLiteral? l := by
  cases l with
  | bool value => cases value <;> rfl
  | char unit =>
    have hbits : (Int32.ofInt unit.toNat).toBitVec = unit.toBitVec.setWidth 32 := by
      rw [Int32.toBitVec_ofInt, BitVec.ofInt_natCast]
      exact BitVec.eq_of_toNat_eq (by simp)
    simp only [ofLiteral?, Option.bind_some, word?, Word.ofLiteral?, hbits]
  | null | byte | short | int | long | float | double | string | «class» => rfl

theorem ofLiteral?_eq_some {l : Literal} (h : Word.ofLiteral? l = some x) :
    ∃ n, ofLiteral? l = some n ∧ n.word? = some x := by
  rw [← word?_ofLiteral?] at h
  exact Option.bind_eq_some_iff.mp h

theorem isReal_of_word? (h : n.word? = some x) : n.isReal = false := by
  obtain ⟨_, rfl, -⟩ | ⟨_, rfl, -⟩ := word?_cases h <;> rfl

theorem toBitVec_toInt32 (h : n.word? = some x) : n.toInt32.toBitVec = x.low 32 := by
  obtain ⟨value, rfl, rfl⟩ | ⟨value, rfl, rfl⟩ := word?_cases h
  · exact (BitVec.setWidth_eq _).symm
  · exact BitVec.signExtend_eq_setWidth_of_le _ (by decide)

theorem toBitVec_toInt64 (h : n.word? = some x) : n.toInt64.toBitVec = x.toLong := by
  obtain ⟨_, rfl, rfl⟩ | ⟨_, rfl, rfl⟩ := word?_cases h <;> rfl

theorem toInt_toInt64 (h : n.word? = some x) : n.toInt64.toInt = x.toInt := by
  rw [← x.toInt_toLong, ← toBitVec_toInt64 h]
  rfl

theorem word?_neg (h : n.word? = some x) : n.neg.word? = some x.neg := by
  obtain ⟨_, rfl, rfl⟩ | ⟨_, rfl, rfl⟩ := word?_cases h <;> rfl

/-- Turned into a literal of some type, a number stands for its word narrowed to the type. -/
theorem ofLiteral?_toLiteral? (h : n.word? = some x) {type : ValueType} {l : Literal}
    (hl : n.toLiteral? type = some l) (htype : type.isIntegral = true) :
    Word.ofLiteral? l = x.narrow type := by
  cases type with
  | bool =>
    obtain rfl := Option.some.inj hl
    have hzero : (n.toInt64 != 0) = (x.toInt != 0) := by
      rw [← toInt_toInt64 h, Bool.eq_iff_iff, bne_iff_ne, bne_iff_ne, ne_eq, ne_eq,
        ← Int64.toInt_inj]
      rfl
    rw [Word.ofLiteral?, Word.narrow, hzero]
  | byte =>
    obtain rfl := Option.some.inj hl
    have hbits : n.toInt32.toInt8.toBitVec = x.low 8 := by
      rw [← x.setWidth_low (v := 32) (by decide), ← toBitVec_toInt32 h]
      exact BitVec.signExtend_eq_setWidth_of_le _ (by decide)
    rw [Word.ofLiteral?, Word.narrow, hbits]
  | char =>
    obtain rfl := Option.some.inj hl
    have hbits : n.toInt32.toUInt32.toUInt16.toBitVec = x.low 16 := by
      rw [← x.setWidth_low (v := 32) (by decide), ← toBitVec_toInt32 h]
      rfl
    rw [Word.ofLiteral?, Word.narrow, hbits]
  | short =>
    obtain rfl := Option.some.inj hl
    have hbits : n.toInt32.toInt16.toBitVec = x.low 16 := by
      rw [← x.setWidth_low (v := 32) (by decide), ← toBitVec_toInt32 h]
      exact BitVec.signExtend_eq_setWidth_of_le _ (by decide)
    rw [Word.ofLiteral?, Word.narrow, hbits]
  | int =>
    obtain rfl := Option.some.inj hl
    rw [Word.ofLiteral?, Word.narrow, toBitVec_toInt32 h]
  | long =>
    obtain rfl := Option.some.inj hl
    rw [Word.ofLiteral?, Word.narrow, toBitVec_toInt64 h]
  | void | float | double | null | «class» | array | location => cases htype

end Number

namespace Folding

open Number

variable {m n : Number} {x y : Word}

/-! ## Operations -/

theorem combine_32 {op : Arithmetic} (hop : op.isShift = false) (a b : Int32) :
    (∃ divided, arithmetic32 op a b = .error (.zeroDivisor divided)) ∨
      ∃ c, arithmetic32 op a b = .ok (some c) ∧
        Word.combine op a.toBitVec b.toBitVec = some c.toBitVec := by
  cases op with
  | shl | shr | ushr => cases hop
  | add | sub | mul | and | or | xor => exact .inr ⟨_, rfl, rfl⟩
  | div | rem =>
    by_cases hzero : b = 0
    · exact .inl ⟨_, if_pos hzero⟩
    · have hbits : b.toBitVec ≠ 0 := fun h => hzero (Int32.toBitVec_inj.mp h)
      exact .inr ⟨_, if_neg hzero, if_neg hbits⟩

theorem combine_64 {op : Arithmetic} (hop : op.isShift = false) (a b : Int64) :
    (∃ divided, arithmetic64 op a b = .error (.zeroDivisor divided)) ∨
      ∃ c, arithmetic64 op a b = .ok (some c) ∧
        Word.combine op a.toBitVec b.toBitVec = some c.toBitVec := by
  cases op with
  | shl | shr | ushr => cases hop
  | add | sub | mul | and | or | xor => exact .inr ⟨_, rfl, rfl⟩
  | div | rem =>
    by_cases hzero : b = 0
    · exact .inl ⟨_, if_pos hzero⟩
    · have hbits : b.toBitVec ≠ 0 := fun h => hzero (Int64.toBitVec_inj.mp h)
      exact .inr ⟨_, if_neg hzero, if_neg hbits⟩

theorem shiftPlaces_word (h : n.word? = some y) (width : Nat) :
    shiftPlaces width n = y.toLong.toNat % width := by
  rw [← toBitVec_toInt64 h]
  rfl

theorem shiftWord_eq {w : Nat} (h : n.word? = some y) (op : Arithmetic) (a : BitVec w) :
    shiftWord op a (shiftPlaces w n) = Word.shiftBits op a y := by
  rw [shiftPlaces_word h]
  cases op <;> rfl

theorem shift_word (op : Arithmetic) (hm : m.word? = some x) (hn : n.word? = some y) :
    ∃ r, shift op m n = some r ∧ r.word? = some (Word.shift op x y) := by
  obtain ⟨value, rfl, rfl⟩ | ⟨value, rfl, rfl⟩ := word?_cases hm
  · exact ⟨_, rfl, by rw [shiftWord_eq hn]; rfl⟩
  · exact ⟨_, rfl, by rw [shiftWord_eq hn]; rfl⟩

theorem calculate_word {op : Arithmetic} (hop : op.isShift = false) (hm : m.word? = some x)
    (hn : n.word? = some y) :
    (∃ divided, arithmetic op m n = .error (.zeroDivisor divided)) ∨
      ∃ r z, arithmetic op m n = .ok (some r) ∧ r.word? = some z ∧
        Word.calculate op x y = some z := by
  have hwide (harithmetic : arithmetic op m n =
        (arithmetic64 op m.toInt64 n.toInt64).map (·.map .long))
      (hcalculate : Word.calculate op x y = (Word.combine op x.toLong y.toLong).map .long) :
      (∃ divided, arithmetic op m n = .error (.zeroDivisor divided)) ∨
        ∃ r z, arithmetic op m n = .ok (some r) ∧ r.word? = some z ∧
          Word.calculate op x y = some z := by
    rw [harithmetic, hcalculate]
    rcases combine_64 hop m.toInt64 n.toInt64 with ⟨divided, herror⟩ | ⟨c, hok, hcombine⟩
    · exact .inl ⟨divided, by rw [herror]; rfl⟩
    · rw [toBitVec_toInt64 hm, toBitVec_toInt64 hn] at hcombine
      exact .inr ⟨.long c, _, by rw [hok]; rfl, rfl, by rw [hcombine]; rfl⟩
  have hshift : ¬op.isShift = true := by rw [hop]; exact Bool.false_ne_true
  obtain ⟨a, rfl, rfl⟩ | ⟨a, rfl, rfl⟩ := word?_cases hm
  · obtain ⟨b, rfl, rfl⟩ | ⟨b, rfl, rfl⟩ := word?_cases hn
    · rw [arithmetic, if_neg hshift, Word.calculate]
      rcases combine_32 hop a b with ⟨divided, herror⟩ | ⟨c, hok, hcombine⟩
      · exact .inl ⟨divided, congrArg (Except.map (Option.map Number.int)) herror⟩
      · exact .inr ⟨.int c, .int c.toBitVec, congrArg (Except.map (Option.map Number.int)) hok, rfl,
          congrArg (Option.map Word.int) hcombine⟩
    · exact hwide (if_neg hshift) rfl
  · obtain ⟨b, rfl, rfl⟩ | ⟨b, rfl, rfl⟩ := word?_cases hn <;> exact hwide (if_neg hshift) rfl

/-- Folding an operation on integers fails for a zero divisor, or gives the word that the
operation on words gives. -/
theorem arithmetic_word (op : Arithmetic) (hm : m.word? = some x) (hn : n.word? = some y) :
    (∃ divided, arithmetic op m n = .error (.zeroDivisor divided)) ∨
      ∃ r z, arithmetic op m n = .ok (some r) ∧ r.word? = some z ∧
        Word.arithmetic op x y = some z := by
  rw [Word.arithmetic]
  cases hop : op.isShift with
  | true =>
    obtain ⟨r, hr, hword⟩ := shift_word op hm hn
    refine .inr ⟨r, _, ?_, hword, if_pos rfl⟩
    rw [arithmetic, if_pos hop, hr]
  | false => exact calculate_word hop hm hn

theorem numbersEqual_word (hm : m.word? = some x) (hn : n.word? = some y) :
    numbersEqual m n = (x.toInt == y.toInt) := by
  rw [numbersEqual, isReal_of_word? hm, isReal_of_word? hn, ← toInt_toInt64 hm, ← toInt_toInt64 hn,
    Bool.or_false, if_neg Bool.false_ne_true, Bool.eq_iff_iff, beq_iff_eq, beq_iff_eq,
    Int64.toInt_inj]

theorem order?_word (hm : m.word? = some x) (hn : n.word? = some y) :
    order? m n =
      some (if x.toInt < y.toInt then .lt else if x.toInt = y.toInt then .eq else .gt) := by
  rw [order?, isReal_of_word? hm, isReal_of_word? hn, ← toInt_toInt64 hm, ← toInt_toInt64 hn,
    Bool.or_false, if_neg Bool.false_ne_true]
  rfl

/-- Folding a comparison of integers gives the word that comparing the words gives. -/
theorem compareNumbers_word (op : Comparison) (hm : m.word? = some x) (hn : n.word? = some y) :
    Word.ofLiteral? (compareNumbers op m n) = some (Word.compare op x y) := by
  have hequal := numbersEqual_word hm hn
  have horder := order?_word hm hn
  cases op with
  | eq => rw [compareNumbers, hequal, Word.ofLiteral?, Word.compare]
  | neq =>
    rw [compareNumbers, hequal, Word.ofLiteral?, Word.compare]
    rfl
  | lt | gt | le | ge | cmp | cmpg | cmpl =>
    rcases Int.lt_trichotomy x.toInt y.toInt with hlt | heq | hgt
    · have hle : x.toInt ≤ y.toInt := by omega
      have hnlt : ¬y.toInt < x.toInt := by omega
      have hnle : ¬y.toInt ≤ x.toInt := by omega
      rw [if_pos hlt] at horder
      simp [compareNumbers, horder, Word.ofLiteral?, Word.compare, orderValue, hlt, hle, hnlt, hnle]
    · rw [heq, if_neg (Int.lt_irrefl _), if_pos rfl] at horder
      simp [compareNumbers, horder, Word.ofLiteral?, Word.compare, orderValue, heq]
    · have hge : y.toInt ≤ x.toInt := by omega
      have hne : ¬x.toInt = y.toInt := by omega
      have hnlt : ¬x.toInt < y.toInt := by omega
      have hnle : ¬x.toInt ≤ y.toInt := by omega
      rw [if_neg hnlt, if_neg hne] at horder
      simp [compareNumbers, horder, Word.ofLiteral?, Word.compare, orderValue, hgt, hge, hne, hnlt,
        hnle]

/-- The order and the equality of literals that are words are those of the words. -/
theorem compare?_word (op : Comparison) {k l : Literal} (hm : ofLiteral? k = some m)
    (hn : ofLiteral? l = some n) : compare? op k l = some (compareNumbers op m n) := by
  simp only [compare?, hm, hn]

theorem literalsEqual?_word {k l : Literal} (hk : Word.ofLiteral? k = some x)
    (hl : Word.ofLiteral? l = some y) : literalsEqual? k l = some (x.toInt == y.toInt) := by
  obtain ⟨m, hm, hmword⟩ := ofLiteral?_eq_some hk
  obtain ⟨n, hn, hnword⟩ := ofLiteral?_eq_some hl
  simp only [literalsEqual?, hm, hn, numbersEqual_word hmword hnword]

/-! ## Terms -/

end Folding

namespace Term

variable {t a b : Term} {type : ValueType} {l : Literal}

/-- The term is one over whole numbers and truth values and has the value of the other,
whatever the leaves stand for. -/
structure Keeps (t old : Term) : Prop where
  integral : t.IsIntegral
  eval (ν : Valuation) : t.eval ν = old.eval ν

theorem Keeps.refl (h : t.IsIntegral) : t.Keeps t := ⟨h, fun _ => rfl⟩

theorem Keeps.trans (h : t.Keeps a) (k : a.Keeps b) : t.Keeps b :=
  ⟨h.integral, fun ν => (h.eval ν).trans (k.eval ν)⟩

/-- A literal among such terms is a word. -/
theorem IsIntegral.of_literal? (h : t.IsIntegral) (hl : t.literal? = some l) :
    ∃ x, Word.ofLiteral? l = some x ∧ ∀ ν, t.eval ν = some x := by
  cases h with
  | @literal type k hsome =>
    obtain rfl : k = l := Option.some.inj hl
    obtain ⟨x, hx⟩ := Option.isSome_iff_exists.mp hsome
    exact ⟨x, hx, fun _ => hx⟩
  | @leaf type leaf _ hleaf =>
    cases leaf with
    | literal constant => exact absurd rfl (hleaf constant)
    | argument | value | result | undefined | statics => cases hl
  | negate | cast | arithmetic | compare | equals | ifThenElse => cases hl

theorem IsIntegral.of_number? {n : Number} (h : t.IsIntegral) (hn : Folding.number? t = some n) :
    ∃ x, n.word? = some x ∧ ∀ ν, t.eval ν = some x := by
  obtain ⟨l, hl, hl'⟩ := Option.bind_eq_some_iff.mp hn
  obtain ⟨x, hx, heval⟩ := h.of_literal? hl
  obtain ⟨n', hn', hword⟩ := Number.ofLiteral?_eq_some hx
  rw [hl', Option.some_inj] at hn'
  exact ⟨x, hn' ▸ hword, heval⟩

theorem keeps_literal {x : Word} (hl : Word.ofLiteral? l = some x) (h : ∀ ν, t.eval ν = some x) :
    (literal l).Keeps t :=
  ⟨.literal (by rw [hl]; rfl), fun ν => by rw [h ν]; exact hl⟩

/-- A number turned into a literal keeps the value that is narrowed. -/
theorem keeps_narrowed {n : Number} {x : Word} (hn : n.word? = some x)
    (htype : type.isIntegral = true) (hl : n.toLiteral? type = some l)
    (h : ∀ ν, t.eval ν = x.narrow type) : (literal l).Keeps t := by
  have hword := Number.ofLiteral?_toLiteral? hn hl htype
  have hsome : (x.narrow type).isSome := by
    cases type <;> first | rfl | cases htype
  exact ⟨.literal (hword ▸ hsome), fun ν => (h ν).symm ▸ hword⟩

end Term

namespace Folding

open Number Term

variable {t a b cond : Term} {type : ValueType}

/-- Folding the term itself fails for a zero divisor, leaves the term alone, or gives one that
keeps the value. -/
def IsSound (t : Term) : Prop :=
  (∃ divided, step? t = .error (.zeroDivisor divided)) ∨ step? t = .ok none ∨
    ∃ t', step? t = .ok (some t') ∧ t'.Keeps t

theorem isSound_negate (htype : type.isIntegral = true) (ha : a.IsIntegral) :
    IsSound (.unary .negate type a) := by
  refine .inr ?_
  cases hn : number? a with
  | none => exact .inl (by simp [step?, unaryTerm?, hn])
  | some n =>
    obtain ⟨x, hx, heval⟩ := ha.of_number? hn
    cases hl : n.neg.toLiteral? type with
    | none => exact .inl (by simp [step?, unaryTerm?, hn, hl])
    | some l =>
      exact .inr ⟨.literal l, by simp [step?, unaryTerm?, hn, hl],
        keeps_narrowed (word?_neg hx) htype hl fun ν => by simp [eval, heval ν]⟩

theorem isNull_of_isIntegral (ha : a.IsIntegral) : a.isNull = false := by
  rw [isNull, beq_eq_false_iff_ne]
  intro hnull
  obtain ⟨x, hx, -⟩ := ha.of_literal? hnull
  cases hx

theorem isSound_cast (htype : type.isIntegral = true) (ha : a.IsIntegral) :
    IsSound (.unary .cast type a) := by
  refine .inr ?_
  have hnull := isNull_of_isIntegral ha
  cases hn : number? a with
  | none => exact .inl (by simp [step?, unaryTerm?, hnull, hn])
  | some n =>
    obtain ⟨x, hx, heval⟩ := ha.of_number? hn
    cases hl : n.toLiteral? type with
    | none => exact .inl (by simp [step?, unaryTerm?, hnull, hn, hl])
    | some l =>
      exact .inr ⟨.literal l, by simp [step?, unaryTerm?, hnull, hn, hl],
        keeps_narrowed hx htype hl fun ν => by simp [eval, heval ν]⟩

theorem isSound_arithmetic (op : Arithmetic) (htype : type.isIntegral = true) (ha : a.IsIntegral)
    (hb : b.IsIntegral) : IsSound (.binary (.arithmetic op) type a b) := by
  cases hm : number? a with
  | none => exact .inr (.inl (by simp [step?, binaryTerm?, arithmeticTerm?, hm]))
  | some m =>
    cases hn : number? b with
    | none => exact .inr (.inl (by simp [step?, binaryTerm?, arithmeticTerm?, hm, hn]))
    | some n =>
      obtain ⟨x, hx, hevala⟩ := ha.of_number? hm
      obtain ⟨y, hy, hevalb⟩ := hb.of_number? hn
      have hstep : step? (.binary (.arithmetic op) type a b) =
          (arithmetic op m n).map fun folded => (folded.bind (·.toLiteral? type)).map .literal := by
        simp only [step?, binaryTerm?, arithmeticTerm?, hm, hn]
        cases arithmetic op m n <;> rfl
      rw [IsSound, hstep]
      rcases arithmetic_word op hx hy with ⟨divided, herror⟩ | ⟨r, z, hok, hz, hword⟩
      · exact .inl ⟨divided, by rw [herror]; rfl⟩
      · refine .inr ?_
        rw [hok]
        cases hl : r.toLiteral? type with
        | none => exact .inl (by simp [Except.map, hl])
        | some l =>
          exact .inr ⟨.literal l, by simp [Except.map, hl],
            keeps_narrowed hz htype hl fun ν => by simp [eval, hevala ν, hevalb ν, hword]⟩

theorem isSound_compare (op : Comparison) (ha : a.IsIntegral) (hb : b.IsIntegral) :
    IsSound (.binary (.compare op) type a b) := by
  refine .inr ?_
  cases hk : a.literal? with
  | none => exact .inl (by simp only [step?, binaryTerm?, hk]; rfl)
  | some k =>
    cases hl : b.literal? with
    | none => exact .inl (by simp only [step?, binaryTerm?, hk, hl]; rfl)
    | some l =>
      obtain ⟨x, hx, hevala⟩ := ha.of_literal? hk
      obtain ⟨y, hy, hevalb⟩ := hb.of_literal? hl
      obtain ⟨m, hm, hmword⟩ := ofLiteral?_eq_some hx
      obtain ⟨n, hn, hnword⟩ := ofLiteral?_eq_some hy
      refine .inr ⟨.literal (compareNumbers op m n), ?_, keeps_literal
        (compareNumbers_word op hmword hnword) fun ν => by simp [eval, hevala ν, hevalb ν]⟩
      simp only [step?, binaryTerm?, hk, hl, Option.bind_eq_bind, Option.bind_some,
        compare?_word op hm hn]
      rfl

theorem isSound_equals (ha : a.IsIntegral) (hb : b.IsIntegral) :
    IsSound (.binary .equals type a b) := by
  refine .inr ?_
  cases hk : a.literal? with
  | none => exact .inl (by simp only [step?, binaryTerm?, hk]; rfl)
  | some k =>
    cases hl : b.literal? with
    | none => exact .inl (by simp only [step?, binaryTerm?, hk, hl]; rfl)
    | some l =>
      obtain ⟨x, hx, hevala⟩ := ha.of_literal? hk
      obtain ⟨y, hy, hevalb⟩ := hb.of_literal? hl
      refine .inr ⟨.bool (x.toInt == y.toInt), ?_, keeps_literal (x := Word.compare .eq x y) rfl
        fun ν => by simp [eval, hevala ν, hevalb ν]⟩
      simp only [step?, binaryTerm?, hk, hl, Option.bind_eq_bind, Option.bind_some,
        literalsEqual?_word hx hy]
      rfl

theorem isSound_ifThenElse (hcond : cond.IsIntegral) (ha : a.IsIntegral) (hb : b.IsIntegral) :
    IsSound (.ternary .ifThenElse type cond a b) := by
  refine .inr ?_
  cases hl : cond.literal? with
  | none => exact .inl (by simp [step?, ternaryTerm?, hl])
  | some l =>
    obtain ⟨x, hx, heval⟩ := hcond.of_literal? hl
    cases l with
    | bool value =>
      obtain rfl := Option.some.inj hx
      refine .inr ⟨if value then a else b, by simp [step?, ternaryTerm?, hl], ?_⟩
      cases value with
      | true => exact ⟨ha, fun ν => by rw [eval, heval ν]; rfl⟩
      | false => exact ⟨hb, fun ν => by rw [eval, heval ν]; rfl⟩
    | null | byte | char | short | int | long | float | double | string | «class» =>
      exact .inl (by simp [step?, ternaryTerm?, hl])

/-- Folding a term over whole numbers and truth values is sound at its head. -/
theorem isSound_of_isIntegral (h : t.IsIntegral) : IsSound t := by
  cases h with
  | literal | leaf => exact .inr (.inl rfl)
  | negate htype ha => exact isSound_negate htype ha
  | cast htype ha => exact isSound_cast htype ha
  | arithmetic htype ha hb => exact isSound_arithmetic _ htype ha hb
  | compare ha hb => exact isSound_compare _ ha hb
  | equals ha hb => exact isSound_equals ha hb
  | ifThenElse hcond ha hb => exact isSound_ifThenElse hcond ha hb

/-! ## The rules -/

section

variable {p : Predicate} {failure : Failure} {folded : Option Term}

theorem rules_term_of_ok (h : step? t = .ok folded) : rules.term t = pure (folded.getD t) := by
  simp only [rules, h]

theorem rules_term_of_error (h : step? t = .error failure) : rules.term t = (do
    report failure
    return t) := by
  simp only [rules, h]

theorem rules_predicate_of_contradiction (h : isContradiction p = true) :
    rules.predicate p = (do
      report (.contradiction p)
      return .keep p) := by
  simp only [rules, h, if_pos]

theorem rules_predicate_of_not_contradiction (h : isContradiction p = false) :
    rules.predicate p = pure (.keep p) := by
  simp only [rules, h, if_neg Bool.false_ne_true]

end

end Folding
end Concolic
