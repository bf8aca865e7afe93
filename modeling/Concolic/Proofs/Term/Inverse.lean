import Concolic.Proofs.Term.Equality

/-!
# Negated branches

A branch condition is an equality or an inequality, and its negation is another predicate of
the same role. Predicates that are the same have negations that are the same. This is where
the written forms matter: terms are compared by them, and a negation asks whether a side is
a truth value, so no other literal may be written like one.
-/

namespace Concolic

/-! ## Literals written like truth values -/

namespace Literal

theorem getLast?_boolText (b : Bool) : (boolText b).toList.getLast? = some 'e' := by
  cases b <;> decide

theorem append_ne_boolText {suffix : String}
    (h : (suffix.toList.getLast?.any (· != 'e')) = true) (s : String) (b : Bool) :
    s ++ suffix ≠ boolText b := by
  intro heq
  have hlast := getLast?_boolText b
  obtain ⟨c, hc, hne⟩ := (Option.any_eq_true ..).mp h
  rw [← heq, String.toList_append, List.getLast?_append, hc] at hlast
  simp_all

theorem isDigit_of_mem_repr {n : Nat} {c : Char} (h : c ∈ n.repr.toList) : c.isDigit = true := by
  rw [Nat.toList_repr] at h
  exact Nat.isDigit_of_mem_toDigits (by omega) (by omega) h

theorem toString_ne_boolText (i : Int) (b : Bool) : toString i ≠ boolText b := by
  intro h
  have hmem : 'e' ∈ (toString i).toList := by
    rw [h]
    exact List.mem_of_getLast? (getLast?_boolText b)
  rw [Int.toString_eq_repr, Int.repr_eq_if] at hmem
  by_cases hi : 0 ≤ i
  · rw [if_pos hi] at hmem
    exact absurd (isDigit_of_mem_repr hmem) (by decide)
  · rw [if_neg hi, String.toList_append, List.mem_append] at hmem
    rcases hmem with hmem | hmem
    · simp at hmem
    · exact absurd (isDigit_of_mem_repr hmem) (by decide)

/-- A literal that is written like a truth value is that truth value. -/
theorem eq_of_text_eq_boolText {l : Literal} {b : Bool} (h : l.text = boolText b) :
    l = .bool b := by
  cases l with
  | bool value => cases value <;> cases b <;> first | rfl | simp [text, boolText] at h
  | null => cases b <;> simp [text, boolText] at h
  | byte => exact absurd h (append_ne_boolText (by decide) _ b)
  | short => exact absurd h (append_ne_boolText (by decide) _ b)
  | long => exact absurd h (append_ne_boolText (by decide) _ b)
  | float => exact absurd h (append_ne_boolText (by decide) _ b)
  | double => exact absurd h (append_ne_boolText (by decide) _ b)
  | string => exact absurd h (append_ne_boolText (by decide) _ b)
  | «class» => exact absurd h (append_ne_boolText (by decide) _ b)
  | int i => exact absurd h (toString_ne_boolText _ b)
  | char unit =>
    have hhead := congrArg (fun s : String => s.toList.head?) h
    simp only [text] at hhead
    split at hhead <;> cases b <;> simp [Text.quoteChar, boolText] at hhead

end Literal

/-- A term that is the same as a truth value is that truth value. -/
theorem Term.literal?_eq_bool_of_same {a b : Term} {value : Bool} (h : (a == b) = true)
    (ha : a.literal? = some (.bool value)) : b.literal? = some (.bool value) := by
  obtain ⟨type, rfl⟩ : ∃ type, a = .leaf type (.literal (.bool value)) := by
    unfold literal? at ha
    split at ha
    · next type l => exact ⟨type, by rw [Option.some.inj ha]⟩
    · simp at ha
  have hhead := (same_iff_head.mp h).1
  cases b with
  | leaf t l =>
    cases l with
    | literal l =>
      simp only [head, Leaf.signature, Head.leaf.injEq, Prod.mk.injEq] at hhead
      have htext : l.text = Literal.boolText value := hhead.2.2.2.symm
      simp only [literal?, Literal.eq_of_text_eq_boolText htext]
    | argument | value | result | undefined | statics => simp [head, Leaf.signature] at hhead
  | unary | binary | ternary | call | lambda => simp [head] at hhead

/-! ## Negation -/

namespace Clause

/-- An equality or an inequality. -/
def IsRelation {τ : Type} (p : Clause τ) : Prop :=
  p.assertion.kind = .equal ∨ p.assertion.kind = .unequal

instance {τ : Type} (p : Clause τ) : Decidable p.IsRelation := inferInstanceAs (Decidable (_ ∨ _))

theorem role_inverse (p : Predicate) : p.inverse.role = p.role := by
  unfold inverse
  split
  · split <;> rfl
  · rfl
  · rfl

@[simp] theorem isPath_inverse (p : Predicate) : p.inverse.isPath = p.isPath := by
  rw [isPath, isPath, role_inverse]

theorem inverse_equal_bool {p : Predicate} {a b : Term} {value : Bool}
    (h : p.assertion = .equal a b) (hb : b.literal? = some (.bool value)) :
    p.inverse = { p with assertion := .equal a (.bool !value) } := by
  simp only [inverse, h, hb]

theorem inverse_equal {p : Predicate} {a b : Term} (h : p.assertion = .equal a b)
    (hb : ∀ value, b.literal? ≠ some (.bool value)) :
    p.inverse = { p with assertion := .unequal a b } := by
  unfold inverse
  rw [h]
  dsimp only
  split
  · next hvalue => exact absurd hvalue (hb _)
  · rfl

theorem inverse_unequal {p : Predicate} {a b : Term} (h : p.assertion = .unequal a b) :
    p.inverse = { p with assertion := .equal a b } := by
  simp only [inverse, h]

theorem isRelation_iff {τ : Type} {p : Clause τ} :
    p.IsRelation ↔ ∃ a b, p.assertion = .equal a b ∨ p.assertion = .unequal a b := by
  obtain ⟨role, assertion, location⟩ := p
  rcases assertion with ⟨v, a⟩ | ⟨v, a, b⟩ | _ | _
  · cases v <;> simp [IsRelation, Assertion.kind]
  · cases v <;> simp [IsRelation, Assertion.kind]
  · simp [IsRelation, Assertion.kind]
  · simp [IsRelation, Assertion.kind]

/-- Nothing but a relation has a negation. -/
theorem inverse_of_not_isRelation {p : Predicate} (h : ¬p.IsRelation) : p.inverse = p := by
  rw [isRelation_iff] at h
  unfold inverse
  split
  · next a b heq => exact absurd ⟨a, b, .inl heq⟩ h
  · next a b heq => exact absurd ⟨a, b, .inr heq⟩ h
  · rfl

theorem relation_beq_iff {p q : Predicate} {v : BinaryVerb} {a b : Term}
    (hp : p.assertion = .binary v a b) :
    (p == q) = true ↔ p.role = q.role ∧
      ∃ c d, q.assertion = .binary v c d ∧ (a == c) = true ∧ (b == d) = true := by
  rw [beq_iff, hp, Assertion.beq_iff_shape]
  refine and_congr_right fun _ => ?_
  rcases q.assertion with ⟨w, c⟩ | ⟨w, c, d⟩ | _ | _
  · simp [Assertion.shape]
  · simp [Assertion.shape, Assertion.operands]
    grind
  · simp [Assertion.shape]
  · simp [Assertion.shape]

theorem IsRelation.congr {p q : Predicate} (h : (p == q) = true) (hp : p.IsRelation) :
    q.IsRelation := by
  obtain ⟨a, b, hp | hp⟩ := isRelation_iff.mp hp
  · obtain ⟨c, d, hq, -⟩ := ((relation_beq_iff hp).mp h).2
    exact isRelation_iff.mpr ⟨c, d, .inl hq⟩
  · obtain ⟨c, d, hq, -⟩ := ((relation_beq_iff hp).mp h).2
    exact isRelation_iff.mpr ⟨c, d, .inr hq⟩

/-- Negation respects sameness. -/
theorem inverse_congr {p q : Predicate} (h : (p == q) = true) :
    (p.inverse == q.inverse) = true := by
  by_cases hp : p.IsRelation
  · obtain ⟨a, b, hp | hp⟩ := isRelation_iff.mp hp
    · obtain ⟨hrole, c, d, hq, hac, hbd⟩ := (relation_beq_iff hp).mp h
      by_cases hb : ∃ value, b.literal? = some (.bool value)
      · obtain ⟨value, hb⟩ := hb
        rw [inverse_equal_bool hp hb,
          inverse_equal_bool hq (Term.literal?_eq_bool_of_same hbd hb)]
        exact (relation_beq_iff rfl).mpr ⟨hrole, c, _, rfl, hac, BEq.rfl⟩
      · have hd : ∀ value, d.literal? ≠ some (.bool value) := fun value hd =>
          hb ⟨value, Term.literal?_eq_bool_of_same (BEq.symm hbd) hd⟩
        rw [inverse_equal hp (fun value hvalue => hb ⟨value, hvalue⟩), inverse_equal hq hd]
        exact (relation_beq_iff rfl).mpr ⟨hrole, c, d, rfl, hac, hbd⟩
    · obtain ⟨hrole, c, d, hq, hac, hbd⟩ := (relation_beq_iff hp).mp h
      rw [inverse_unequal hp, inverse_unequal hq]
      exact (relation_beq_iff rfl).mpr ⟨hrole, c, d, rfl, hac, hbd⟩
  · have hq : ¬q.IsRelation := fun hq => hp (hq.congr (BEq.symm h))
    rw [inverse_of_not_isRelation hp, inverse_of_not_isRelation hq]
    exact h

/-- A relation is not the same as its negation. -/
theorem inverse_beq_self {p : Predicate} (h : p.IsRelation) : (p.inverse == p) = false := by
  rw [Bool.eq_false_iff]
  intro hsame
  obtain ⟨a, b, hp | hp⟩ := isRelation_iff.mp h
  · by_cases hb : ∃ value, b.literal? = some (.bool value)
    · obtain ⟨value, hb⟩ := hb
      rw [inverse_equal_bool hp hb] at hsame
      obtain ⟨-, c, d, hq, -, hbd⟩ := (relation_beq_iff rfl).mp hsame
      obtain ⟨-, rfl⟩ : a = c ∧ b = d := by simpa [hp] using hq
      have hflip : b.literal? = some (.bool !value) := Term.literal?_eq_bool_of_same hbd rfl
      simp [hb] at hflip
    · rw [inverse_equal hp fun value hvalue => hb ⟨value, hvalue⟩] at hsame
      obtain ⟨-, c, d, hq, -⟩ := (relation_beq_iff rfl).mp hsame
      simp [hp] at hq
  · rw [inverse_unequal hp] at hsame
    obtain ⟨-, c, d, hq, -⟩ := (relation_beq_iff rfl).mp hsame
    simp [hp] at hq

end Clause
end Concolic
