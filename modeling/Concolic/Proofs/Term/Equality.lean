import Concolic.Term.Build

/-!
# Equality of terms

Comparing terms looks at their written forms and is coarser than identity, but it is an
equivalence, and so is comparing the predicates over them. What is compared at each node is
gathered in a head, and the rest is an induction over the operands.
-/

namespace Concolic

/-! ## Leaves and operators -/

/-- What a leaf is compared by: its sort, its number and its text. -/
def Leaf.signature : Leaf → Nat × Nat × String
  | .argument index => (0, index, "")
  | .value name => (1, 0, name)
  | .result method => (2, 0, method.text)
  | .undefined => (3, 0, "")
  | .literal constant => (4, 0, constant.text)
  | .statics => (5, 0, "")

theorem Leaf.beq_iff_signature {a b : Leaf} : (a == b) = true ↔ a.signature = b.signature := by
  change Leaf.same a b = true ↔ _
  cases a <;> cases b <;> simp [Leaf.same, signature]

instance : EquivBEq Leaf := equivBEq_of_iff_apply_eq Leaf.signature fun _ _ =>
  Leaf.beq_iff_signature

/-- What an operator of one operand is compared by: its sort and the text of its parameter. -/
def UnaryOp.signature : UnaryOp → Nat × String
  | .negate => (0, "")
  | .arrayLength => (1, "")
  | .arrayLoad => (2, "")
  | .field name => (3, name)
  | .fieldLoad => (4, "")
  | .cast => (5, "")
  | .instanceOf checked => (6, checked.text)
  | .stringLength => (7, "")
  | .toText => (8, "")
  | .parse => (9, "")

theorem UnaryOp.beq_iff_signature {a b : UnaryOp} :
    (a == b) = true ↔ a.signature = b.signature := by
  change UnaryOp.same a b = true ↔ _
  cases a <;> cases b <;> simp [UnaryOp.same, signature]

instance : EquivBEq UnaryOp := equivBEq_of_iff_apply_eq UnaryOp.signature fun _ _ =>
  UnaryOp.beq_iff_signature

/-! ## Terms -/

namespace Term

/-- What two terms are compared by, their operands aside. -/
inductive Head where
  | leaf (type : ValueType) (signature : Nat × Nat × String)
  | unary (type : ValueType) (signature : Nat × String)
  | binary (type : ValueType) (op : BinaryOp)
  | ternary (type : ValueType) (op : TernaryOp)
  | call (type : ValueType) (name : String)
  | lambda (type : ValueType) (body : String)

def head : Term → Head
  | .leaf type l => .leaf type l.signature
  | .unary op type _ => .unary type op.signature
  | .binary op type _ _ => .binary type op
  | .ternary op type _ _ _ => .ternary type op
  | .call type method _ _ => .call type method.name
  | .lambda type _ body => .lambda type body.text

/-- Terms are the same when their heads are equal and their operands the same in pairs. -/
theorem same_iff_head {a b : Term} :
    Term.same a b = true ↔ a.head = b.head ∧ Term.sameAll a.operands b.operands = true := by
  cases a <;> cases b <;>
    simp [Term.same, Term.sameAll, head, operands, Leaf.beq_iff_signature,
      UnaryOp.beq_iff_signature] <;> grind

theorem sizeOf_lt_of_mem_operands {a b : Term} (h : b ∈ a.operands) : sizeOf b < sizeOf a := by
  cases a with
  | leaf => simp [operands] at h
  | unary | binary | ternary => simp [operands] at h; grind
  | call type method receiver arguments =>
    rcases List.mem_cons.mp h with rfl | h
    · simp; omega
    · have := List.sizeOf_lt_of_mem h
      simp; omega
  | lambda type params body =>
    have : sizeOf b < sizeOf params := List.sizeOf_lt_of_mem h
    simp; omega

/-- Induction over a term and its operands. -/
theorem operands_induction {motive : Term → Prop}
    (step : ∀ a, (∀ b ∈ a.operands, motive b) → motive a) (a : Term) : motive a := by
  refine step a fun b h => ?_
  have := sizeOf_lt_of_mem_operands h
  exact operands_induction step b
termination_by sizeOf a

theorem same_refl (a : Term) : Term.same a a = true := by
  induction a using operands_induction with
  | step a ih =>
    have sameAll_self : ∀ as : List Term, (∀ b ∈ as, Term.same b b = true) →
        Term.sameAll as as = true := by
      intro as h
      induction as with
      | nil => rfl
      | cons b as ihs =>
        rw [List.forall_mem_cons] at h
        simp [Term.sameAll, h.1, ihs h.2]
    exact same_iff_head.mpr ⟨rfl, sameAll_self _ ih⟩

theorem same_symm {a b : Term} : Term.same a b = true → Term.same b a = true := by
  induction a using operands_induction generalizing b with
  | step a ih =>
    have sameAll_flip : ∀ as bs : List Term,
        (∀ c ∈ as, ∀ {d : Term}, Term.same c d = true → Term.same d c = true) →
        Term.sameAll as bs = true → Term.sameAll bs as = true := by
      intro as bs h hsame
      induction as generalizing bs with
      | nil => cases bs <;> simp_all [Term.sameAll]
      | cons c as ihs =>
        cases bs with
        | nil => simp [Term.sameAll] at hsame
        | cons d bs =>
          rw [List.forall_mem_cons] at h
          simp only [Term.sameAll, Bool.and_eq_true] at hsame ⊢
          exact ⟨h.1 hsame.1, ihs bs h.2 hsame.2⟩
    intro h
    obtain ⟨hhead, hoperands⟩ := same_iff_head.mp h
    exact same_iff_head.mpr ⟨hhead.symm, sameAll_flip _ _ ih hoperands⟩

theorem same_trans {a b c : Term} :
    Term.same a b = true → Term.same b c = true → Term.same a c = true := by
  induction a using operands_induction generalizing b c with
  | step a ih =>
    have sameAll_compose : ∀ as bs cs : List Term,
        (∀ x ∈ as, ∀ {y z : Term}, Term.same x y = true → Term.same y z = true →
          Term.same x z = true) →
        Term.sameAll as bs = true → Term.sameAll bs cs = true → Term.sameAll as cs = true := by
      intro as bs cs h hab hbc
      induction as generalizing bs cs with
      | nil => cases bs <;> simp_all [Term.sameAll]
      | cons x as ihs =>
        cases bs with
        | nil => simp [Term.sameAll] at hab
        | cons y bs =>
          cases cs with
          | nil => simp [Term.sameAll] at hbc
          | cons z cs =>
            rw [List.forall_mem_cons] at h
            simp only [Term.sameAll, Bool.and_eq_true] at hab hbc ⊢
            exact ⟨h.1 hab.1 hbc.1, ihs bs cs h.2 hab.2 hbc.2⟩
    intro hab hbc
    obtain ⟨hhead, hoperands⟩ := same_iff_head.mp hab
    obtain ⟨khead, koperands⟩ := same_iff_head.mp hbc
    exact same_iff_head.mpr ⟨hhead.trans khead, sameAll_compose _ _ _ ih hoperands koperands⟩

instance : EquivBEq Term where
  rfl := same_refl _
  symm := same_symm
  trans := same_trans

end Term

/-! ## Assertions and clauses -/

section clauses
variable {τ : Type} [BEq τ] [EquivBEq τ]

instance instEquivBEqList : EquivBEq (List τ) where
  symm {as bs} h := by
    induction as generalizing bs with
    | nil => cases bs <;> simp_all
    | cons a as ih =>
      cases bs with
      | nil => simp at h
      | cons b bs =>
        simp only [List.cons_beq_cons, Bool.and_eq_true] at h ⊢
        exact ⟨BEq.symm h.1, ih h.2⟩
  trans {as bs cs} h k := by
    induction as generalizing bs cs with
    | nil => cases bs <;> simp_all
    | cons a as ih =>
      cases bs with
      | nil => simp at h
      | cons b bs =>
        cases cs with
        | nil => simp at k
        | cons c cs =>
          simp only [List.cons_beq_cons, Bool.and_eq_true] at h k ⊢
          exact ⟨BEq.trans h.1 k.1, ih h.2 k.2⟩

namespace Assertion

/-- What an assertion is compared by, its operands aside: its sort and its verb. -/
def shape : Assertion τ → Nat × Option UnaryVerb × Option BinaryVerb
  | .unary verb _ => (0, some verb, none)
  | .binary verb _ _ => (1, none, some verb)
  | .newArray _ _ => (2, none, none)
  | .generate _ _ _ => (3, none, none)

omit [EquivBEq τ] in
theorem beq_iff_shape {a b : Assertion τ} :
    (a == b) = true ↔ a.shape = b.shape ∧ (a.operands == b.operands) = true := by
  change Assertion.same a b = true ↔ _
  cases a <;> cases b <;> simp [Assertion.same, shape, operands] <;> grind

instance : EquivBEq (Assertion τ) where
  rfl := beq_iff_shape.mpr ⟨rfl, BEq.rfl⟩
  symm h := by
    obtain ⟨hshape, hoperands⟩ := beq_iff_shape.mp h
    exact beq_iff_shape.mpr ⟨hshape.symm, BEq.symm hoperands⟩
  trans h k := by
    obtain ⟨hshape, hoperands⟩ := beq_iff_shape.mp h
    obtain ⟨kshape, koperands⟩ := beq_iff_shape.mp k
    exact beq_iff_shape.mpr ⟨hshape.trans kshape, BEq.trans hoperands koperands⟩

end Assertion

namespace Clause

omit [EquivBEq τ] in
theorem beq_iff {p q : Clause τ} :
    (p == q) = true ↔ p.role = q.role ∧ (p.assertion == q.assertion) = true := by
  change (p.role == q.role && p.assertion == q.assertion) = true ↔ _
  simp

instance : EquivBEq (Clause τ) where
  rfl := beq_iff.mpr ⟨rfl, BEq.rfl⟩
  symm h := by
    obtain ⟨hrole, hassertion⟩ := beq_iff.mp h
    exact beq_iff.mpr ⟨hrole.symm, BEq.symm hassertion⟩
  trans h k := by
    obtain ⟨hrole, hassertion⟩ := beq_iff.mp h
    obtain ⟨krole, kassertion⟩ := beq_iff.mp k
    exact beq_iff.mpr ⟨hrole.trans krole, BEq.trans hassertion kassertion⟩

omit [EquivBEq τ] in
theorem isPath_congr {p q : Clause τ} (h : (p == q) = true) : p.isPath = q.isPath := by
  rw [isPath, isPath, (beq_iff.mp h).1]

end Clause
end clauses
end Concolic
