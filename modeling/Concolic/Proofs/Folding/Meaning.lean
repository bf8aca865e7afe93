import Concolic.Proofs.Folding.States
import Concolic.Proofs.Term.Literals

/-!
# What folding means for a state

Folding keeps what a state of relations between whole numbers and truth values asks for. The state
that comes out is simplified, and simplifying compares terms by their written forms; so the leaves
that are written alike have to stand for one value.

## Main statements

* `Term.eval_of_same` — terms that are the same have one value.
* `Term.narrow_of_eval` — the value of a well-typed term fits its type.
* `Folding.satisfiedBy_run` — a state and what it folds to are satisfied alike.
-/

namespace Concolic

variable {ν : Valuation}

/-- Leaves that are written alike stand for one value. -/
def Valuation.IsNominal (ν : Valuation) : Prop :=
  ∀ (type : ValueType) (l m : Leaf), (l == m) = true → ν type l = ν type m

namespace Literal

theorem isIntegral_type {l : Literal} (h : (Word.ofLiteral? l).isSome = true) :
    l.type.isIntegral = true := by
  cases l <;> first | rfl | cases h

end Literal

/-! ## Terms that are the same -/

namespace Term

variable {a b : Term}

theorem eval_leaf {type : ValueType} {l : Leaf} (h : ∀ constant, l ≠ .literal constant) :
    eval ν (.leaf type l) = (ν type l).narrow type := by
  cases l with
  | literal constant => exact absurd rfl (h constant)
  | argument | value | result | undefined | statics => rfl

/-- What is written like a literal is a literal. -/
theorem leaf_beq_literal {l : Leaf} {k : Literal} (h : (l == .literal k) = true) :
    ∃ constant, l = .literal constant ∧ constant.text = k.text := by
  rw [Leaf.beq_iff_signature] at h
  cases l with
  | literal constant => exact ⟨constant, rfl, by simpa [Leaf.signature] using h⟩
  | argument | value | result | undefined | statics => simp [Leaf.signature] at h

/-- Terms that are the same have one value. -/
theorem eval_of_same (hν : ν.IsNominal) (ha : a.IsIntegral) (hb : b.IsIntegral)
    (h : Term.same a b = true) : a.eval ν = b.eval ν := by
  induction ha generalizing b with
  | @literal type k hk =>
    cases hb with
    | @literal type' l hl =>
      simp only [Term.same, Bool.and_eq_true] at h
      obtain ⟨_, hconstant, htext⟩ := leaf_beq_literal h.2
      cases hconstant
      rw [eval, eval, Literal.eq_of_text_eq (Literal.isIntegral_type hk)
        (Literal.isIntegral_type hl) htext]
    | leaf _ hleaf =>
      simp only [Term.same, Bool.and_eq_true] at h
      obtain ⟨constant, hconstant, -⟩ := leaf_beq_literal (BEq.symm h.2)
      exact absurd hconstant (hleaf constant)
    | negate | cast | arithmetic | compare | equals | ifThenElse => simp [Term.same] at h
  | leaf _ hleaf =>
    cases hb with
    | literal =>
      simp only [Term.same, Bool.and_eq_true] at h
      obtain ⟨constant, hconstant, -⟩ := leaf_beq_literal h.2
      exact absurd hconstant (hleaf constant)
    | leaf _ hleaf' =>
      simp only [Term.same, Bool.and_eq_true, beq_iff_eq] at h
      rw [eval_leaf hleaf, eval_leaf hleaf', h.1, hν _ _ _ h.2]
    | negate | cast | arithmetic | compare | equals | ifThenElse => simp [Term.same] at h
  | negate _ _ ih =>
    cases hb with
    | negate _ hb =>
      simp only [Term.same, Bool.and_eq_true, beq_iff_eq] at h
      rw [eval, eval, ih hb h.2, h.1.2]
    | cast => simp [Term.same, UnaryOp.beq_iff_signature, UnaryOp.signature] at h
    | literal | leaf | arithmetic | compare | equals | ifThenElse => simp [Term.same] at h
  | cast _ _ ih =>
    cases hb with
    | cast _ hb =>
      simp only [Term.same, Bool.and_eq_true, beq_iff_eq] at h
      rw [eval, eval, ih hb h.2, h.1.2]
    | negate => simp [Term.same, UnaryOp.beq_iff_signature, UnaryOp.signature] at h
    | literal | leaf | arithmetic | compare | equals | ifThenElse => simp [Term.same] at h
  | arithmetic _ _ _ iha ihb =>
    cases hb with
    | arithmetic _ ha hb =>
      simp only [Term.same, Bool.and_eq_true, beq_iff_eq, BinaryOp.arithmetic.injEq] at h
      rw [eval, eval, iha ha h.1.2, ihb hb h.2, h.1.1.1, h.1.1.2]
    | literal | leaf | negate | cast | compare | equals | ifThenElse => simp [Term.same] at h
  | compare _ _ iha ihb =>
    cases hb with
    | compare ha hb =>
      simp only [Term.same, Bool.and_eq_true, beq_iff_eq, BinaryOp.compare.injEq] at h
      rw [eval, eval, iha ha h.1.2, ihb hb h.2, h.1.1.1]
    | literal | leaf | negate | cast | arithmetic | equals | ifThenElse => simp [Term.same] at h
  | equals _ _ iha ihb =>
    cases hb with
    | equals ha hb =>
      simp only [Term.same, Bool.and_eq_true] at h
      rw [eval, eval, iha ha h.1.2, ihb hb h.2]
    | literal | leaf | negate | cast | arithmetic | compare | ifThenElse => simp [Term.same] at h
  | ifThenElse _ _ _ ihcond iha ihb =>
    cases hb with
    | ifThenElse hcond ha hb =>
      simp only [Term.same, Bool.and_eq_true] at h
      rw [eval, eval, ihcond hcond h.1.1.2, iha ha h.1.2, ihb hb h.2]
    | literal | leaf | negate | cast | arithmetic | compare | equals => simp [Term.same] at h

end Term

/-! ## Narrowing

Literals, comparisons and conditionals are not narrowed by `Term.eval`. Where literals have their
own type, comparisons that of their result and alternatives that of their conditional, there is
nothing to narrow. -/

namespace Word

theorem setWidth_signExtend {v w : Nat} (h : v ≤ w) (bits : BitVec v) :
    (bits.signExtend w).setWidth v = bits := by
  refine BitVec.eq_of_getElem_eq fun i hi => ?_
  simp [BitVec.getElem_setWidth, BitVec.getLsbD_signExtend]
  grind

theorem setWidth_setWidth {v w : Nat} (h : v ≤ w) (bits : BitVec v) :
    (bits.setWidth w).setWidth v = bits := by
  rw [BitVec.setWidth_setWidth_of_le _ h, BitVec.setWidth_eq]

theorem narrow_ofBool (b : Bool) : (ofBool b).narrow .bool = some (ofBool b) := by
  cases b <;> rfl

theorem narrow_ofLiteral? {l : Literal} {x : Word} (h : ofLiteral? l = some x) :
    x.narrow l.type = some x := by
  cases l with
  | bool value =>
    obtain rfl := Option.some.inj h
    exact narrow_ofBool value
  | byte | short =>
    obtain rfl := Option.some.inj h
    rw [Literal.type, narrow, low, setWidth_signExtend (by decide)]
  | char =>
    obtain rfl := Option.some.inj h
    rw [Literal.type, narrow, low, setWidth_setWidth (v := 16) (by decide)]
  | int =>
    obtain rfl := Option.some.inj h
    rw [Literal.type, narrow, low, BitVec.setWidth_eq]
  | long =>
    obtain rfl := Option.some.inj h
    rfl
  | null | float | double | string | «class» => cases h

theorem narrow_narrow {x y : Word} {type : ValueType} (h : x.narrow type = some y) :
    y.narrow type = some y := by
  cases type with
  | bool =>
    obtain rfl := Option.some.inj h
    exact narrow_ofBool _
  | byte | short =>
    obtain rfl := Option.some.inj h
    rw [narrow, low, setWidth_signExtend (by decide)]
  | char =>
    obtain rfl := Option.some.inj h
    rw [narrow, low, setWidth_setWidth (v := 16) (by decide)]
  | int =>
    obtain rfl := Option.some.inj h
    rw [narrow, low, BitVec.setWidth_eq]
  | long =>
    obtain rfl := Option.some.inj h
    rfl
  | void | float | double | null | «class» | array | location => cases h

theorem narrow_compare (op : Comparison) (x y : Word) :
    (compare op x y).narrow op.resultType = some (compare op x y) := by
  cases op with
  | eq | neq | lt | gt | le | ge => exact narrow_ofBool _
  | cmp | cmpg | cmpl =>
    simp only [compare, Comparison.resultType, narrow, low, BitVec.setWidth_eq]

end Word

namespace Term

/-- Literals have their own type, comparisons that of their result, and the alternatives of a
conditional have its type. -/
def IsTyped : Term → Prop
  | .leaf type (.literal l) => l.type = type
  | .unary _ _ a => a.IsTyped
  | .binary (.compare op) type a b => op.resultType = type ∧ a.IsTyped ∧ b.IsTyped
  | .binary .equals type a b => .bool = type ∧ a.IsTyped ∧ b.IsTyped
  | .binary _ _ a b => a.IsTyped ∧ b.IsTyped
  | .ternary .ifThenElse type cond a b =>
    a.type = type ∧ b.type = type ∧ cond.IsTyped ∧ a.IsTyped ∧ b.IsTyped
  | _ => True

/-- The value of a well-typed term fits its type. -/
theorem narrow_of_eval {t : Term} {x : Word} (h : t.IsIntegral) (htyped : t.IsTyped)
    (hx : t.eval ν = some x) : x.narrow t.type = some x := by
  induction h generalizing x with
  | literal =>
    rw [IsTyped] at htyped
    subst htyped
    exact Word.narrow_ofLiteral? hx
  | leaf _ hleaf =>
    rw [eval_leaf hleaf] at hx
    exact Word.narrow_narrow hx
  | negate | cast =>
    rw [eval, Option.bind_eq_some_iff] at hx
    obtain ⟨y, -, hx⟩ := hx
    exact Word.narrow_narrow hx
  | arithmetic =>
    simp only [eval, Option.bind_eq_some_iff] at hx
    obtain ⟨y, -, z, -, r, -, hx⟩ := hx
    exact Word.narrow_narrow hx
  | compare =>
    simp only [eval, Option.bind_eq_some_iff, Option.map_eq_some_iff] at hx
    obtain ⟨y, -, z, -, rfl⟩ := hx
    rw [IsTyped] at htyped
    rw [type, ← htyped.1]
    exact Word.narrow_compare _ _ _
  | equals =>
    simp only [eval, Option.bind_eq_some_iff, Option.map_eq_some_iff] at hx
    obtain ⟨y, -, z, -, rfl⟩ := hx
    rw [IsTyped] at htyped
    rw [type, ← htyped.1]
    exact Word.narrow_compare .eq _ _
  | @ifThenElse type cond a b _ _ _ _ iha ihb =>
    rw [IsTyped] at htyped
    obtain ⟨hatype, hbtype, -, ha, hb⟩ := htyped
    rw [eval, Option.bind_eq_some_iff] at hx
    obtain ⟨y, -, hx⟩ := hx
    split at hx
    · exact hbtype ▸ ihb hb hx
    · exact hatype ▸ iha ha hx

end Term

/-! ## States -/

/-- Relations that are the same hold alike. -/
theorem Clause.holds_iff_of_beq {p q : Predicate} (hν : ν.IsNominal) (hp : p.IsIntegral)
    (hq : q.IsIntegral) (h : (p == q) = true) : p.Holds ν ↔ q.Holds ν := by
  obtain ⟨role, verb, a, b, location, rfl, ha, hb⟩ := hp.exists_terms
  obtain ⟨role', verb', c, d, location', rfl, hc, hd⟩ := hq.exists_terms
  obtain ⟨-, _, _, hterms, hac, hbd⟩ := (relation_beq_iff rfl).mp h
  cases hterms
  have hleft := Term.eval_of_same hν ha hc hac
  have hright := Term.eval_of_same hν hb hd hbd
  exact ⟨fun hholds => hholds.congr hleft.symm hright.symm,
    fun hholds => hholds.congr hleft hright⟩

namespace Folding

variable {s s' : SymbolicState}

theorem revise_eq_of_run (h : run s = .ok s') : rules.revise false s none = (s', none) := by
  unfold run at h
  split at h
  · next hrevise =>
    obtain rfl := Except.ok.inj h
    exact hrevise
  · cases h

/-- **Folding keeps what a state asks for.** For relations between whole numbers and truth values,
a state and what it folds to are satisfied alike, whatever the leaves stand for. -/
theorem satisfiedBy_run (hν : ν.IsNominal) (hintegral : ∀ p, s.Occurs p → p.IsIntegral)
    (h : run s = .ok s') : s'.SatisfiedBy (·.Holds ν) ↔ s.SatisfiedBy (·.Holds ν) := by
  have hrevise := congrArg Prod.fst (revise_eq_of_run h)
  obtain ⟨hkeeps, -⟩ := yields_onState hintegral {} none
  have hs' : s' = (((rules.onState false s).run {}).run none).1.1.simplify := hrevise.symm
  rw [hs', State.satisfiedBy_simplify fun p q hp hq =>
    Clause.holds_iff_of_beq hν (hkeeps.integral p hp) (hkeeps.integral q hq)]
  exact hkeeps.satisfiedBy ν

/-- A sum of which one side folds and an alternative that stays as it is. -/
def partlyConstant : SymbolicState := .choice
  [.basic [⟨.path, .unequal (.arithmetic .add .int (.argument .int 0)
      (.arithmetic .mul .int (.int 2) (.int 3))) (.int 7), {}⟩],
    .basic [⟨.path, .equal (.argument .int 0) (.argument .int 1), {}⟩]]

theorem isIntegral_partlyConstant (p : Predicate) (h : partlyConstant.Occurs p) :
    p.IsIntegral := by
  cases h with
  | choice hs hp =>
    simp only [List.mem_cons, List.not_mem_nil, or_false] at hs
    rcases hs with rfl | rfl
    · cases hp with
      | basic hp =>
        obtain rfl := List.mem_singleton.mp hp
        exact .unequal (.arithmetic rfl (.leaf rfl (by simp))
          (.arithmetic rfl (.literal rfl) (.literal rfl))) (.literal rfl)
    · cases hp with
      | basic hp =>
        obtain rfl := List.mem_singleton.mp hp
        exact .equal (.leaf rfl (by simp)) (.leaf rfl (by simp))

theorem satisfiedBy_run_partlyConstant :
    (State.choice [.basic [⟨.path, .unequal (.arithmetic .add .int (.argument .int 0) (.int 6))
        (.int 7), {}⟩],
      .basic [⟨.path, .equal (.argument .int 0) (.argument .int 1), {}⟩]]).SatisfiedBy
        (Clause.Holds fun _ _ => .int 1) ↔
      partlyConstant.SatisfiedBy (Clause.Holds fun _ _ => .int 1) :=
  satisfiedBy_run (fun _ _ _ _ => rfl) isIntegral_partlyConstant rfl

end Folding
end Concolic
