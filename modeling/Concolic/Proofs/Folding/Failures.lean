import Concolic.Proofs.Folding.Terms
import Concolic.Proofs.Inlining

/-!
# The first failure of folding

Folding meets failures from left to right and reports the first. What it meets in one place does
not depend on what stands elsewhere.

## Main statements

* `Folding.failure?_appends` — the failure of a state that ends in a plain branch.
* `Folding.IsConstant.run_inverse` — the other side of a branch on a constant is a contradiction.
-/

namespace Concolic

namespace Folding

variable {p : Predicate} {s t : SymbolicState}

/-- The first failure that folding meets. -/
def failure? (s : SymbolicState) : Option Failure := (rules.revise false s none).2

theorem run_eq_error_iff {failure : Failure} :
    run s = .error failure ↔ failure? s = some failure := by
  unfold run failure?
  cases rules.revise false s none with
  | mk folded first => cases first <;> simp

/-- The walk leaves the builders alone, and gives the same result and meets the same failures
whatever was reported before; of the failures the first one counts. -/
def Writes {α : Type} (walk : Rules.Walk (StateM (Option Failure)) α) : Prop :=
  ∃ a met, ∀ stack first, (walk.run stack).run first = ((a, stack), Option.or first met)

theorem writes_pure {α : Type} (a : α) : Writes (pure a) :=
  ⟨a, none, fun _ first => by rw [Option.or_none]; rfl⟩

theorem writes_lift {α : Type} {rule : StateM (Option Failure) α}
    (h : ∃ a met, ∀ first, rule.run first = (a, Option.or first met)) :
    Writes (StateT.lift rule) := by
  obtain ⟨a, met, hrule⟩ := h
  refine ⟨a, met, fun stack first => ?_⟩
  have hrun : ((StateT.lift rule : Rules.Walk _ α).run stack).run first =
      (((rule.run first).1, stack), (rule.run first).2) := rfl
  rw [hrun, hrule]

theorem Writes.bind {α β : Type} {walk : Rules.Walk (StateM (Option Failure)) α}
    {next : α → Rules.Walk (StateM (Option Failure)) β} (h : Writes walk)
    (hnext : ∀ a, Writes (next a)) : Writes (walk >>= next) := by
  obtain ⟨a, met, hwalk⟩ := h
  obtain ⟨b, later, hlater⟩ := hnext a
  refine ⟨b, met.or later, fun stack first => ?_⟩
  have hrun : ((walk >>= next).run stack).run first =
      ((next ((walk.run stack).run first).1.1).run ((walk.run stack).run first).1.2).run
        ((walk.run stack).run first).2 := rfl
  rw [hrun, hwalk, hlater, Option.or_assoc]

theorem report_run (failure : Failure) (first : Option Failure) :
    (report failure).run first = ((), first.or (some failure)) := by
  cases first <;> rfl

theorem writes_term (t : Term) : Writes (StateT.lift (rules.term t)) := by
  refine writes_lift ?_
  cases hstep : step? t with
  | ok folded =>
    refine ⟨folded.getD t, none, fun first => ?_⟩
    rw [rules_term_of_ok hstep, Option.or_none]
    rfl
  | error failure =>
    refine ⟨t, some failure, fun first => ?_⟩
    rw [rules_term_of_error hstep, StateT.run_bind, report_run]
    rfl

theorem writes_predicate (p : Predicate) : Writes (StateT.lift (rules.predicate p)) := by
  refine writes_lift ?_
  cases hcontradiction : isContradiction p with
  | false =>
    refine ⟨.keep p, none, fun first => ?_⟩
    rw [rules_predicate_of_not_contradiction hcontradiction, Option.or_none]
    rfl
  | true =>
    refine ⟨.keep p, some (.contradiction p), fun first => ?_⟩
    rw [rules_predicate_of_contradiction hcontradiction, StateT.run_bind, report_run]
    rfl

theorem writes_around (t : Term) {rebuild : Rules.Walk (StateM (Option Failure)) Term}
    (h : Writes rebuild) : Writes (rules.around t rebuild) :=
  h.bind writes_term

mutual

theorem writes_onTerm : ∀ t : Term, t.isFirstOrder = true → Writes (rules.onTerm false t)
  | .leaf type l, _ => by
    rw [Rules.onTerm]
    exact writes_around _ (writes_pure _)
  | .unary op type a, h => by
    rw [Term.isFirstOrder] at h
    rw [Rules.onTerm]
    exact writes_around _ ((writes_onTerm a h).bind fun _ => writes_pure _)
  | .binary op type a b, h => by
    rw [Term.isFirstOrder, Bool.and_eq_true] at h
    rw [Rules.onTerm]
    exact writes_around _ ((writes_onTerm a h.1).bind fun _ => (writes_onTerm b h.2).bind
      fun _ => writes_pure _)
  | .ternary op type a b c, h => by
    rw [Term.isFirstOrder, Bool.and_eq_true, Bool.and_eq_true] at h
    rw [Rules.onTerm]
    exact writes_around _ ((writes_onTerm a h.1.1).bind fun _ => (writes_onTerm b h.1.2).bind
      fun _ => (writes_onTerm c h.2).bind fun _ => writes_pure _)
  | .call type method receiver arguments, h => by
    rw [Term.isFirstOrder, Bool.and_eq_true] at h
    rw [Rules.onTerm]
    refine writes_around _ ((writes_onTerm receiver h.1).bind fun _ =>
      (writes_onTerms arguments h.2).bind fun _ => ?_)
    split <;> exact writes_pure _

theorem writes_onTerms : ∀ ts : List Term, Term.areFirstOrder ts = true →
    Writes (rules.onTerms false ts)
  | [], _ => by
    rw [Rules.onTerms]
    exact writes_pure _
  | t :: rest, h => by
    rw [Term.areFirstOrder, Bool.and_eq_true] at h
    rw [Rules.onTerms]
    exact (writes_onTerm t h.1).bind fun _ => (writes_onTerms rest h.2).bind
      fun _ => writes_pure _

end

theorem writes_onParts (hp : p.IsPlain) : Writes (rules.onParts false [p]) := by
  obtain ⟨role, verb, a, b, location, rfl, -, ha, hb⟩ := hp.exists_terms
  rw [Rules.onParts, Rules.onPredicate, Rules.onAssertion]
  refine Writes.bind (Writes.bind ((writes_onTerm a ha).bind fun _ => (writes_onTerm b hb).bind
    fun _ => writes_pure _) fun _ => writes_predicate _) fun verdict => ?_
  split
  · exact (writes_pure _).bind fun _ => (writes_pure _).bind fun _ => writes_pure _
  · exact writes_pure _
  · exact (writes_pure _).bind fun _ => writes_pure _

theorem failure?_singleton (p : Predicate) :
    failure? (.basic [p]) = (((rules.onParts false [p]).run {}).run none).2 := by
  unfold failure? Rules.revise
  rw [Rules.onState]
  rfl

/-- Folding a state with a plain branch at its end fails as folding the state does, or else as
folding the branch by itself. -/
theorem failure?_appends (hp : p.IsPlain) (h : s.Appends p t) :
    failure? t = (failure? s).or (failure? (.basic [p])) := by
  obtain ⟨parts, met, hparts⟩ := writes_onParts hp
  have hwalk := congrArg (fun walk : Rules.Walk (StateM (Option Failure)) Unit =>
    ((walk.run {}).run none).2) (Rules.onState_appends rules false h)
  have hbehind : failure? t = ((((rules.onParts false [p]).run
      (((rules.onState false s).run {}).run none).1.2).run (failure? s))).2 := hwalk
  rw [hbehind, failure?_singleton, hparts, hparts, Option.none_or]

/-! ## Constant branches -/

/-- The condition folds to a truth value, and nothing fails on the way. -/
def IsConstant (condition : Term) (value : Bool) : Prop :=
  rules.reviseTerm condition none = (.bool value, none)

theorem IsConstant.onTerm_run {condition : Term} {value : Bool} (h : IsConstant condition value)
    (hfirst : condition.isFirstOrder = true) (stack : BuilderStack Predicate)
    (first : Option Failure) :
    ((rules.onTerm false condition).run stack).run first = ((.bool value, stack), first) := by
  obtain ⟨a, met, hrun⟩ := writes_onTerm condition hfirst
  have hrevise : rules.reviseTerm condition none = (a, met) := by
    have hstart : rules.reviseTerm condition none =
        let out := ((rules.onTerm false condition).run {}).run none
        (out.1.1, out.2) := rfl
    rw [hstart, hrun, Option.none_or]
  obtain ⟨rfl, rfl⟩ := Prod.mk.inj (hrevise.symm.trans h)
  rw [hrun, Option.or_none]

/-- What is written as a truth value is not equal to the other one. -/
theorem isContradiction_of_literals {role : Role} {a : Term} {value : Bool} {location : Location}
    (ha : a.literal? = some (.bool value)) :
    isContradiction ⟨role, .equal a (.bool !value), location⟩ = true := by
  have hb : (Term.bool !value).literal? = some (.bool !value) := rfl
  have hdiffer : literalsEqual? (.bool value) (.bool !value) = some false := by
    cases value <;> rfl
  simp [isContradiction, ha, hb, hdiffer]

/-- A constant condition, folded or left as it is written, differs from the other truth value. -/
theorem isContradiction_settle (role : Role) (condition : Term) (value : Bool)
    (location : Location) : isContradiction ⟨role, settle (.equal condition (.bool !value))
      (.equal (.bool value) (.bool !value)), location⟩ = true := by
  rw [settle]
  split
  · next hsame =>
    -- The condition is written as the truth value that it folds to.
    change (BinaryVerb.equal == .equal && Term.bool value == condition && _) = true at hsame
    rw [Bool.and_eq_true, Bool.and_eq_true] at hsame
    exact isContradiction_of_literals (Term.literal?_eq_bool_of_same hsame.1.2 rfl)
  · exact isContradiction_of_literals rfl

/-- A predicate whose terms fold without a failure is reported if it comes out as a
contradiction. -/
theorem failure?_of_folded {assertion folded : Assertion Term}
    (hfolded : ((rules.onAssertion false assertion).run {}).run none = ((folded, {}), none))
    (role : Role) (location : Location) :
    failure? (.basic [⟨role, assertion, location⟩]) =
      if isContradiction ⟨role, settle assertion folded, location⟩
      then some (.contradiction ⟨role, settle assertion folded, location⟩) else none := by
  have hrun : ((rules.onPredicate false ⟨role, assertion, location⟩).run {}).run none =
      let out := ((rules.onAssertion false assertion).run {}).run none
      ((StateT.lift (rules.predicate ⟨role, settle assertion out.1.1, location⟩)).run
        out.1.2).run out.2 := by
    rw [Rules.onPredicate]
    rfl
  rw [hfolded] at hrun
  dsimp only at hrun
  rw [failure?_singleton, Rules.onParts]
  split
  · next h =>
    rw [rules_predicate_of_contradiction h] at hrun
    simp only [StateT.run_bind, hrun]
    rfl
  · next h =>
    rw [rules_predicate_of_not_contradiction (Bool.eq_false_iff.mpr h)] at hrun
    simp only [StateT.run_bind, hrun]
    rfl

/-- A predicate that folds to a contradiction is reported. -/
theorem failure?_of_contradiction {role : Role} {assertion folded : Assertion Term}
    {location : Location}
    (hfolded : ((rules.onAssertion false assertion).run {}).run none = ((folded, {}), none))
    (h : isContradiction ⟨role, settle assertion folded, location⟩ = true) :
    failure? (.basic [⟨role, assertion, location⟩]) =
      some (.contradiction ⟨role, settle assertion folded, location⟩) := by
  rw [failure?_of_folded hfolded role location, if_pos h]

/-- The other side of a branch on a constant is a contradiction. -/
theorem IsConstant.run_inverse {condition : Term} {value : Bool} (h : IsConstant condition value)
    (hfirst : condition.isFirstOrder = true) (role : Role) (location : Location) :
    ∃ q, run (.basic [Clause.inverse ⟨role, .equal condition (.bool value), location⟩]) =
      .error (.contradiction q) := by
  have hfolded : ((rules.onAssertion false (.equal condition (.bool !value))).run {}).run none =
      ((.equal (.bool value) (.bool !value), {}), none) := by
    rw [Rules.onAssertion]
    simp only [StateT.run_bind, h.onTerm_run hfirst]
    rfl
  rw [Clause.inverse_equal_bool rfl rfl]
  exact ⟨_, run_eq_error_iff.mpr
    (failure?_of_contradiction hfolded (isContradiction_settle role condition value location))⟩

end Folding
end Concolic
