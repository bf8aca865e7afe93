import Concolic.Proofs.BinaryFloat.Finite
import Concolic.Proofs.Folding.Failures
import Concolic.Proofs.Folding.Strings

/-!
# Literals against themselves

A literal denotes the same value as itself unless it is a real number that is not finite. Real
numbers are compared by their difference, and neither an infinity nor what is no number has one
with itself. So folding takes such a literal to differ from itself: what says that the two are
equal is a contradiction, and what says that they are not is kept.

## Main definitions

* `Literal.isFinite` — a literal that is no real number, or a finite one.

## Main statements

* `Folding.literalsEqual?_self` — whether a literal denotes the same value as itself.
* `Folding.run_literals` — a predicate between literals is kept, or reported as it stands.
* `Folding.run_reflexive` — a literal said to be, or not to be, itself.
-/

namespace Concolic

/-- Real numbers are to be finite; there is nothing else that other literals could be. -/
def Literal.isFinite : Literal → Bool
  | .float value => value.isFinite
  | .double value => value.isFinite
  | _ => true

namespace Folding

/-! ## Comparison -/

theorem nearlyEqual_self (x : Double) : nearlyEqual x x = x.isFinite := by
  rw [nearlyEqual, BinaryFloat.sub_self]
  cases x.isFinite <;> decide

theorem numbersEqual_self_of_integral {n : Number} (h : n.isReal = false) :
    numbersEqual n n = true := by
  simp [numbersEqual, h]

theorem literalsEqual?_self (l : Literal) : literalsEqual? l l = some l.isFinite := by
  cases l with
  | float value =>
    have hself : nearlyEqual value.convert value.convert = value.isFinite := by
      rw [nearlyEqual_self, BinaryFloat.isFinite_convert]
    exact congrArg some hself
  | double value => exact congrArg some (nearlyEqual_self value)
  | string value => simp [literalsEqual?, Number.ofLiteral?, Literal.isFinite]
  | «class» named => simp [literalsEqual?, Number.ofLiteral?, Literal.isFinite]
  | null => rfl
  | _ => exact congrArg some (numbersEqual_self_of_integral rfl)

/-! ## Predicates between literals -/

theorem exists_run {s : SymbolicState} (h : failure? s = none) : ∃ s', run s = .ok s' := by
  cases hrun : run s with
  | ok s' => exact ⟨s', rfl⟩
  | error failure =>
    rw [run_eq_error_iff.mp hrun] at h
    cases h

theorem onTerm_literal (l : Literal) (stack : BuilderStack Predicate) (first : Option Failure) :
    ((rules.onTerm false (.literal l)).run stack).run first = ((.literal l, stack), first) := by
  rw [Term.literal, Rules.onTerm]
  rfl

theorem onAssertion_literals (verb : BinaryVerb) (a b : Literal) :
    ((rules.onAssertion false (.binary verb (.literal a) (.literal b))).run {}).run none =
      ((.binary verb (.literal a) (.literal b), {}), none) := by
  rw [Rules.onAssertion]
  simp only [StateT.run_bind, onTerm_literal]
  rfl

theorem settle_self {α : Type} [BEq α] (a : α) : settle a a = a := ite_self a

theorem foldPredicate_literals (role : Role) (verb : BinaryVerb) (a b : Literal)
    (location : Location) :
    foldPredicate ⟨role, .binary verb (.literal a) (.literal b), location⟩ =
      ⟨role, .binary verb (.literal a) (.literal b), location⟩ := by
  rw [foldPredicate, Assertion.map, foldTerm_literal, foldTerm_literal, settle_self]

/-- A predicate between literals is kept as it stands, or reported as a contradiction. -/
theorem run_literals (role : Role) (verb : BinaryVerb) (a b : Literal) (location : Location) :
    let p : Predicate := ⟨role, .binary verb (.literal a) (.literal b), location⟩
    run (.basic [p]) = if isContradiction p then .error (.contradiction p) else .ok (.basic [p]) := by
  intro p
  have hfailure : failure? (.basic [p]) =
      if isContradiction p then some (.contradiction p) else none := by
    have hfolded := failure?_of_folded (onAssertion_literals verb a b) role location
    rwa [settle_self] at hfolded
  split
  · next h => exact run_eq_error_iff.mpr (hfailure.trans (if_pos h))
  · next h =>
    obtain ⟨s, hs⟩ := exists_run (hfailure.trans (if_neg h))
    have hfold : foldState (.basic [p]) = .basic [p] := by
      rw [foldState_basic, List.map_singleton, foldPredicate_literals, settle_self]
    rw [hs, eq_of_run hs, hfold, State.simplify]

/-! ## A literal and itself -/

section

variable (l : Literal) (role : Role) (location : Location)

/-- The predicate that a literal is itself. -/
def isItself : Predicate := ⟨role, .equal (.literal l) (.literal l), location⟩

/-- The predicate that a literal is not itself. -/
def isNotItself : Predicate := ⟨role, .unequal (.literal l) (.literal l), location⟩

theorem isContradiction_isItself : isContradiction (isItself l role location) = !l.isFinite := by
  have hliterals : isContradiction (isItself l role location) =
      (literalsEqual? l l == some false) := rfl
  rw [hliterals, literalsEqual?_self]
  cases l.isFinite <;> rfl

theorem isContradiction_isNotItself :
    isContradiction (isNotItself l role location) = l.isFinite := by
  have hliterals : isContradiction (isNotItself l role location) =
      (literalsEqual? l l == some true) := rfl
  rw [hliterals, literalsEqual?_self]
  cases l.isFinite <;> rfl

/-- **Exactly the literals that are no infinity and not `NaN` are equal to themselves.**  For them
folding accepts that they are themselves and reports a contradiction if they are said not to be.
For the others it is the other way round. -/
theorem run_reflexive :
    literalsEqual? l l = some l.isFinite ∧
    run (.basic [isItself l role location]) =
      (if l.isFinite then .ok (.basic [isItself l role location])
        else .error (.contradiction (isItself l role location))) ∧
    run (.basic [isNotItself l role location]) =
      (if l.isFinite then .error (.contradiction (isNotItself l role location))
        else .ok (.basic [isNotItself l role location])) := by
  have hequal : run (.basic [isItself l role location]) =
      if isContradiction (isItself l role location)
      then .error (.contradiction (isItself l role location))
      else .ok (.basic [isItself l role location]) := run_literals ..
  have hunequal : run (.basic [isNotItself l role location]) =
      if isContradiction (isNotItself l role location)
      then .error (.contradiction (isNotItself l role location))
      else .ok (.basic [isNotItself l role location]) := run_literals ..
  rw [isContradiction_isItself] at hequal
  rw [isContradiction_isNotItself] at hunequal
  refine ⟨literalsEqual?_self l, ?_, hunequal⟩
  rw [hequal]
  cases l.isFinite <;> rfl

end

namespace Overflow

/-- The quotient of one and zero, as a constant. -/
def infinite : Literal := .double (.infinity false)

/-- The assignment of an infinity to itself is taken for a contradiction, and that it differs from
itself is accepted. -/
theorem infinite_contradicts_itself :
    run (.basic [isItself infinite .state {}]) =
      .error (.contradiction (isItself infinite .state {})) ∧
    run (.basic [isNotItself infinite .state {}]) = .ok (.basic [isNotItself infinite .state {}]) := by
  have hinfinite : infinite.isFinite = false := by decide
  constructor
  · refine (run_literals .state .equal infinite infinite {}).trans (if_pos ?_)
    exact (isContradiction_isItself infinite .state {}).trans (by rw [hinfinite]; rfl)
  · refine (run_literals .state .unequal infinite infinite {}).trans (if_neg ?_)
    exact Bool.eq_false_iff.mp ((isContradiction_isNotItself infinite .state {}).trans hinfinite)

end Overflow

end Folding
end Concolic
