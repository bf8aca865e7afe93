import Concolic.Proofs.Folding.Terms
import Concolic.Proofs.State.Satisfaction
import Mathlib.Data.List.Forall2

/-!
# Folding keeps what a state asks for

The terms of a state are folded in place, so a state of relations between whole numbers and truth
values is folded to one that asks for the same, whatever the leaves stand for. What is reported on
the way is a division by zero, or a contradiction where some predicate never holds.

## Main statements

* `Folding.yields_onTerm` — folding keeps the value of a term.
* `Folding.yields_onState` — folding keeps what a state asks for.
-/

namespace Concolic

/-! ## Relations -/

namespace Clause

/-- A relation between terms over whole numbers and truth values. -/
inductive IsIntegral : Predicate → Prop
  | equal {role : Role} {a b : Term} {location : Location} :
      a.IsIntegral → b.IsIntegral → IsIntegral ⟨role, .equal a b, location⟩
  | unequal {role : Role} {a b : Term} {location : Location} :
      a.IsIntegral → b.IsIntegral → IsIntegral ⟨role, .unequal a b, location⟩

/-- The terms have values, and the relation holds between them. -/
inductive Holds (ν : Valuation) : Predicate → Prop
  | equal {role : Role} {a b : Term} {location : Location} {x y : Word} :
      a.eval ν = some x → b.eval ν = some y → x.toInt = y.toInt →
      Holds ν ⟨role, .equal a b, location⟩
  | unequal {role : Role} {a b : Term} {location : Location} {x y : Word} :
      a.eval ν = some x → b.eval ν = some y → x.toInt ≠ y.toInt →
      Holds ν ⟨role, .unequal a b, location⟩

variable {ν : Valuation} {p q : Predicate} {role role' : Role} {verb : BinaryVerb} {a b a' b' : Term}
  {location location' : Location}

theorem IsIntegral.exists_terms (h : p.IsIntegral) : ∃ role verb a b location,
    p = ⟨role, .binary verb a b, location⟩ ∧ a.IsIntegral ∧ b.IsIntegral := by
  cases h with
  | equal ha hb => exact ⟨_, _, _, _, _, rfl, ha, hb⟩
  | unequal ha hb => exact ⟨_, _, _, _, _, rfl, ha, hb⟩

theorem IsIntegral.congr (h : IsIntegral ⟨role, .binary verb a b, location⟩) (ha : a'.IsIntegral)
    (hb : b'.IsIntegral) : IsIntegral ⟨role', .binary verb a' b', location'⟩ := by
  cases h with
  | equal => exact .equal ha hb
  | unequal => exact .unequal ha hb

/-- A relation holds between terms if it holds between terms of the same values. -/
theorem Holds.congr (h : Holds ν ⟨role, .binary verb a b, location⟩)
    (ha : a'.eval ν = a.eval ν) (hb : b'.eval ν = b.eval ν) :
    Holds ν ⟨role', .binary verb a' b', location'⟩ := by
  cases h with
  | equal hx hy hsame => exact .equal (ha.trans hx) (hb.trans hy) hsame
  | unequal hx hy hdiffer => exact .unequal (ha.trans hx) (hb.trans hy) hdiffer

/-- The predicate is a relation over whole numbers and truth values and holds when the other
does, whatever the leaves stand for. -/
structure Keeps (p old : Predicate) : Prop where
  integral : p.IsIntegral
  holds (ν : Valuation) : p.Holds ν ↔ old.Holds ν

theorem Keeps.refl (h : p.IsIntegral) : p.Keeps p := ⟨h, fun _ => Iff.rfl⟩

/-- A relation between terms that keep their values is kept. -/
theorem keeps_of_terms (h : IsIntegral ⟨role, .binary verb a b, location⟩) (ha : a'.Keeps a)
    (hb : b'.Keeps b) :
    Keeps ⟨role, .binary verb a' b', location⟩ ⟨role, .binary verb a b, location⟩ :=
  ⟨h.congr ha.integral hb.integral, fun ν =>
    ⟨fun hholds => hholds.congr (ha.eval ν).symm (hb.eval ν).symm,
      fun hholds => hholds.congr (ha.eval ν) (hb.eval ν)⟩⟩

end Clause

/-! ## States that ask for the same -/

namespace State

/-- The state is one of relations over whole numbers and truth values and asks for what the other
asks for. -/
structure Keeps (s old : SymbolicState) : Prop where
  integral (p : Predicate) : s.Occurs p → p.IsIntegral
  satisfiedBy (ν : Valuation) : s.SatisfiedBy (·.Holds ν) ↔ old.SatisfiedBy (·.Holds ν)

variable {s t s' t' : SymbolicState} {alternatives alternatives' : List SymbolicState}
  {parts parts' : List Predicate}

theorem Keeps.refl (h : ∀ p, s.Occurs p → p.IsIntegral) : s.Keeps s := ⟨h, fun _ => Iff.rfl⟩

theorem Keeps.basic (h : List.Forall₂ Clause.Keeps parts' parts) :
    (State.basic parts').Keeps (.basic parts) := by
  induction h with
  | nil =>
    refine .refl fun p hp => ?_
    cases hp with
    | basic hmem => cases hmem
  | cons hp _ ih =>
    refine ⟨fun q hq => ?_, fun ν => ?_⟩
    · cases hq with
      | basic hmem =>
        rcases List.mem_cons.mp hmem with rfl | hmem
        · exact hp.integral
        · exact ih.integral q (.basic hmem)
    · have hrest := ih.satisfiedBy ν
      simp only [satisfiedBy_basic, List.forall_mem_cons] at hrest ⊢
      exact and_congr (hp.holds ν) hrest

theorem Keeps.chain (hs : s'.Keeps s) (ht : t'.Keeps t) :
    (State.chain s' t').Keeps (.chain s t) := by
  refine ⟨fun p hp => ?_, fun ν => ?_⟩
  · cases hp with
    | first hp => exact hs.integral p hp
    | second hp => exact ht.integral p hp
  · rw [satisfiedBy_chain, satisfiedBy_chain]
    exact and_congr (hs.satisfiedBy ν) (ht.satisfiedBy ν)

theorem Keeps.choice (h : List.Forall₂ Keeps alternatives' alternatives) :
    (State.choice alternatives').Keeps (.choice alternatives) := by
  refine ⟨fun p hp => ?_, fun ν => satisfiedBy_choice_congr (h.imp fun _ _ hs => hs.satisfiedBy ν)⟩
  cases hp with
  | choice hmem hp =>
    obtain ⟨s, -, hs⟩ := exists_of_forall₂ h _ hmem
    exact hs.integral p hp

end State

namespace Folding

/-! ## Walks that report failures -/

/-- The first failure is kept; if there is none, one of the given sort may be reported. -/
def Reports (may : Failure → Prop) (first last : Option Failure) : Prop :=
  last = first ∨ first = none ∧ ∃ failure, last = some failure ∧ may failure

theorem Reports.trans {may : Failure → Prop} {first next last : Option Failure}
    (h : Reports may first next) (k : Reports may next last) : Reports may first last := by
  rcases h with rfl | ⟨hnone, failure, rfl, hmay⟩
  · exact k
  · rcases k with rfl | ⟨hnone', -⟩
    · exact .inr ⟨hnone, failure, rfl, hmay⟩
    · cases hnone'

theorem Reports.mono {may may' : Failure → Prop} {first last : Option Failure}
    (h : Reports may first last) (hmay : ∀ failure, may failure → may' failure) :
    Reports may' first last :=
  h.imp_right fun ⟨hnone, failure, hlast, hfailure⟩ => ⟨hnone, failure, hlast, hmay _ hfailure⟩

abbrev Walk := Rules.Walk (StateM (Option Failure))

/-- The walk gives a good result and reports nothing but what it may. -/
def Yields {α : Type} (walk : Walk α) (may : Failure → Prop) (good : α → Prop) : Prop :=
  ∀ stack first, good ((walk.run stack).run first).1.1 ∧
    Reports may first ((walk.run stack).run first).2

section

variable {α β : Type} {walk : Walk α} {may may' : Failure → Prop} {good good' : α → Prop}

theorem yields_pure {a : α} (h : good a) : Yields (pure a) may good := fun _ _ => ⟨h, .inl rfl⟩

theorem Yields.bind {next : α → Walk β} {well : β → Prop} (h : Yields walk may good)
    (hnext : ∀ a, good a → Yields (next a) may well) : Yields (walk >>= next) may well := by
  intro stack first
  obtain ⟨hgood, hreports⟩ := h stack first
  obtain ⟨hwell, hlater⟩ := hnext _ hgood ((walk.run stack).run first).1.2
    ((walk.run stack).run first).2
  exact ⟨hwell, hreports.trans hlater⟩

theorem Yields.mono (h : Yields walk may good) (hmay : ∀ failure, may failure → may' failure)
    (hgood : ∀ a, good a → good' a) : Yields walk may' good' := fun stack first =>
  ⟨hgood _ (h stack first).1, (h stack first).2.mono hmay⟩

theorem yields_report {failure : Failure} (h : may failure) :
    Yields (StateT.lift (report failure)) may fun _ => True := by
  intro stack first
  refine ⟨trivial, ?_⟩
  cases first with
  | none => exact .inr ⟨rfl, failure, rfl, h⟩
  | some earlier => exact .inl rfl

end

/-! ## Terms -/

def IsDivision (failure : Failure) : Prop := ∃ op, failure = .zeroDivisor op

/-- A term rebuilt from folded operands and folded itself keeps its value. -/
theorem yields_around {t : Term} {rebuild : Walk Term}
    (h : Yields rebuild IsDivision (·.Keeps t)) :
    Yields (rules.around t rebuild) IsDivision (·.Keeps t) := by
  refine h.bind fun rebuilt hrebuilt => ?_
  rcases isSound_of_isIntegral hrebuilt.integral with ⟨op, hstep⟩ | hstep | ⟨t', hstep, hkeeps⟩
  · rw [rules_term_of_error hstep]
    exact (yields_report ⟨op, rfl⟩).bind fun _ _ => yields_pure hrebuilt
  · rw [rules_term_of_ok hstep]
    exact yields_pure hrebuilt
  · rw [rules_term_of_ok hstep]
    exact yields_pure (hkeeps.trans hrebuilt)

theorem keeps_ite {t old new : Term} {same : Bool} (hold : old.Keeps t) (hnew : new.Keeps t) :
    (if same = true then old else new).Keeps t := by
  cases same with
  | true => exact hold
  | false => exact hnew

/-- Folding keeps the value of a term, and reports no more than divisions by zero. -/
theorem yields_onTerm {t : Term} (h : t.IsIntegral) :
    Yields (rules.onTerm false t) IsDivision (·.Keeps t) := by
  induction h with
  | literal hsome =>
    rw [Rules.onTerm]
    exact yields_around (yields_pure (.refl (.literal hsome)))
  | leaf htype hleaf =>
    rw [Rules.onTerm]
    exact yields_around (yields_pure (.refl (.leaf htype hleaf)))
  | negate htype ha iha =>
    rw [Rules.onTerm]
    refine yields_around (iha.bind fun a' ha' =>
      yields_pure (keeps_ite (.refl (.negate htype ha)) ?_))
    exact ⟨.negate htype ha'.integral, fun ν => by rw [Term.eval, Term.eval, ha'.eval]⟩
  | cast htype ha iha =>
    rw [Rules.onTerm]
    refine yields_around (iha.bind fun a' ha' =>
      yields_pure (keeps_ite (.refl (.cast htype ha)) ?_))
    exact ⟨.cast htype ha'.integral, fun ν => by rw [Term.eval, Term.eval, ha'.eval]⟩
  | arithmetic htype ha hb iha ihb =>
    rw [Rules.onTerm]
    refine yields_around (iha.bind fun a' ha' => ihb.bind fun b' hb' =>
      yields_pure (keeps_ite (.refl (.arithmetic htype ha hb)) ?_))
    exact ⟨.arithmetic htype ha'.integral hb'.integral,
      fun ν => by rw [Term.eval, Term.eval, ha'.eval, hb'.eval]⟩
  | compare ha hb iha ihb =>
    rw [Rules.onTerm]
    refine yields_around (iha.bind fun a' ha' => ihb.bind fun b' hb' =>
      yields_pure (keeps_ite (.refl (.compare ha hb)) ?_))
    exact ⟨.compare ha'.integral hb'.integral,
      fun ν => by rw [Term.eval, Term.eval, ha'.eval, hb'.eval]⟩
  | equals ha hb iha ihb =>
    rw [Rules.onTerm]
    refine yields_around (iha.bind fun a' ha' => ihb.bind fun b' hb' =>
      yields_pure (keeps_ite (.refl (.equals ha hb)) ?_))
    exact ⟨.equals ha'.integral hb'.integral,
      fun ν => by rw [Term.eval, Term.eval, ha'.eval, hb'.eval]⟩
  | ifThenElse hcond ha hb ihcond iha ihb =>
    rw [Rules.onTerm]
    refine yields_around (ihcond.bind fun cond' hcond' => iha.bind fun a' ha' =>
      ihb.bind fun b' hb' => yields_pure (keeps_ite (.refl (.ifThenElse hcond ha hb)) ?_))
    exact ⟨.ifThenElse hcond'.integral ha'.integral hb'.integral,
      fun ν => by rw [Term.eval, Term.eval, hcond'.eval, ha'.eval, hb'.eval]⟩

/-! ## Predicates and states -/

/-- A division by zero, or a contradiction where one of the predicates never holds. -/
def Blames (among : Predicate → Prop) (failure : Failure) : Prop :=
  IsDivision failure ∨ (∃ q, failure = .contradiction q) ∧ ∃ p, among p ∧ ∀ ν, ¬p.Holds ν

theorem Blames.mono {among : Predicate → Prop} (among' : Predicate → Prop)
    (h : ∀ p, among p → among' p) (failure : Failure) : Blames among failure → Blames among' failure :=
  Or.imp_right fun ⟨hq, p, hp, hholds⟩ => ⟨hq, p, h p hp, hholds⟩

/-- A predicate that is a contradiction between literals never holds. -/
theorem not_holds_of_isContradiction {p : Predicate} (h : p.IsIntegral)
    (hp : isContradiction p = true) (ν : Valuation) : ¬p.Holds ν := by
  have hwords {a b : Term} {x y : Word} {outcome : Bool} (ha : a.IsIntegral) (hb : b.IsIntegral)
      (hx : a.eval ν = some x) (hy : b.eval ν = some y)
      (hliterals : ((do literalsEqual? (← a.literal?) (← b.literal?)) : Option Bool) =
        some outcome) : (x.toInt == y.toInt) = outcome := by
    obtain ⟨k, hk, hrest⟩ := Option.bind_eq_some_iff.mp hliterals
    obtain ⟨l, hl, hequal⟩ := Option.bind_eq_some_iff.mp hrest
    obtain ⟨x', hx', hevala⟩ := ha.of_literal? hk
    obtain ⟨y', hy', hevalb⟩ := hb.of_literal? hl
    obtain rfl := Option.some.inj ((hevala ν).symm.trans hx)
    obtain rfl := Option.some.inj ((hevalb ν).symm.trans hy)
    exact Option.some.inj ((literalsEqual?_word hx' hy').symm.trans hequal)
  intro hholds
  cases hholds with
  | equal hx hy hsame =>
    cases h with
    | equal ha hb => simpa [hsame] using hwords ha hb hx hy (beq_iff_eq.mp hp)
  | unequal hx hy hdiffer =>
    cases h with
    | unequal ha hb => simpa [hdiffer] using hwords ha hb hx hy (beq_iff_eq.mp hp)

theorem settle_of {α : Type} [BEq α] (good : α → Prop) {old new : α} (hold : good old)
    (hnew : good new) : good (settle old new) := by
  rw [settle]
  split
  · exact hold
  · exact hnew

/-- Folding keeps a relation, and reports a contradiction only if it never holds. -/
theorem yields_onPredicate {p : Predicate} (h : p.IsIntegral) :
    Yields (rules.onPredicate false p) (Blames (· = p)) fun verdict =>
      ∃ q, verdict = .keep q ∧ q.Keeps p := by
  obtain ⟨role, verb, a, b, location, rfl, ha, hb⟩ := h.exists_terms
  have hdivision := fun failure (hfailure : IsDivision failure) =>
    (Or.inl hfailure : Blames (· = (⟨role, .binary verb a b, location⟩ : Predicate)) failure)
  have hassertion : Yields (rules.onAssertion false (.binary verb a b))
      (Blames (· = ⟨role, .binary verb a b, location⟩)) fun assertion =>
        ∃ a' b', a'.Keeps a ∧ b'.Keeps b ∧ assertion = .binary verb a' b' := by
    rw [Rules.onAssertion]
    exact ((yields_onTerm ha).mono hdivision fun _ h => h).bind fun a' ha' =>
      ((yields_onTerm hb).mono hdivision fun _ h => h).bind fun b' hb' =>
        yields_pure ⟨a', b', ha', hb', rfl⟩
  rw [Rules.onPredicate]
  refine hassertion.bind ?_
  rintro _ ⟨a', b', ha', hb', rfl⟩
  obtain ⟨q, hq, hkeeps⟩ : ∃ q : Predicate,
      q = ⟨role, settle (.binary verb a b) (.binary verb a' b'), location⟩ ∧
        q.Keeps ⟨role, .binary verb a b, location⟩ :=
    ⟨_, rfl, settle_of (fun assertion => Clause.Keeps ⟨role, assertion, location⟩
      ⟨role, .binary verb a b, location⟩) (.refl h) (Clause.keeps_of_terms h ha' hb')⟩
  rw [← hq]
  cases hcontradiction : isContradiction q with
  | false =>
    rw [rules_predicate_of_not_contradiction hcontradiction]
    exact yields_pure ⟨q, rfl, hkeeps⟩
  | true =>
    rw [rules_predicate_of_contradiction hcontradiction]
    have hnever : ∀ ν, ¬Clause.Holds ν ⟨role, .binary verb a b, location⟩ := fun ν hholds =>
      not_holds_of_isContradiction hkeeps.integral hcontradiction ν ((hkeeps.holds ν).mpr hholds)
    exact (yields_report (.inr ⟨⟨q, rfl⟩, _, rfl, hnever⟩)).bind
      fun _ _ => yields_pure ⟨q, rfl, hkeeps⟩

theorem yields_onParts : ∀ {parts : List Predicate}, (∀ p ∈ parts, p.IsIntegral) →
    Yields (rules.onParts false parts) (Blames (· ∈ parts))
      fun parts' => List.Forall₂ Clause.Keeps parts' parts
  | [], _ => by
    rw [Rules.onParts]
    exact yields_pure .nil
  | p :: parts, h => by
    rw [List.forall_mem_cons] at h
    have hp := (yields_onPredicate h.1).mono (Blames.mono (· ∈ p :: parts) (by simp))
      fun _ hv => hv
    have hparts := (yields_onParts h.2).mono
      (Blames.mono (· ∈ p :: parts) fun _ => List.mem_cons_of_mem p) fun _ hv => hv
    rw [Rules.onParts]
    refine hp.bind fun verdict hverdict => ?_
    obtain ⟨q, rfl, hq⟩ := hverdict
    exact hparts.bind fun parts' hparts' => yields_pure (.cons hq hparts')

mutual

/-- Folding keeps what a state asks for, and reports a contradiction only if one of the
predicates never holds. -/
theorem yields_onState : ∀ {s : SymbolicState}, (∀ p, s.Occurs p → p.IsIntegral) →
    Yields (rules.onState false s) (Blames fun p => s.Occurs p) (·.Keeps s)
  | .basic parts, h => by
    rw [Rules.onState]
    have hparts := (yields_onParts fun p hp => h p (.basic hp)).mono
      (Blames.mono (fun p => (State.basic parts).Occurs p) fun _ => .basic) fun _ hv => hv
    exact hparts.bind fun parts' hparts' => yields_pure
      (settle_of (fun parts' => (State.basic parts').Keeps (.basic parts)) (.refl h)
        (.basic hparts'))
  | .chain s t, h => by
    rw [Rules.onState]
    have hs := (yields_onState fun p hp => h p (.first hp)).mono
      (Blames.mono (fun p => (State.chain s t).Occurs p) fun _ => .first) fun _ hv => hv
    have ht := (yields_onState fun p hp => h p (.second hp)).mono
      (Blames.mono (fun p => (State.chain s t).Occurs p) fun _ => .second) fun _ hv => hv
    refine hs.bind fun s' hs' => ht.bind fun t' ht' => yields_pure ?_
    split
    · exact .refl h
    · exact .chain hs' ht'
  | .choice alternatives, h => by
    rw [Rules.onState]
    have hall := (yields_onAlternatives fun s hs p hp => h p (.choice hs hp)).mono
      (Blames.mono (fun p => (State.choice alternatives).Occurs p)
        fun _ ⟨_, hs, hp⟩ => .choice hs hp) fun _ hv => hv
    exact hall.bind fun alternatives' hall' => yields_pure
      (settle_of (fun alternatives' =>
        (State.choice alternatives').Keeps (.choice alternatives)) (.refl h) (.choice hall'))

theorem yields_onAlternatives : ∀ {alternatives : List SymbolicState},
    (∀ s ∈ alternatives, ∀ p, s.Occurs p → p.IsIntegral) →
    Yields (rules.onAlternatives false alternatives)
      (Blames fun p => ∃ s ∈ alternatives, s.Occurs p)
      fun alternatives' => List.Forall₂ State.Keeps alternatives' alternatives
  | [], _ => by
    rw [Rules.onAlternatives]
    exact yields_pure .nil
  | s :: rest, h => by
    rw [List.forall_mem_cons] at h
    have hs := (yields_onState h.1).mono
      (Blames.mono (fun p => ∃ t ∈ s :: rest, t.Occurs p)
        fun _ hp => ⟨s, List.mem_cons_self .., hp⟩) fun _ hv => hv
    have hrest := (yields_onAlternatives h.2).mono
      (Blames.mono (fun p => ∃ t ∈ s :: rest, t.Occurs p)
        fun _ ⟨t, ht, hp⟩ => ⟨t, List.mem_cons_of_mem s ht, hp⟩) fun _ hv => hv
    rw [Rules.onAlternatives]
    exact hs.bind fun s' hs' => hrest.bind fun rest' hrest' => yields_pure (.cons hs' hrest')

end

end Folding
end Concolic
