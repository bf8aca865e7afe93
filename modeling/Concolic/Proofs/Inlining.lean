import Concolic.Inlining
import Concolic.Proofs.State.Appending
import Concolic.Proofs.Term.Inverse

/-!
# Inlining in front of a branch

Nothing is inlined in a relation between terms without functions. A state that ends in such a
branch becomes what the state before it becomes, with the branch still at its end.

## Main statement

* `Inlining.rounds_appends` — inlining keeps a plain branch at the end.
-/

namespace Concolic

/-! ## Branches without functions -/

mutual

/-- No function stands in the term. -/
def Term.isFirstOrder : Term → Bool
  | .leaf _ _ => true
  | .unary _ _ a => a.isFirstOrder
  | .binary _ _ a b => a.isFirstOrder && b.isFirstOrder
  | .ternary _ _ a b c => a.isFirstOrder && b.isFirstOrder && c.isFirstOrder
  | .call _ _ receiver arguments => receiver.isFirstOrder && Term.areFirstOrder arguments
  | .lambda _ _ _ => false

def Term.areFirstOrder : List Term → Bool
  | [] => true
  | t :: rest => t.isFirstOrder && Term.areFirstOrder rest

end

theorem Term.areFirstOrder_iff {ts : List Term} :
    areFirstOrder ts = true ↔ ∀ t ∈ ts, t.isFirstOrder = true := by
  induction ts with
  | nil => simp [areFirstOrder]
  | cons t ts ih => rw [areFirstOrder, Bool.and_eq_true, ih, List.forall_mem_cons]

namespace Clause

variable {p : Predicate}

/-- An equality or an inequality between terms without functions. -/
structure IsPlain (p : Predicate) : Prop where
  relation : p.IsRelation
  firstOrder : Term.areFirstOrder p.operands = true

instance (p : Predicate) : Decidable p.IsPlain :=
  decidable_of_iff (p.IsRelation ∧ Term.areFirstOrder p.operands = true)
    ⟨fun h => ⟨h.1, h.2⟩, fun h => ⟨h.relation, h.firstOrder⟩⟩

theorem IsPlain.exists_terms (h : p.IsPlain) : ∃ role verb a b location,
    p = ⟨role, .binary verb a b, location⟩ ∧ (verb = .equal ∨ verb = .unequal) ∧
      a.isFirstOrder = true ∧ b.isFirstOrder = true := by
  obtain ⟨role, assertion, location⟩ := p
  have hterms := h.firstOrder
  obtain ⟨a, b, hequal | hunequal⟩ := isRelation_iff.mp h.relation
  · obtain rfl : assertion = .equal a b := hequal
    simp only [operands, Assertion.operands, Term.areFirstOrder, Bool.and_eq_true] at hterms
    exact ⟨role, .equal, a, b, location, rfl, .inl rfl, hterms.1, hterms.2.1⟩
  · obtain rfl : assertion = .unequal a b := hunequal
    simp only [operands, Assertion.operands, Term.areFirstOrder, Bool.and_eq_true] at hterms
    exact ⟨role, .unequal, a, b, location, rfl, .inr rfl, hterms.1, hterms.2.1⟩

theorem isPlain_binary {role : Role} {verb : BinaryVerb} {a b : Term} {location : Location}
    (hverb : verb = .equal ∨ verb = .unequal) (ha : a.isFirstOrder = true)
    (hb : b.isFirstOrder = true) : IsPlain ⟨role, .binary verb a b, location⟩ := by
  refine ⟨isRelation_iff.mpr ⟨a, b, ?_⟩, ?_⟩
  · rcases hverb with rfl | rfl
    · exact .inl rfl
    · exact .inr rfl
  · simp [operands, Assertion.operands, Term.areFirstOrder, ha, hb]

theorem IsPlain.inverse (h : p.IsPlain) : p.inverse.IsPlain := by
  obtain ⟨role, verb, a, b, location, rfl, rfl | rfl, ha, hb⟩ := h.exists_terms
  · by_cases hvalue : ∃ value, b.literal? = some (.bool value)
    · obtain ⟨value, hvalue⟩ := hvalue
      rw [inverse_equal_bool rfl hvalue]
      exact isPlain_binary (.inl rfl) ha rfl
    · rw [inverse_equal rfl fun value hb => hvalue ⟨value, hb⟩]
      exact isPlain_binary (.inr rfl) ha hb
  · rw [inverse_unequal rfl]
    exact isPlain_binary (.inl rfl) ha hb

end Clause

namespace Rules

variable {m : Type → Type} [Monad m] [LawfulMonad m] {R : Rules m} {recollecting : Bool}

theorem lift_pure {σ α : Type} (a : α) : (StateT.lift (pure a) : StateT σ m α) = pure a :=
  StateT.ext fun _ => by simp

/-- Rules that leave terms alone are not seen by them. -/
theorem around_of_inert (hshortcut : ∀ t, R.shortcut t = none) (hterm : ∀ t, R.term t = pure t)
    (t : Term) (rebuild : Walk m Term) : R.around t rebuild = rebuild := by
  simp [around, hshortcut, hterm, lift_pure]

mutual

theorem onTerm_of_inert (hshortcut : ∀ t, R.shortcut t = none)
    (hterm : ∀ t, R.term t = pure t) :
    ∀ t : Term, t.isFirstOrder = true → R.onTerm recollecting t = pure t
  | .leaf type l, _ => by rw [onTerm, around_of_inert hshortcut hterm]
  | .unary op type a, h => by
    rw [Term.isFirstOrder] at h
    rw [onTerm, around_of_inert hshortcut hterm, onTerm_of_inert hshortcut hterm a h]
    simp
  | .binary op type a b, h => by
    rw [Term.isFirstOrder, Bool.and_eq_true] at h
    rw [onTerm, around_of_inert hshortcut hterm, onTerm_of_inert hshortcut hterm a h.1,
      onTerm_of_inert hshortcut hterm b h.2]
    simp
  | .ternary op type a b c, h => by
    rw [Term.isFirstOrder, Bool.and_eq_true, Bool.and_eq_true] at h
    rw [onTerm, around_of_inert hshortcut hterm, onTerm_of_inert hshortcut hterm a h.1.1,
      onTerm_of_inert hshortcut hterm b h.1.2, onTerm_of_inert hshortcut hterm c h.2]
    simp
  | .call type method receiver arguments, h => by
    rw [Term.isFirstOrder, Bool.and_eq_true] at h
    rw [onTerm, around_of_inert hshortcut hterm, onTerm_of_inert hshortcut hterm receiver h.1,
      onTerms_of_inert hshortcut hterm arguments h.2]
    simp

theorem onTerms_of_inert (hshortcut : ∀ t, R.shortcut t = none)
    (hterm : ∀ t, R.term t = pure t) :
    ∀ ts : List Term, Term.areFirstOrder ts = true → R.onTerms recollecting ts = pure ts
  | [], _ => by rw [onTerms]
  | t :: rest, h => by
    rw [Term.areFirstOrder, Bool.and_eq_true] at h
    rw [onTerms, onTerm_of_inert hshortcut hterm t h.1, onTerms_of_inert hshortcut hterm rest h.2]
    simp

end

end Rules

/-! ## Rounds -/

namespace Inlining

variable {p : Predicate} {s t : SymbolicState}

/-- A plain branch is sent to the builder in use as it is. -/
theorem onParts_plain (S : Setting) (hp : p.IsPlain) : (rules S).onParts true [p] = do
    modify fun stack => stack.onTop (·.push p)
    return [p] := by
  obtain ⟨role, verb, a, b, location, rfl, hverb, ha, hb⟩ := hp.exists_terms
  have hcall : callOf? ⟨role, .binary verb a b, location⟩ = none := by
    rcases hverb with rfl | rfl <;> rfl
  have hkeep : (rules S).predicate ⟨role, .binary verb a b, location⟩ =
      pure (.keep ⟨role, .binary verb a b, location⟩) := by
    simp only [rules, hcall]
  have hsettle : settle (Assertion.binary verb a b) (.binary verb a b) = .binary verb a b :=
    ite_self _
  rw [Rules.onParts, Rules.onPredicate, Rules.onAssertion,
    Rules.onTerm_of_inert (fun _ => rfl) (fun _ => rfl) a ha,
    Rules.onTerm_of_inert (fun _ => rfl) (fun _ => rfl) b hb]
  simp only [pure_bind, hsettle, hkeep, Rules.lift_pure, Rules.build, if_pos, Rules.onParts]

/-- Two states, the second with a part more at its end, or the same failure twice. -/
inductive Aligned (p : Predicate) :
    Except Failure SymbolicState → Except Failure SymbolicState → Prop
  | ok {s t : SymbolicState} : s.Appends p t → Aligned p (.ok s) (.ok t)
  | error (failure : Failure) : Aligned p (.error failure) (.error failure)

theorem appends_topState_push (stack : BuilderStack Predicate) (p : Predicate) :
    State.Appends p stack.topState.simplify (stack.onTop (·.push p)).topState.simplify := by
  obtain ⟨_ | ⟨top, below⟩⟩ := stack
  · exact StateBuilder.appends_push {} p
  · exact top.appends_push p

/-- A round over a state. -/
def walked (S : Setting) (next : Nat) (names : NameSupply) (s : SymbolicState) :
    ((SymbolicState × BuilderStack Predicate) × Round) × NameSupply :=
  ((((rules S).onState true s).run {}).run { next }).run names

theorem round_run (S : Setting) (next : Nat) (s : SymbolicState) (names : NameSupply) :
    (round S next s).run names =
      let out := walked S next names s
      ((out.1.2.failure.elim (.ok out.1.1.2.topState.simplify) .error, out.1.2), out.2) := rfl

/-- The walk over a state with a plain branch at its end sends that branch last. -/
theorem walked_appends (S : Setting) (hp : p.IsPlain) (h : s.Appends p t) (next : Nat)
    (names : NameSupply) :
    (walked S next names t).1.1.2 = (walked S next names s).1.1.2.onTop (·.push p) ∧
      (walked S next names t).1.2 = (walked S next names s).1.2 ∧
      (walked S next names t).2 = (walked S next names s).2 := by
  have hwalk := Rules.onState_appends (rules S) true h
  rw [onParts_plain S hp] at hwalk
  have hrun := congrArg (fun walk : Rules.Walk Effects Unit =>
    ((walk.run {}).run { next }).run names) hwalk
  exact ⟨congrArg (·.1.1.2) hrun, congrArg (·.1.2) hrun, congrArg (·.2) hrun⟩

/-- A round does to a state with a plain branch at its end what it does to the state, and the
branch stays at the end. -/
theorem round_appends (S : Setting) (hp : p.IsPlain) (h : s.Appends p t) (next : Nat)
    (names : NameSupply) :
    Aligned p ((round S next s).run names).1.1 ((round S next t).run names).1.1 ∧
      ((round S next t).run names).1.2 = ((round S next s).run names).1.2 ∧
      ((round S next t).run names).2 = ((round S next s).run names).2 := by
  obtain ⟨hstack, hprogress, hnames⟩ := walked_appends S hp h next names
  rw [round_run, round_run]
  dsimp only
  rw [hstack, hprogress, hnames]
  refine ⟨?_, rfl, rfl⟩
  cases (walked S next names s).1.2.failure with
  | none => exact .ok (appends_topState_push _ p)
  | some failure => exact .error failure

theorem rounds_of_error {S : Setting} {next : Nat} {names names' : NameSupply} {progress : Round}
    {failure : Failure}
    (h : (round S next s).run names = ((.error failure, progress), names')) (depth : Nat) :
    (rounds S (depth + 1) next s).run names = (.error failure, names') := by
  rw [rounds, StateT.run_bind, h]
  rfl

/-- Rounds end when one of them has found nothing to inline. -/
theorem rounds_of_ok {S : Setting} {next : Nat} {names names' : NameSupply} {progress : Round}
    {inlined : SymbolicState}
    (h : (round S next s).run names = ((.ok inlined, progress), names')) (depth : Nat) :
    (rounds S (depth + 1) next s).run names =
      if progress.inlined = 0 then (.ok inlined, names')
      else (rounds S depth progress.next inlined).run names' := by
  rw [rounds, StateT.run_bind, h]
  change (if progress.inlined = 0 then pure (.ok inlined)
    else rounds S depth progress.next inlined : StateM NameSupply _).run names' = _
  by_cases hdone : progress.inlined = 0
  · rw [if_pos hdone, if_pos hdone]
    rfl
  · rw [if_neg hdone, if_neg hdone]

/-- Any number of rounds keeps the branch at the end. -/
theorem rounds_appends (S : Setting) (hp : p.IsPlain) (h : s.Appends p t) (depth next : Nat)
    (names : NameSupply) :
    Aligned p ((rounds S depth next s).run names).1 ((rounds S depth next t).run names).1 := by
  induction depth generalizing next s t names with
  | zero => exact .ok h
  | succ depth ih =>
    obtain ⟨haligned, hprogress, hnames⟩ := round_appends S hp h next names
    cases hs : (round S next s).run names with
    | mk out names' =>
      cases ht : (round S next t).run names with
      | mk out' names'' =>
        obtain ⟨result, progress⟩ := out
        obtain ⟨result', progress'⟩ := out'
        rw [hs, ht] at haligned hprogress hnames
        obtain rfl : progress' = progress := hprogress
        obtain rfl : names'' = names' := hnames
        have haligned : Aligned p result result' := haligned
        cases haligned with
        | error failure =>
          rw [rounds_of_error hs, rounds_of_error ht]
          exact .error failure
        | ok happends =>
          rw [rounds_of_ok hs, rounds_of_ok ht]
          split
          · exact .ok happends
          · exact ih happends _ _

end Inlining
end Concolic
