import Concolic.Proofs.Folding.Terms

/-!
# What folding gives

Folding walks over terms and states with builders that it does not use and a failure that it only
remembers. The result depends on neither, so it is a function of what is folded. It is given here
by equations, one for each way to build a term or a state.

## Main definitions

* `foldPredicate`, `foldState` — the results for predicates and states, beside that for terms.
* `settled` — a term put through one step of folding, or left if that fails.
-/

namespace Concolic.Folding

open Rules

/-! ## Walks with a result of their own -/

/-- The walk gives this result, whatever the builders hold and whatever was reported before. -/
def Gives {α : Type} (walk : Rules.Walk (StateM (Option Failure)) α) (a : α) : Prop :=
  ∀ stack first, ((walk.run stack).run first).1.1 = a

/-- The result of a walk from the start. -/
def value {α : Type} (walk : Rules.Walk (StateM (Option Failure)) α) : α :=
  ((walk.run {}).run none).1.1

/-- The walk gives the same result from everywhere. -/
abbrev Steady {α : Type} (walk : Rules.Walk (StateM (Option Failure)) α) : Prop :=
  Gives walk (value walk)

section

variable {α β : Type} {walk : Rules.Walk (StateM (Option Failure)) α}
  {next : α → Rules.Walk (StateM (Option Failure)) β} {a : α} {b : β}

theorem Gives.value_eq (h : Gives walk a) : value walk = a := h {} none

theorem Gives.steady (h : Gives walk a) : Steady walk := by
  rwa [Steady, h.value_eq]

theorem gives_pure (a : α) : Gives (pure a) a := fun _ _ => rfl

theorem steady_pure (a : α) : Steady (pure a) := gives_pure a

theorem gives_lift {rule : StateM (Option Failure) α} (h : ∀ first, (rule.run first).1 = a) :
    Gives (StateT.lift rule) a := fun _ first => h first

theorem Gives.bind (h : Gives walk a) (hnext : Gives (next a) b) : Gives (walk >>= next) b := by
  intro stack first
  have hrun : (((walk >>= next).run stack).run first).1.1 =
      (((next ((walk.run stack).run first).1.1).run ((walk.run stack).run first).1.2).run
        ((walk.run stack).run first).2).1.1 := rfl
  rw [hrun, h, hnext]

theorem Steady.bind (h : Steady walk) (hnext : ∀ a, Steady (next a)) : Steady (walk >>= next) :=
  (Gives.bind h (hnext _)).steady

end

/-! ## One step -/

/-- The term that a term with folded operands folds to; after a failure the term itself. -/
def settled (t : Term) : Term :=
  match step? t with
  | .ok folded => folded.getD t
  | .error _ => t

theorem run_term (t : Term) (first : Option Failure) :
    ((rules.term t).run first).1 = settled t := by
  unfold settled
  cases hstep : step? t with
  | ok folded =>
    rw [rules_term_of_ok hstep]
    rfl
  | error failure =>
    rw [rules_term_of_error hstep]
    rfl

theorem run_predicate (p : Predicate) (first : Option Failure) :
    ((rules.predicate p).run first).1 = .keep p := by
  cases hcontradiction : isContradiction p with
  | false =>
    rw [rules_predicate_of_not_contradiction hcontradiction]
    rfl
  | true =>
    rw [rules_predicate_of_contradiction hcontradiction]
    rfl

theorem gives_around (t : Term) {rebuilt : Term}
    {rebuild : Rules.Walk (StateM (Option Failure)) Term} (h : Gives rebuild rebuilt) :
    Gives (rules.around t rebuild) (settled rebuilt) :=
  h.bind (gives_lift (run_term rebuilt))

theorem gives_predicate (p : Predicate) : Gives (StateT.lift (rules.predicate p)) (.keep p) :=
  gives_lift (run_predicate p)

theorem steady_around (t : Term) {rebuild : Rules.Walk (StateM (Option Failure)) Term}
    (h : Steady rebuild) : Steady (rules.around t rebuild) := (gives_around t h).steady

theorem steady_predicate (p : Predicate) : Steady (StateT.lift (rules.predicate p)) :=
  (gives_predicate p).steady

/-! ## All walks -/

mutual

theorem steady_onTerm : ∀ t : Term, Steady (rules.onTerm false t)
  | .leaf type l => by
    rw [onTerm]
    exact steady_around _ (steady_pure _)
  | .unary op type a => by
    rw [onTerm]
    exact steady_around _ ((steady_onTerm a).bind fun _ => steady_pure _)
  | .binary op type a b => by
    rw [onTerm]
    exact steady_around _ ((steady_onTerm a).bind fun _ => (steady_onTerm b).bind
      fun _ => steady_pure _)
  | .ternary op type a b c => by
    rw [onTerm]
    exact steady_around _ ((steady_onTerm a).bind fun _ => (steady_onTerm b).bind
      fun _ => (steady_onTerm c).bind fun _ => steady_pure _)
  | .call type method receiver arguments => by
    rw [onTerm]
    exact steady_around _ ((steady_onTerm receiver).bind fun _ => (steady_onTerms arguments).bind
      fun _ => steady_pure _)
  | .lambda type params body => by
    rw [onTerm]
    exact steady_around _ ((steady_onTerms params).bind fun _ => (steady_onState body).bind
      fun _ => steady_pure _)

theorem steady_onTerms : ∀ ts : List Term, Steady (rules.onTerms false ts)
  | [] => by
    rw [onTerms]
    exact steady_pure _
  | t :: rest => by
    rw [onTerms]
    exact (steady_onTerm t).bind fun _ => (steady_onTerms rest).bind fun _ => steady_pure _

theorem steady_onAssertion : ∀ a : Assertion Term, Steady (rules.onAssertion false a)
  | .unary verb a => by
    rw [onAssertion]
    exact (steady_onTerm a).bind fun _ => steady_pure _
  | .binary verb a b => by
    rw [onAssertion]
    exact (steady_onTerm a).bind fun _ => (steady_onTerm b).bind fun _ => steady_pure _
  | .newArray array dimensions => by
    rw [onAssertion]
    exact (steady_onTerm array).bind fun _ => (steady_onTerms dimensions).bind
      fun _ => steady_pure _
  | .generate array length generator => by
    rw [onAssertion]
    exact (steady_onTerm array).bind fun _ => (steady_onTerm length).bind
      fun _ => (steady_onTerm generator).bind fun _ => steady_pure _

theorem steady_onPredicate : ∀ p : Predicate, Steady (rules.onPredicate false p)
  | ⟨role, assertion, location⟩ => by
    rw [onPredicate]
    exact (steady_onAssertion assertion).bind fun _ => steady_predicate _

theorem steady_onParts : ∀ parts : List Predicate, Steady (rules.onParts false parts)
  | [] => by
    rw [onParts]
    exact steady_pure _
  | p :: rest => by
    rw [onParts]
    refine (steady_onPredicate p).bind fun verdict => ?_
    cases verdict with
    | keep q =>
      exact (steady_pure ()).bind fun _ => (steady_onParts rest).bind fun _ => steady_pure _
    | elide => exact steady_onParts rest
    | splice add => exact (steady_pure ()).bind fun _ => steady_onParts rest

theorem steady_onState : ∀ s : SymbolicState, Steady (rules.onState false s)
  | .basic parts => by
    rw [onState]
    exact (steady_onParts parts).bind fun _ => steady_pure _
  | .chain first second => by
    rw [onState]
    exact (steady_onState first).bind fun _ => (steady_onState second).bind fun _ => steady_pure _
  | .choice alternatives => by
    rw [onState]
    exact (steady_onAlternatives alternatives).bind fun _ => (steady_pure ()).bind
      fun _ => steady_pure _

theorem steady_onAlternatives : ∀ alternatives : List SymbolicState,
    Steady (rules.onAlternatives false alternatives)
  | [] => by
    rw [onAlternatives]
    exact steady_pure _
  | s :: rest => by
    rw [onAlternatives]
    exact (steady_onState s).bind fun _ => (steady_onAlternatives rest).bind
      fun _ => steady_pure _

end

/-! ## Equations -/

/-- The predicate with folded terms, or itself if these are the same. -/
def foldPredicate (p : Predicate) : Predicate :=
  ⟨p.role, settle p.assertion (p.assertion.map foldTerm), p.location⟩

/-- The state that a state folds to, before it is simplified. -/
def foldState (s : SymbolicState) : SymbolicState := value (rules.onState false s)

theorem value_onTerm (t : Term) : value (rules.onTerm false t) = foldTerm t := rfl

theorem foldTerm_leaf (type : ValueType) (l : Leaf) :
    foldTerm (.leaf type l) = .leaf type l := by
  rw [← value_onTerm, onTerm]
  exact (gives_around _ (gives_pure _)).value_eq

theorem foldTerm_unary (op : UnaryOp) (type : ValueType) (a : Term) :
    foldTerm (.unary op type a) =
      settled (if foldTerm a == a then .unary op type a else .unary op type (foldTerm a)) := by
  rw [← value_onTerm, onTerm]
  exact (gives_around _ (Gives.bind (steady_onTerm a) fun _ _ => rfl)).value_eq

theorem foldTerm_binary (op : BinaryOp) (type : ValueType) (a b : Term) :
    foldTerm (.binary op type a b) =
      settled (if foldTerm a == a && foldTerm b == b then .binary op type a b
        else .binary op type (foldTerm a) (foldTerm b)) := by
  rw [← value_onTerm, onTerm]
  exact (gives_around _ (Gives.bind (steady_onTerm a) (Gives.bind (steady_onTerm b)
    fun _ _ => rfl))).value_eq

theorem foldTerm_ternary (op : TernaryOp) (type : ValueType) (a b c : Term) :
    foldTerm (.ternary op type a b c) =
      settled (if foldTerm a == a && foldTerm b == b && foldTerm c == c then .ternary op type a b c
        else .ternary op type (foldTerm a) (foldTerm b) (foldTerm c)) := by
  rw [← value_onTerm, onTerm]
  exact (gives_around _ (Gives.bind (steady_onTerm a) (Gives.bind (steady_onTerm b)
    (Gives.bind (steady_onTerm c) fun _ _ => rfl)))).value_eq

theorem value_onTerms (ts : List Term) : value (rules.onTerms false ts) = ts.map foldTerm := by
  induction ts with
  | nil =>
    rw [onTerms]
    rfl
  | cons t rest ih =>
    rw [onTerms, List.map_cons, ← ih]
    exact (Gives.bind (steady_onTerm t) (Gives.bind (steady_onTerms rest) fun _ _ => rfl)).value_eq

theorem foldTerm_call (type : ValueType) (method : Method) (receiver : Term)
    (arguments : List Term) :
    foldTerm (.call type method receiver arguments) =
      settled (if foldTerm receiver == receiver && arguments.map foldTerm == arguments
        then .call type method receiver arguments
        else .call type method (foldTerm receiver) (arguments.map foldTerm)) := by
  rw [← value_onTerm, onTerm, ← value_onTerms]
  exact (gives_around _ (Gives.bind (steady_onTerm receiver)
    (Gives.bind (steady_onTerms arguments) fun _ _ => rfl))).value_eq

/-- Of a function the parameters and the body are folded, each as a whole. -/
theorem foldTerm_lambda (type : ValueType) (params : List Term) (body : SymbolicState) :
    foldTerm (.lambda type params body) =
      .lambda type (settle params (params.map foldTerm)) (settle body (foldState body)) := by
  rw [← value_onTerm, onTerm, ← value_onTerms]
  change _ = settled (.lambda type (settle params (value (rules.onTerms false params)))
    (settle body (foldState body)))
  exact (gives_around _ (Gives.bind (steady_onTerms params)
    (Gives.bind (steady_onState body) fun _ _ => rfl))).value_eq

theorem value_onAssertion (a : Assertion Term) :
    value (rules.onAssertion false a) = a.map foldTerm := by
  cases a with
  | unary verb a =>
    rw [onAssertion]
    exact (Gives.bind (steady_onTerm a) fun _ _ => rfl).value_eq
  | binary verb a b =>
    rw [onAssertion]
    exact (Gives.bind (steady_onTerm a) (Gives.bind (steady_onTerm b) fun _ _ => rfl)).value_eq
  | newArray array dimensions =>
    rw [onAssertion, Assertion.map, ← value_onTerms]
    exact (Gives.bind (steady_onTerm array) (Gives.bind (steady_onTerms dimensions)
      fun _ _ => rfl)).value_eq
  | generate array length generator =>
    rw [onAssertion]
    exact (Gives.bind (steady_onTerm array) (Gives.bind (steady_onTerm length)
      (Gives.bind (steady_onTerm generator) fun _ _ => rfl))).value_eq

theorem gives_onPredicate (p : Predicate) :
    Gives (rules.onPredicate false p) (.keep (foldPredicate p)) := by
  obtain ⟨role, assertion, location⟩ := p
  rw [onPredicate]
  refine Gives.bind (steady_onAssertion assertion) ?_
  rw [value_onAssertion]
  exact gives_predicate _

theorem value_onParts (parts : List Predicate) :
    value (rules.onParts false parts) = parts.map foldPredicate := by
  induction parts with
  | nil =>
    rw [onParts]
    rfl
  | cons p rest ih =>
    rw [onParts, List.map_cons, ← ih]
    exact (Gives.bind (gives_onPredicate p) (Gives.bind (gives_pure ())
      (Gives.bind (steady_onParts rest) fun _ _ => rfl))).value_eq

theorem foldState_basic (parts : List Predicate) :
    foldState (.basic parts) = .basic (settle parts (parts.map foldPredicate)) := by
  rw [foldState, onState, ← value_onParts]
  exact (Gives.bind (steady_onParts parts) fun _ _ => rfl).value_eq

theorem foldState_chain (s t : SymbolicState) :
    foldState (.chain s t) =
      if foldState s == s && foldState t == t then .chain s t
      else .chain (foldState s) (foldState t) := by
  rw [foldState, onState]
  exact (Gives.bind (steady_onState s) (Gives.bind (steady_onState t) fun _ _ => rfl)).value_eq

theorem value_onAlternatives (alternatives : List SymbolicState) :
    value (rules.onAlternatives false alternatives) = alternatives.map foldState := by
  induction alternatives with
  | nil =>
    rw [onAlternatives]
    rfl
  | cons s rest ih =>
    rw [onAlternatives, List.map_cons, ← ih]
    exact (Gives.bind (steady_onState s) (Gives.bind (steady_onAlternatives rest)
      fun _ _ => rfl)).value_eq

theorem foldState_choice (alternatives : List SymbolicState) :
    foldState (.choice alternatives) =
      .choice (settle alternatives (alternatives.map foldState)) := by
  rw [foldState, onState, ← value_onAlternatives]
  exact (Gives.bind (steady_onAlternatives alternatives) (Gives.bind (gives_pure ())
    fun _ _ => rfl)).value_eq

/-- What a run gives is the state with its parts folded, simplified. -/
theorem eq_of_run {s s' : SymbolicState} (h : run s = .ok s') : s' = (foldState s).simplify := by
  unfold run at h
  split at h
  · next folded hrevise =>
    obtain rfl := Except.ok.inj h
    exact (congrArg Prod.fst hrevise).symm
  · cases h

end Concolic.Folding
