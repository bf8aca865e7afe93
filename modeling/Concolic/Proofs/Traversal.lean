import Concolic.Proofs.State.Ways
import Concolic.Traversal

/-!
# What a traversal comes to

A traversal comes to every predicate and every term of a state, at whatever depth: in every
alternative of every choice, below every operator, and in the bodies of functions.

## Main statements

* `State.term_mem_visits`, `State.predicate_mem_visits` — a traversal visits exactly the terms
  and the predicates of a state.
-/

namespace Concolic

/-- The term is `t`, or is in an operand of it, or in a predicate of its body. -/
inductive Term.Within (a : Term) : Term → Prop
  | self : Within a a
  | operand {b t : Term} : b ∈ t.operands → Within a b → Within a t
  | body {type : ValueType} {params : List Term} {body : SymbolicState} {p : Predicate} {b : Term} :
      body.Occurs p → b ∈ p.operands → Within a b → Within a (.lambda type params body)

namespace State

/-- The term is in a predicate of the state. -/
def HasTerm (s : SymbolicState) (a : Term) : Prop :=
  ∃ p b, s.Occurs p ∧ b ∈ p.operands ∧ a.Within b

/-- The predicate is one of the state, or of the body of a function in it. -/
def HasPredicate (s : SymbolicState) (p : Predicate) : Prop :=
  s.Occurs p ∨ ∃ type params body, s.HasTerm (.lambda type params body) ∧ body.Occurs p

end State

/-! ## Everything is visited -/

theorem visits_subset_visitsOfAll {t : Term} {ts : List Term} (h : t ∈ ts) :
    t.visits ⊆ Term.visitsOfAll ts := by
  induction ts with
  | nil => cases h
  | cons u ts ih =>
    rw [Term.visitsOfAll]
    rcases List.mem_cons.mp h with rfl | h
    · exact List.subset_append_left _ _
    · exact List.subset_append_of_subset_right _ (ih h)

theorem visits_subset_of_mem_operands {a t : Term} (h : a ∈ t.operands) :
    a.visits ⊆ t.visits := by
  cases t with
  | leaf => simp [Term.operands] at h
  | unary | binary | ternary =>
    simp only [Term.operands, List.mem_cons, List.not_mem_nil, or_false] at h
    intro v hv
    simp only [Term.visits, List.mem_cons, List.mem_append]
    grind
  | call type method receiver arguments =>
    intro v hv
    simp only [Term.visits, List.mem_cons, List.mem_append]
    rcases List.mem_cons.mp h with rfl | h
    · exact .inr (.inl hv)
    · exact .inr (.inr (visits_subset_visitsOfAll h hv))
  | lambda type params body =>
    intro v hv
    simp only [Term.visits, List.mem_cons, List.mem_append]
    exact .inr (.inl (visits_subset_visitsOfAll h hv))

theorem visits_subset_of_mem_assertion {a : Term} {assertion : Assertion Term}
    (h : a ∈ assertion.operands) : a.visits ⊆ assertion.visits := by
  cases assertion with
  | unary | binary | generate =>
    simp only [Assertion.operands, List.mem_cons, List.not_mem_nil, or_false] at h
    intro v hv
    simp only [Assertion.visits, List.mem_append]
    grind
  | newArray array dimensions =>
    intro v hv
    simp only [Assertion.visits, List.mem_append]
    rcases List.mem_cons.mp h with rfl | h
    · exact .inl hv
    · exact .inr (visits_subset_visitsOfAll h hv)

theorem visits_subset_of_occurs {p : Predicate} {s : SymbolicState} (h : s.Occurs p) :
    p.visits ⊆ s.visits := by
  induction h with
  | @basic parts hp =>
    rw [State.visits]
    induction parts with
    | nil => cases hp
    | cons q parts ih =>
      rw [State.visitsOfParts]
      rcases List.mem_cons.mp hp with rfl | hp
      · exact List.subset_append_left _ _
      · exact List.subset_append_of_subset_right _ (ih hp)
  | first _ ih =>
    rw [State.visits]
    exact List.subset_append_of_subset_left _ ih
  | second _ ih =>
    rw [State.visits]
    exact List.subset_append_of_subset_right _ ih
  | @choice t alternatives ht _ ih =>
    rw [State.visits]
    refine List.Subset.trans ih ?_
    induction alternatives with
    | nil => cases ht
    | cons u alternatives ih =>
      rw [State.visitsOfAll]
      rcases List.mem_cons.mp ht with rfl | ht
      · exact List.subset_append_left _ _
      · exact List.subset_append_of_subset_right _ (ih ht)

theorem term_mem_visits_self (t : Term) : .term t ∈ t.visits := by
  cases t <;> simp [Term.visits]

theorem predicate_mem_visits_self (p : Predicate) : .predicate p ∈ p.visits := by
  rw [Clause.visits]
  exact List.mem_cons_self

theorem visits_subset_of_mem_clause {a : Term} {p : Predicate} (h : a ∈ p.operands) :
    a.visits ⊆ p.visits := by
  rw [Clause.visits]
  exact List.subset_cons_of_subset _ (visits_subset_of_mem_assertion h)

theorem visits_subset_body (type : ValueType) (params : List Term) (body : SymbolicState) :
    body.visits ⊆ (Term.lambda type params body).visits := by
  rw [Term.visits]
  exact List.subset_cons_of_subset _ (List.subset_append_right _ _)

theorem Term.Within.visits_subset {a t : Term} (h : a.Within t) : a.visits ⊆ t.visits := by
  induction h with
  | self => exact List.Subset.refl _
  | operand hb _ ih => exact List.Subset.trans ih (visits_subset_of_mem_operands hb)
  | @body type params body p b hp hb _ ih =>
    have hclause := List.Subset.trans ih (visits_subset_of_mem_clause hb)
    have hstate := List.Subset.trans hclause (visits_subset_of_occurs hp)
    exact List.Subset.trans hstate (visits_subset_body type params body)

/-! ## Nothing else is visited -/

/-- What is visited is in the term. -/
def Visit.IsIn (t : Term) : Visit → Prop
  | .term a => a.Within t
  | .predicate p => ∃ type params body, (Term.lambda type params body).Within t ∧ body.Occurs p

/-- What is visited is in the state. -/
def Visit.IsInState (s : SymbolicState) : Visit → Prop
  | .term a => s.HasTerm a
  | .predicate p => s.HasPredicate p

theorem Visit.IsIn.of_operand {v : Visit} {b t : Term} (hb : b ∈ t.operands) (h : v.IsIn b) :
    v.IsIn t := by
  cases v with
  | term a => exact .operand hb h
  | predicate p =>
    obtain ⟨type, params, body, hwithin, hp⟩ := h
    exact ⟨type, params, body, .operand hb hwithin, hp⟩

theorem Visit.IsIn.of_predicate {v : Visit} {b : Term} {p : Predicate} {s : SymbolicState}
    (hp : s.Occurs p) (hb : b ∈ p.operands) (h : v.IsIn b) : v.IsInState s := by
  cases v with
  | term a => exact ⟨p, b, hp, hb, h⟩
  | predicate q =>
    obtain ⟨type, params, body, hwithin, hq⟩ := h
    exact .inr ⟨type, params, body, ⟨p, b, hp, hb, hwithin⟩, hq⟩

/-- What is in the body of a function is in the function. -/
theorem Visit.IsInState.of_body {v : Visit} {type : ValueType} {params : List Term}
    {body : SymbolicState} (h : v.IsInState body) : v.IsIn (.lambda type params body) := by
  cases v with
  | term a =>
    obtain ⟨p, b, hp, hb, hwithin⟩ := h
    exact .body hp hb hwithin
  | predicate p =>
    rcases h with hp | ⟨type', params', body', ⟨q, b, hq, hb, hwithin⟩, hp⟩
    · exact ⟨type, params, body, .self, hp⟩
    · exact ⟨type', params', body', .body hq hb hwithin, hp⟩

theorem Visit.IsInState.mono {v : Visit} {s t : SymbolicState} (h : v.IsInState s)
    (hsub : ∀ p, s.Occurs p → t.Occurs p) : v.IsInState t := by
  cases v with
  | term a =>
    obtain ⟨p, b, hp, hb, hwithin⟩ := h
    exact ⟨p, b, hsub p hp, hb, hwithin⟩
  | predicate p =>
    rcases h with hp | ⟨type, params, body, ⟨q, b, hq, hb, hwithin⟩, hp⟩
    · exact .inl (hsub p hp)
    · exact .inr ⟨type, params, body, ⟨q, b, hsub q hq, hb, hwithin⟩, hp⟩

mutual

theorem Term.isIn_of_mem_visits {v : Visit} : ∀ {t : Term}, v ∈ t.visits → v.IsIn t
  | .leaf type l, h => by
    obtain rfl := List.mem_singleton.mp h
    exact .self
  | .unary op type a, h => by
    simp only [Term.visits, List.mem_cons] at h
    rcases h with rfl | h
    · exact .self
    · exact (Term.isIn_of_mem_visits h).of_operand (by simp [Term.operands])
  | .binary op type a b, h => by
    simp only [Term.visits, List.mem_cons, List.mem_append] at h
    rcases h with rfl | h | h
    · exact .self
    · exact (Term.isIn_of_mem_visits h).of_operand (by simp [Term.operands])
    · exact (Term.isIn_of_mem_visits h).of_operand (by simp [Term.operands])
  | .ternary op type a b c, h => by
    simp only [Term.visits, List.mem_cons, List.mem_append] at h
    rcases h with rfl | (h | h) | h
    · exact .self
    · exact (Term.isIn_of_mem_visits h).of_operand (by simp [Term.operands])
    · exact (Term.isIn_of_mem_visits h).of_operand (by simp [Term.operands])
    · exact (Term.isIn_of_mem_visits h).of_operand (by simp [Term.operands])
  | .call type method receiver arguments, h => by
    simp only [Term.visits, List.mem_cons, List.mem_append] at h
    rcases h with rfl | h | h
    · exact .self
    · exact (Term.isIn_of_mem_visits h).of_operand (by simp [Term.operands])
    · obtain ⟨b, hb, hin⟩ := Term.exists_of_mem_visitsOfAll h
      exact hin.of_operand (List.mem_cons_of_mem _ hb)
  | .lambda type params body, h => by
    simp only [Term.visits, List.mem_cons, List.mem_append] at h
    rcases h with rfl | h | h
    · exact .self
    · obtain ⟨b, hb, hin⟩ := Term.exists_of_mem_visitsOfAll h
      exact hin.of_operand hb
    · exact (State.isInState_of_mem_visits h).of_body

theorem Term.exists_of_mem_visitsOfAll {v : Visit} :
    ∀ {ts : List Term}, v ∈ Term.visitsOfAll ts → ∃ t ∈ ts, v.IsIn t
  | [], h => by cases h
  | t :: ts, h => by
    rw [Term.visitsOfAll] at h
    rcases List.mem_append.mp h with h | h
    · exact ⟨t, List.mem_cons_self, Term.isIn_of_mem_visits h⟩
    · obtain ⟨u, hu, hin⟩ := Term.exists_of_mem_visitsOfAll h
      exact ⟨u, List.mem_cons_of_mem _ hu, hin⟩

theorem Assertion.exists_of_mem_visits {v : Visit} :
    ∀ {assertion : Assertion Term}, v ∈ assertion.visits → ∃ t ∈ assertion.operands, v.IsIn t
  | .unary _ a, h => ⟨a, by simp [Assertion.operands], Term.isIn_of_mem_visits h⟩
  | .binary _ a b, h => by
    rw [Assertion.visits] at h
    rcases List.mem_append.mp h with h | h
    · exact ⟨a, by simp [Assertion.operands], Term.isIn_of_mem_visits h⟩
    · exact ⟨b, by simp [Assertion.operands], Term.isIn_of_mem_visits h⟩
  | .newArray array dimensions, h => by
    rw [Assertion.visits] at h
    rcases List.mem_append.mp h with h | h
    · exact ⟨array, by simp [Assertion.operands], Term.isIn_of_mem_visits h⟩
    · obtain ⟨t, ht, hin⟩ := Term.exists_of_mem_visitsOfAll h
      exact ⟨t, List.mem_cons_of_mem _ ht, hin⟩
  | .generate array length generator, h => by
    simp only [Assertion.visits, List.mem_append] at h
    rcases h with (h | h) | h
    · exact ⟨array, by simp [Assertion.operands], Term.isIn_of_mem_visits h⟩
    · exact ⟨length, by simp [Assertion.operands], Term.isIn_of_mem_visits h⟩
    · exact ⟨generator, by simp [Assertion.operands], Term.isIn_of_mem_visits h⟩

theorem Clause.isIn_of_mem_visits {v : Visit} :
    ∀ {p : Predicate}, v ∈ p.visits → v = .predicate p ∨ ∃ t ∈ p.operands, v.IsIn t
  | ⟨role, assertion, location⟩, h => by
    rw [Clause.visits] at h
    rcases List.mem_cons.mp h with rfl | h
    · exact .inl rfl
    · exact .inr (Assertion.exists_of_mem_visits h)

theorem State.isInState_of_mem_visits {v : Visit} :
    ∀ {s : SymbolicState}, v ∈ s.visits → v.IsInState s
  | .basic parts, h => by
    rw [State.visits] at h
    obtain ⟨p, hp, hin⟩ := State.exists_of_mem_visitsOfParts h
    rcases hin with rfl | ⟨t, ht, hin⟩
    · exact .inl (.basic hp)
    · exact hin.of_predicate (.basic hp) ht
  | .chain first second, h => by
    rw [State.visits] at h
    rcases List.mem_append.mp h with h | h
    · exact (State.isInState_of_mem_visits h).mono fun _ hp => .first hp
    · exact (State.isInState_of_mem_visits h).mono fun _ hp => .second hp
  | .choice alternatives, h => by
    rw [State.visits] at h
    obtain ⟨s, hs, hin⟩ := State.exists_of_mem_visitsOfAll h
    exact hin.mono fun _ hp => .choice hs hp

theorem State.exists_of_mem_visitsOfParts {v : Visit} :
    ∀ {parts : List Predicate}, v ∈ State.visitsOfParts parts →
      ∃ p ∈ parts, v = .predicate p ∨ ∃ t ∈ p.operands, v.IsIn t
  | [], h => by cases h
  | p :: parts, h => by
    rw [State.visitsOfParts] at h
    rcases List.mem_append.mp h with h | h
    · exact ⟨p, List.mem_cons_self, Clause.isIn_of_mem_visits h⟩
    · obtain ⟨q, hq, hin⟩ := State.exists_of_mem_visitsOfParts h
      exact ⟨q, List.mem_cons_of_mem _ hq, hin⟩

theorem State.exists_of_mem_visitsOfAll {v : Visit} :
    ∀ {states : List SymbolicState}, v ∈ State.visitsOfAll states →
      ∃ s ∈ states, v.IsInState s
  | [], h => by cases h
  | s :: states, h => by
    rw [State.visitsOfAll] at h
    rcases List.mem_append.mp h with h | h
    · exact ⟨s, List.mem_cons_self, State.isInState_of_mem_visits h⟩
    · obtain ⟨t, ht, hin⟩ := State.exists_of_mem_visitsOfAll h
      exact ⟨t, List.mem_cons_of_mem _ ht, hin⟩

end

/-! ## What is visited -/

namespace State

variable {s : SymbolicState}

theorem visits_subset_of_hasTerm {t : Term} (h : s.HasTerm t) : t.visits ⊆ s.visits := by
  obtain ⟨p, b, hp, hb, hwithin⟩ := h
  have hclause := List.Subset.trans hwithin.visits_subset (visits_subset_of_mem_clause hb)
  exact List.Subset.trans hclause (visits_subset_of_occurs hp)

theorem term_mem_visits {a : Term} : .term a ∈ s.visits ↔ s.HasTerm a :=
  ⟨isInState_of_mem_visits, fun h => visits_subset_of_hasTerm h (term_mem_visits_self a)⟩

theorem predicate_mem_visits {p : Predicate} : .predicate p ∈ s.visits ↔ s.HasPredicate p := by
  refine ⟨isInState_of_mem_visits, fun h => ?_⟩
  rcases h with hp | ⟨type, params, body, hterm, hp⟩
  · exact visits_subset_of_occurs hp (predicate_mem_visits_self p)
  · exact visits_subset_of_hasTerm hterm (visits_subset_body type params body
      (visits_subset_of_occurs hp (predicate_mem_visits_self p)))

end State
end Concolic
