import Concolic.Inlining
import Concolic.Proofs.State.Satisfaction
import Concolic.Proofs.Term.Equality

/-!
# Interpretations

What terms and predicates mean over any values. Operators and predicates other than calls may mean
anything; a call says that its method may have the result that is taken, given the values of the
operands and the way each of them is handed over.

Terms are compared by their written forms. Where no two literals, methods or types are written
alike, terms that are the same are equal, so they mean the same.

## Main statements

* `Term.eq_of_same` — terms over one vocabulary that are the same are equal.
* `Interpretation.holds_congr` — what a predicate says depends on the names in it only.
-/

namespace Concolic

/-! ## Values and their interpretation -/

/-- How an operand is handed to a method. -/
inductive Passing where
  | null
  /-- A reference of the given static type. -/
  | reference (type : ValueType)
  | plain
  deriving DecidableEq

namespace Passing

/-- How a term of some type is handed over, if it is not null. -/
def ofType (type : ValueType) : Passing := if type.isPointer then .reference type else .plain

/-- Whether an operand goes with a declared type: null with any, a reference with that of a
reference and nothing else with one. -/
def Suits (declared : ValueType) : Passing → Prop
  | .null => True
  | .reference _ => declared.isPointer = true
  | .plain => declared.isPointer = false

end Passing

def Term.passing (t : Term) : Passing := if t.isNull then .null else .ofType t.type

/-- A value that is handed to a method. -/
structure Passed (V : Type) where
  value : V
  passing : Passing

/-- What the leaves that name a place stand for. -/
abbrev Environment (V : Type) := ValueType → Leaf → V

/-- What terms and predicates mean over some values. -/
structure Interpretation (V : Type) where
  constant : ValueType → Leaf → V
  unary : UnaryOp → ValueType → V → V
  binary : BinaryOp → ValueType → V → V → V
  ternary : TernaryOp → ValueType → V → V → V → V
  call : ValueType → Method → V → List V → V
  function : ValueType → List Term → SymbolicState → V
  /-- What a predicate that is no call says of the values of its terms. -/
  relation : Role → Assertion V → Prop
  /-- Whether a method may have some result; there is none if the call does not take it. -/
  invokes : Method → Passed V → List (Passed V) → Option V → Prop

namespace Interpretation

variable {V : Type} (I : Interpretation V) (e : Environment V)

mutual

def eval (I : Interpretation V) (e : Environment V) : Term → V
  | .leaf type l => if (Term.leaf type l).isNamed then e type l else I.constant type l
  | .unary op type a => I.unary op type (eval I e a)
  | .binary op type a b => I.binary op type (eval I e a) (eval I e b)
  | .ternary op type a b c => I.ternary op type (eval I e a) (eval I e b) (eval I e c)
  | .call type method receiver arguments =>
    I.call type method (eval I e receiver) (evalAll I e arguments)
  | .lambda type params body => I.function type params body

def evalAll (I : Interpretation V) (e : Environment V) : List Term → List V
  | [] => []
  | t :: rest => eval I e t :: evalAll I e rest

end

def passed (t : Term) : Passed V := ⟨I.eval e t, t.passing⟩

/-- What a predicate says. -/
def Holds (p : Predicate) : Prop :=
  match Inlining.callOf? p with
  | some (target?, .call _ method receiver arguments) =>
    I.invokes method (I.passed e receiver) (arguments.map (I.passed e)) (target?.map (I.eval e))
  | _ => I.relation p.role (p.assertion.map (I.eval e))

theorem holds_call {p : Predicate} {target? : Option Term} {type : ValueType} {method : Method}
    {receiver : Term} {arguments : List Term}
    (h : Inlining.callOf? p = some (target?, .call type method receiver arguments)) :
    I.Holds e p ↔ I.invokes method (I.passed e receiver) (arguments.map (I.passed e))
      (target?.map (I.eval e)) := by
  rw [Holds, h]

/-- A predicate calls a method, or says something of the values of its terms. -/
theorem holds_cases (p : Predicate) :
    (∃ target? type method receiver arguments,
      Inlining.callOf? p = some (target?, .call type method receiver arguments)) ∨
      ∀ (I : Interpretation V) e, I.Holds e p ↔ I.relation p.role (p.assertion.map (I.eval e)) := by
  rcases hcall : Inlining.callOf? p with _ | ⟨target?, call⟩
  · refine .inr fun I e => ?_
    rw [Holds, hcall]
  · cases call with
    | call type method receiver arguments => exact .inl ⟨_, _, _, _, _, rfl⟩
    | leaf | unary | binary | ternary | lambda =>
      refine .inr fun I e => ?_
      rw [Holds, hcall]

end Interpretation

/-! ## Vocabularies -/

/-- Literals, methods and types that terms may mention, no two of a sort written alike. -/
structure Vocabulary where
  literal : Literal → Prop
  method : Method → Prop
  checked : ValueType → Prop
  null : literal .null
  literal_eq {a b : Literal} : literal a → literal b → a.text = b.text → a = b
  method_eq {m n : Method} : method m → method n → m.name = n.name ∨ m.text = n.text → m = n
  checked_eq {s t : ValueType} : checked s → checked t → s.text = t.text → s = t

variable {W : Vocabulary} {N N' : String → Prop}

def Leaf.IsOver (W : Vocabulary) (N : String → Prop) : Leaf → Prop
  | .value name => N name
  | .result method => W.method method
  | .literal constant => W.literal constant
  | .argument _ | .undefined | .statics => True

def UnaryOp.IsOver (W : Vocabulary) : UnaryOp → Prop
  | .instanceOf checked => W.checked checked
  | _ => True

mutual

/-- The term mentions what is in the vocabulary, and values of certain names; there is no function
in it. -/
def Term.IsOver (W : Vocabulary) (N : String → Prop) : Term → Prop
  | .leaf _ l => l.IsOver W N
  | .unary op _ a => op.IsOver W ∧ a.IsOver W N
  | .binary _ _ a b => a.IsOver W N ∧ b.IsOver W N
  | .ternary _ _ a b c => a.IsOver W N ∧ b.IsOver W N ∧ c.IsOver W N
  | .call _ method receiver arguments =>
    W.method method ∧ receiver.IsOver W N ∧ Term.AreOver W N arguments
  | .lambda _ _ _ => False

def Term.AreOver (W : Vocabulary) (N : String → Prop) : List Term → Prop
  | [] => True
  | t :: rest => t.IsOver W N ∧ Term.AreOver W N rest

end

def Clause.IsOver (W : Vocabulary) (N : String → Prop) (p : Predicate) : Prop :=
  Term.AreOver W N p.operands

namespace Leaf

/-- The leaf names a place. -/
inductive Names : Leaf → Prop
  | argument (index : Nat) : Names (.argument index)
  | value (name : String) : Names (.value name)
  | result (method : Method) : Names (.result method)

theorem names_iff {type : ValueType} {l : Leaf} : (Term.leaf type l).isNamed = true ↔ l.Names := by
  constructor
  · intro h
    cases l with
    | argument => exact .argument _
    | value => exact .value _
    | result => exact .result _
    | undefined | literal | statics => cases h
  · rintro (_ | _ | _) <;> rfl

theorem IsOver.mono {l : Leaf} (h : l.IsOver W N) (hN : ∀ name, N name → N' name) :
    l.IsOver W N' := by
  cases l with
  | value name => exact hN name h
  | argument | result | undefined | literal | statics => exact h

theorem eq_of_same {a b : Leaf} (ha : a.IsOver W N) (hb : b.IsOver W N') (h : (a == b) = true) :
    a = b := by
  have h : Leaf.same a b = true := h
  cases a <;> cases b <;> first
    | rfl
    | simp only [Leaf.same, reduceCtorEq] at h
  · rw [beq_iff_eq.mp h]
  · rw [beq_iff_eq.mp h]
  · rw [W.method_eq ha hb (.inr (beq_iff_eq.mp h))]
  · rw [W.literal_eq ha hb (beq_iff_eq.mp h)]

end Leaf

theorem UnaryOp.eq_of_same {a b : UnaryOp} (ha : a.IsOver W) (hb : b.IsOver W)
    (h : (a == b) = true) : a = b := by
  have h : UnaryOp.same a b = true := h
  cases a <;> cases b <;> first
    | rfl
    | simp only [UnaryOp.same, reduceCtorEq] at h
  · rw [beq_iff_eq.mp h]
  · rw [W.checked_eq ha hb (beq_iff_eq.mp h)]

namespace Term

theorem areOver_iff {ts : List Term} : AreOver W N ts ↔ ∀ t ∈ ts, t.IsOver W N := by
  induction ts with
  | nil => simp [AreOver]
  | cons t ts ih => rw [AreOver, ih, List.forall_mem_cons]

mutual

theorem IsOver.mono (hN : ∀ name, N name → N' name) :
    ∀ {t : Term}, t.IsOver W N → t.IsOver W N'
  | .leaf _ _, h => Leaf.IsOver.mono h hN
  | .unary _ _ _, h => ⟨h.1, IsOver.mono hN h.2⟩
  | .binary _ _ _ _, h => ⟨IsOver.mono hN h.1, IsOver.mono hN h.2⟩
  | .ternary _ _ _ _ _, h => ⟨IsOver.mono hN h.1, IsOver.mono hN h.2.1, IsOver.mono hN h.2.2⟩
  | .call _ _ _ _, h => ⟨h.1, IsOver.mono hN h.2.1, AreOver.mono hN h.2.2⟩
  | .lambda _ _ _, h => h.elim

theorem AreOver.mono (hN : ∀ name, N name → N' name) :
    ∀ {ts : List Term}, AreOver W N ts → AreOver W N' ts
  | [], _ => trivial
  | _ :: _, h => ⟨IsOver.mono hN h.1, AreOver.mono hN h.2⟩

end

mutual

/-- Terms over one vocabulary that are the same are equal. -/
theorem eq_of_same :
    ∀ {a b : Term}, a.IsOver W N → b.IsOver W N' → Term.same a b = true → a = b
  | .leaf _ _, .leaf _ _, ha, hb, h => by
    rw [Term.same, Bool.and_eq_true, beq_iff_eq] at h
    rw [h.1, Leaf.eq_of_same ha hb h.2]
  | .unary _ _ _, .unary _ _ _, ha, hb, h => by
    simp only [Term.same, Bool.and_eq_true, beq_iff_eq] at h
    rw [UnaryOp.eq_of_same ha.1 hb.1 h.1.1, h.1.2, eq_of_same ha.2 hb.2 h.2]
  | .binary _ _ _ _, .binary _ _ _ _, ha, hb, h => by
    simp only [Term.same, Bool.and_eq_true, beq_iff_eq] at h
    rw [h.1.1.1, h.1.1.2, eq_of_same ha.1 hb.1 h.1.2, eq_of_same ha.2 hb.2 h.2]
  | .ternary _ _ _ _ _, .ternary _ _ _ _ _, ha, hb, h => by
    simp only [Term.same, Bool.and_eq_true, beq_iff_eq] at h
    rw [h.1.1.1.1, h.1.1.1.2, eq_of_same ha.1 hb.1 h.1.1.2, eq_of_same ha.2.1 hb.2.1 h.1.2,
      eq_of_same ha.2.2 hb.2.2 h.2]
  | .call _ _ _ _, .call _ _ _ _, ha, hb, h => by
    simp only [Term.same, Bool.and_eq_true, beq_iff_eq] at h
    rw [h.1.1.1, W.method_eq ha.1 hb.1 (.inl h.1.1.2), eq_of_same ha.2.1 hb.2.1 h.1.2,
      eqAll_of_same ha.2.2 hb.2.2 h.2]

theorem eqAll_of_same : ∀ {as bs : List Term}, AreOver W N as → AreOver W N' bs →
    Term.sameAll as bs = true → as = bs
  | [], [], _, _, _ => rfl
  | _ :: _, _ :: _, ha, hb, h => by
    rw [Term.sameAll, Bool.and_eq_true] at h
    rw [eq_of_same ha.1 hb.1 h.1, eqAll_of_same ha.2 hb.2 h.2]

end

theorem eqAll_of_beq {as bs : List Term} (ha : AreOver W N as) (hb : AreOver W N' bs)
    (h : (as == bs) = true) : as = bs := by
  induction as generalizing bs with
  | nil =>
    cases bs with
    | nil => rfl
    | cons => cases h
  | cons a as ih =>
    cases bs with
    | nil => cases h
    | cons b bs =>
      rw [List.cons_beq_cons, Bool.and_eq_true] at h
      rw [eq_of_same ha.1 hb.1 h.1, ih ha.2 hb.2 h.2]

end Term

/-! ## Predicates -/

namespace Assertion

theorem eq_of_shape {a b : Assertion Term} (hshape : a.shape = b.shape)
    (hoperands : a.operands = b.operands) : a = b := by
  cases a <;> cases b <;> simp_all [shape, operands]

theorem map_congr {τ σ : Type} {f g : τ → σ} (a : Assertion τ) (h : ∀ x ∈ a.operands, f x = g x) :
    a.map f = a.map g := by
  cases a with
  | unary | binary | generate => simp_all [map, operands]
  | newArray array dimensions =>
    rw [operands, List.forall_mem_cons] at h
    rw [map, map, h.1, List.map_congr_left h.2]

theorem map_map {τ σ ρ : Type} (f : τ → σ) (g : σ → ρ) (a : Assertion τ) :
    (a.map f).map g = a.map fun x => g (f x) := by
  cases a <;> simp [map]

theorem map_id {τ : Type} (a : Assertion τ) : a.map id = a := by
  cases a <;> simp [map]

end Assertion

namespace Clause

variable {p q : Predicate}

theorem IsOver.mono (h : p.IsOver W N) (hN : ∀ name, N name → N' name) : p.IsOver W N' :=
  Term.AreOver.mono hN h

theorem assertion_eq_of_beq (hp : p.IsOver W N) (hq : q.IsOver W N')
    (h : (p.assertion == q.assertion) = true) : p.assertion = q.assertion := by
  obtain ⟨hshape, hoperands⟩ := Assertion.beq_iff_shape.mp h
  exact Assertion.eq_of_shape hshape (Term.eqAll_of_beq hp hq hoperands)

/-- What a predicate calls is a call. -/
def IsProper (p : Predicate) : Prop :=
  ∀ target? call, Inlining.callOf? p = some (target?, call) →
    ∃ type method receiver arguments, call = .call type method receiver arguments

theorem operands_of_callOf? {target? : Option Term} {call : Term}
    (h : Inlining.callOf? p = some (target?, call)) : p.operands = target?.toList ++ [call] := by
  obtain ⟨role, assertion, location⟩ := p
  unfold Inlining.callOf? at h
  split at h
  · next hassertion =>
    cases h
    rw [operands, hassertion]
    rfl
  · next hassertion =>
    cases h
    rw [operands, hassertion]
    rfl
  · cases h

end Clause

/-! ## What predicates say -/

namespace Environment

variable {V : Type} {e e' e'' : Environment V}

/-- The environments agree on the places that terms over a vocabulary may name. -/
def AgreesOver (W : Vocabulary) (N : String → Prop) (e' e : Environment V) : Prop :=
  ∀ type l, l.Names → l.IsOver W N → e' type l = e type l

/-- The environments agree but for values whose names are of another sort. -/
def AgreesOn (N : String → Prop) (e' e : Environment V) : Prop :=
  ∀ type l, (∀ name, l = .value name → N name) → e' type l = e type l

theorem AgreesOn.over (h : e'.AgreesOn N e) : e'.AgreesOver W N e := by
  refine fun type l _ hl => h type l ?_
  rintro name rfl
  exact hl

theorem AgreesOn.mono (h : e'.AgreesOn N' e) (hN : ∀ name, N name → N' name) :
    e'.AgreesOn N e := fun type l hl => h type l fun name hname => hN name (hl name hname)

theorem AgreesOn.trans (h : e''.AgreesOn N e') (h' : e'.AgreesOn N e) : e''.AgreesOn N e :=
  fun type l hl => (h type l hl).trans (h' type l hl)

end Environment

namespace Interpretation

variable {V : Type} {I : Interpretation V} {e e' : Environment V} {p q : Predicate}

mutual

theorem eval_congr (he : e'.AgreesOver W N e) :
    ∀ {t : Term}, t.IsOver W N → I.eval e' t = I.eval e t
  | .leaf type l, h => by
    rw [eval, eval]
    by_cases hl : l.Names
    · rw [he type l hl h]
    · rw [if_neg fun h => hl (Leaf.names_iff.mp h), if_neg fun h => hl (Leaf.names_iff.mp h)]
  | .unary _ _ _, h => by rw [eval, eval, eval_congr he h.2]
  | .binary _ _ _ _, h => by rw [eval, eval, eval_congr he h.1, eval_congr he h.2]
  | .ternary _ _ _ _ _, h => by
    rw [eval, eval, eval_congr he h.1, eval_congr he h.2.1, eval_congr he h.2.2]
  | .call _ _ _ _, h => by rw [eval, eval, eval_congr he h.2.1, evalAll_congr he h.2.2]
  | .lambda _ _ _, h => h.elim

theorem evalAll_congr (he : e'.AgreesOver W N e) :
    ∀ {ts : List Term}, Term.AreOver W N ts → I.evalAll e' ts = I.evalAll e ts
  | [], _ => by rw [evalAll, evalAll]
  | _ :: _, h => by rw [evalAll, evalAll, eval_congr he h.1, evalAll_congr he h.2]

end

/-- Predicates that are the same say the same. -/
theorem holds_of_beq (hp : p.IsOver W N) (hq : q.IsOver W N') (h : (p == q) = true) :
    I.Holds e p ↔ I.Holds e q := by
  obtain ⟨hrole, hassertion⟩ := Clause.beq_iff.mp h
  have hassertion := Clause.assertion_eq_of_beq hp hq hassertion
  obtain ⟨role, assertion, location⟩ := p
  obtain ⟨role', assertion', location'⟩ := q
  obtain rfl : role = role' := hrole
  obtain rfl : assertion = assertion' := hassertion
  exact Iff.rfl

/-- What a predicate says depends on the names in it only. -/
theorem holds_congr (hp : p.IsOver W N) (he : e'.AgreesOver W N e) : I.Holds e' p ↔ I.Holds e p := by
  rcases holds_cases (V := V) p with ⟨target?, type, method, receiver, arguments, hcall⟩ | hmeans
  · rw [Clause.IsOver, Clause.operands_of_callOf? hcall, Term.areOver_iff] at hp
    obtain ⟨-, hreceiver, harguments⟩ :=
      hp (.call type method receiver arguments) (List.mem_append_right _ (List.mem_singleton_self _))
    have htarget : target?.map (I.eval e') = target?.map (I.eval e) :=
      Option.map_congr fun t ht => eval_congr he
        (hp t (List.mem_append_left _ (Option.mem_toList.mpr ht)))
    have hpassed : arguments.map (I.passed e') = arguments.map (I.passed e) :=
      List.map_congr_left fun t ht => by
        rw [passed, passed, eval_congr he (Term.areOver_iff.mp harguments t ht)]
    rw [holds_call I e' hcall, holds_call I e hcall, htarget, hpassed, passed, passed,
      eval_congr he hreceiver]
  · rw [hmeans I e', hmeans I e, Assertion.map_congr p.assertion fun t ht =>
      eval_congr he (Term.areOver_iff.mp hp t ht)]

end Interpretation
end Concolic
