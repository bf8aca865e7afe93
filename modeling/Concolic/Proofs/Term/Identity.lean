import Concolic.Memory
import Concolic.Model
import Concolic.Proofs.Term.Constants
import Concolic.Proofs.Term.Texts
import Concolic.Renaming
import Mathlib.Data.List.Forall2

/-!
# Identity of terms

A term is a tree whose nodes carry a type and a payload: the variant with its operator, index,
name, literal, type to check for, method or body. Comparing terms compares these trees node by
node, but not every payload for identity. A method is compared as it is written, in a call by its
name alone; a type to check for, and the body of a function, by what is written of it. So terms may
be the same though their trees are not, and nothing that is kept by terms can tell such terms apart.

## Main definitions

* `Term.SameTree` — the same tree, with payloads compared as they are told to be.
* `Payload.Exact`, `Payload.Alike` — payloads that are identical, and those that are not told apart.

## Main statements

* `Term.beq_iff_sameTree` — terms are the same when their trees are, but for payloads that are
  written alike.
* `Term.laws_of_identity` — what this means for keys and for rewrites.
-/

namespace Concolic

/-! ## Payloads -/

/-- What a node of a term carries, its type and its operands aside. -/
inductive Payload where
  | leaf (l : Leaf)
  | unary (op : UnaryOp)
  | binary (op : BinaryOp)
  | ternary (op : TernaryOp)
  | call (method : Method)
  | lambda (body : SymbolicState)

namespace Payload

/-- The same payload; bodies of functions are the same as states. -/
inductive Exact : Payload → Payload → Prop
  | refl (p : Payload) : Exact p p
  | lambda {body body' : SymbolicState} :
      (body == body') = true → Exact (.lambda body) (.lambda body')

/-- Payloads that comparing terms does not tell apart. -/
inductive Alike : Payload → Payload → Prop
  | refl (p : Payload) : Alike p p
  | result {m n : Method} : m.text = n.text → Alike (.leaf (.result m)) (.leaf (.result n))
  | literal {k l : Literal} : k.Alike l → Alike (.leaf (.literal k)) (.leaf (.literal l))
  | instanceOf {s t : ValueType} :
      s.text = t.text → Alike (.unary (.instanceOf s)) (.unary (.instanceOf t))
  | call {m n : Method} : m.name = n.name → Alike (.call m) (.call n)
  | lambda {body body' : SymbolicState} :
      body.text = body'.text → Alike (.lambda body) (.lambda body')

theorem Exact.alike {p q : Payload} (h : p.Exact q) : p.Alike q := by
  cases h with
  | refl => exact .refl _
  | lambda hbody => exact .lambda (State.text_of_beq hbody)

theorem Exact.eq {p q : Payload} (h : p.Exact q) (hlambda : ∀ body, p ≠ .lambda body) : p = q := by
  cases h with
  | refl => rfl
  | lambda => exact absurd rfl (hlambda _)

theorem Exact.beq_of_lambda {body body' : SymbolicState}
    (h : Exact (.lambda body) (.lambda body')) : (body == body') = true := by
  cases h with
  | refl => exact BEq.rfl
  | lambda hbody => exact hbody

theorem alike_binary_iff {op op' : BinaryOp} : Alike (.binary op) (.binary op') ↔ op = op' := by
  constructor
  · rintro ⟨⟩
    rfl
  · rintro rfl
    exact .refl _

theorem alike_ternary_iff {op op' : TernaryOp} : Alike (.ternary op) (.ternary op') ↔ op = op' := by
  constructor
  · rintro ⟨⟩
    rfl
  · rintro rfl
    exact .refl _

theorem alike_call_iff {m n : Method} : Alike (.call m) (.call n) ↔ m.name = n.name := by
  constructor
  · rintro (_ | _ | _ | _ | h | _)
    · rfl
    · exact h
  · exact .call

theorem alike_lambda_iff {body body' : SymbolicState} :
    Alike (.lambda body) (.lambda body') ↔ body.text = body'.text := by
  constructor
  · rintro (_ | _ | _ | _ | _ | h)
    · rfl
    · exact h
  · exact .lambda

end Payload

theorem Leaf.beq_iff_alike {l l' : Leaf} :
    (l == l') = true ↔ Payload.Alike (.leaf l) (.leaf l') := by
  change Leaf.same l l' = true ↔ _
  constructor
  · intro h
    match l, l', h with
    | .argument i, .argument j, h =>
      obtain rfl : i = j := by simpa [Leaf.same] using h
      exact .refl _
    | .value a, .value b, h =>
      obtain rfl : a = b := by simpa [Leaf.same] using h
      exact .refl _
    | .result m, .result n, h => exact .result (by simpa [Leaf.same] using h)
    | .literal k, .literal l, h =>
      exact .literal (Literal.text_eq_iff.mp (by simpa [Leaf.same] using h))
    | .undefined, .undefined, _ | .statics, .statics, _ => exact .refl _
  · intro h
    cases h with
    | refl => cases l <;> simp [Leaf.same]
    | result h => simpa [Leaf.same] using h
    | literal h => simpa [Leaf.same] using Literal.text_eq_iff.mpr h

theorem UnaryOp.beq_iff_alike {op op' : UnaryOp} :
    (op == op') = true ↔ Payload.Alike (.unary op) (.unary op') := by
  change UnaryOp.same op op' = true ↔ _
  constructor
  · intro h
    match op, op', h with
    | .field a, .field b, h =>
      obtain rfl : a = b := by simpa [UnaryOp.same] using h
      exact .refl _
    | .instanceOf s, .instanceOf t, h => exact .instanceOf (by simpa [UnaryOp.same] using h)
    | .negate, .negate, _ | .arrayLength, .arrayLength, _ | .arrayLoad, .arrayLoad, _
    | .fieldLoad, .fieldLoad, _ | .cast, .cast, _ | .stringLength, .stringLength, _
    | .toText, .toText, _ | .parse, .parse, _ => exact .refl _
  · intro h
    cases h with
    | refl => cases op <;> simp [UnaryOp.same]
    | instanceOf h => simpa [UnaryOp.same] using h

namespace Term

def payload : Term → Payload
  | .leaf _ l => .leaf l
  | .unary op _ _ => .unary op
  | .binary op _ _ _ => .binary op
  | .ternary op _ _ _ _ => .ternary op
  | .call _ method _ _ => .call method
  | .lambda _ _ body => .lambda body

/-! ## Trees -/

/-- The same tree: types are equal node by node, and payloads are as they are told to be. -/
inductive SameTree (related : Payload → Payload → Prop) : Term → Term → Prop
  | node {a b : Term} : related a.payload b.payload → a.type = b.type →
      List.Forall₂ (SameTree related) a.operands b.operands → SameTree related a b

theorem forall₂_imp_of_mem {related related' : Term → Term → Prop} {as bs : List Term}
    (h : List.Forall₂ related as bs)
    (himp : ∀ a ∈ as, ∀ {b : Term}, related a b → related' a b) :
    List.Forall₂ related' as bs := by
  induction h with
  | nil => exact .nil
  | cons hab _ ih =>
    rw [List.forall_mem_cons] at himp
    exact .cons (himp.1 hab) (ih himp.2)

theorem SameTree.mono {related related' : Payload → Payload → Prop}
    (hmono : ∀ p q, related p q → related' p q) {a b : Term} (h : a.SameTree related b) :
    a.SameTree related' b := by
  induction a using operands_induction generalizing b with
  | step a ih =>
    obtain ⟨hpayload, htype, hoperands⟩ := h
    exact .node (hmono _ _ hpayload) htype (forall₂_imp_of_mem hoperands ih)

theorem head_eq_iff_of_ne {a b : Term} (hhead : a.head ≠ b.head)
    (hpayload : ¬a.payload.Alike b.payload) :
    a.head = b.head ↔ a.payload.Alike b.payload ∧ a.type = b.type :=
  iff_of_false hhead fun h => hpayload h.1

/-- What is compared of a term, its operands aside, is its type and its payload. -/
theorem head_eq_iff {a b : Term} :
    a.head = b.head ↔ a.payload.Alike b.payload ∧ a.type = b.type := by
  cases a with
  | leaf type l =>
    cases b with
    | leaf type' l' =>
      simp only [head, Head.leaf.injEq, payload, Term.type, ← Leaf.beq_iff_signature,
        Leaf.beq_iff_alike, and_comm]
    | unary | binary | ternary | call | lambda => exact head_eq_iff_of_ne (by simp [head]) (by rintro ⟨⟩)
  | unary op type a =>
    cases b with
    | unary op' type' b =>
      simp only [head, Head.unary.injEq, payload, Term.type, ← UnaryOp.beq_iff_signature,
        UnaryOp.beq_iff_alike, and_comm]
    | leaf | binary | ternary | call | lambda => exact head_eq_iff_of_ne (by simp [head]) (by rintro ⟨⟩)
  | binary op type =>
    cases b with
    | binary op' type' =>
      simp only [head, Head.binary.injEq, payload, Term.type, Payload.alike_binary_iff, and_comm]
    | leaf | unary | ternary | call | lambda => exact head_eq_iff_of_ne (by simp [head]) (by rintro ⟨⟩)
  | ternary op type =>
    cases b with
    | ternary op' type' =>
      simp only [head, Head.ternary.injEq, payload, Term.type, Payload.alike_ternary_iff, and_comm]
    | leaf | unary | binary | call | lambda => exact head_eq_iff_of_ne (by simp [head]) (by rintro ⟨⟩)
  | call type method =>
    cases b with
    | call type' method' =>
      simp only [head, Head.call.injEq, payload, Term.type, Payload.alike_call_iff, and_comm]
    | leaf | unary | binary | ternary | lambda => exact head_eq_iff_of_ne (by simp [head]) (by rintro ⟨⟩)
  | lambda type params body =>
    cases b with
    | lambda type' params' body' =>
      simp only [head, Head.lambda.injEq, payload, Term.type, Payload.alike_lambda_iff, and_comm]
    | leaf | unary | binary | ternary | call => exact head_eq_iff_of_ne (by simp [head]) (by rintro ⟨⟩)

theorem sameAll_iff_forall₂ {related : Term → Term → Prop} {as bs : List Term}
    (h : ∀ a ∈ as, ∀ {b : Term}, Term.same a b = true ↔ related a b) :
    Term.sameAll as bs = true ↔ List.Forall₂ related as bs := by
  induction as generalizing bs with
  | nil => cases bs <;> simp [Term.sameAll]
  | cons a as ih =>
    cases bs with
    | nil => simp [Term.sameAll]
    | cons b bs =>
      rw [List.forall_mem_cons] at h
      rw [Term.sameAll, Bool.and_eq_true, h.1, ih h.2, List.forall₂_cons]

/-- Terms are the same when their trees are, but for payloads that are written alike. -/
theorem beq_iff_sameTree {a b : Term} : (a == b) = true ↔ a.SameTree Payload.Alike b := by
  change Term.same a b = true ↔ _
  induction a using operands_induction generalizing b with
  | step a ih =>
    rw [same_iff_head, head_eq_iff, sameAll_iff_forall₂ ih]
    constructor
    · rintro ⟨⟨hpayload, htype⟩, hoperands⟩
      exact .node hpayload htype hoperands
    · rintro ⟨hpayload, htype, hoperands⟩
      exact ⟨⟨hpayload, htype⟩, hoperands⟩

/-! ## Keys -/

section keys
variable {a b : Term}

/-- Terms that are the same hold literals that are written alike, or none. -/
theorem rel_literal? (h : (a == b) = true) : Option.Rel Literal.Alike a.literal? b.literal? := by
  obtain ⟨hpayload, -, -⟩ := beq_iff_sameTree.mp h
  cases a with
  | leaf type l =>
    cases b with
    | leaf type' l' =>
      simp only [payload] at hpayload
      cases hpayload with
      | refl =>
        cases l with
        | literal k => exact .some (.refl k)
        | argument | value | result | undefined | statics => exact .none
      | result => exact .none
      | literal hkl => exact .some hkl
    | unary | binary | ternary | call | lambda => cases hpayload
  | unary | binary | ternary | call | lambda =>
    cases b with
    | leaf => cases hpayload
    | unary | binary | ternary | call | lambda => exact .none

theorem isNull_congr (h : (a == b) = true) : a.isNull = b.isNull := by
  have hliteral := rel_literal? h
  unfold isNull
  generalize a.literal? = k at hliteral ⊢
  generalize b.literal? = l at hliteral ⊢
  cases hliteral with
  | none => rfl
  | some hkl => cases hkl <;> rfl

theorem isLiteral_congr (h : (a == b) = true) : a.isLiteral = b.isLiteral := by
  have hliteral := rel_literal? h
  unfold isLiteral
  generalize a.literal? = k at hliteral ⊢
  generalize b.literal? = l at hliteral ⊢
  cases hliteral <;> rfl

/-- An entry is found under each of two terms that are the same, or under neither. -/
theorem find?_congr {β : Type} (entries : List (Term × β)) (h : (a == b) = true) :
    (entries.find? fun entry => entry.1 == a) = entries.find? fun entry => entry.1 == b := by
  congr 1
  funext entry
  exact BEq.congr_right h

end keys

/-- **Identity of terms.** Terms are the same when they are the same tree, but for payloads that are
written alike; those that are the same tree without that exception are the same. Under terms that
are the same, the same entry is found in any table, so the same value in that of a model, the same
memory space and the same replacement. A new term is put in place of an old one, or it is the same
tree but for payloads that are written alike. -/
theorem laws_of_identity :
    (∀ a b : Term, (a == b) = true ↔ a.SameTree Payload.Alike b) ∧
    (∀ a b : Term, a.SameTree Payload.Exact b → (a == b) = true) ∧
    (∀ a b : Term, (a == b) = true →
      (∀ (β : Type) (entries : List (Term × β)),
        (entries.find? fun entry => entry.1 == a) = entries.find? fun entry => entry.1 == b) ∧
      (∀ m : HeapModel, a.isLiteral = false → m.toModel.evaluate a = m.toModel.evaluate b) ∧
      (∀ m : MemorySpaces, m.spaceOf? a = m.spaceOf? b) ∧
      (∀ r : Renaming, r.find? a = r.find? b)) ∧
    (∀ old new : Term, settle old new = new ∨
      (settle old new = old ∧ new.SameTree Payload.Alike old)) := by
  refine ⟨fun a b => beq_iff_sameTree, ?_, ?_, ?_⟩
  · intro a b h
    exact beq_iff_sameTree.mpr (h.mono fun _ _ hexact => hexact.alike)
  · intro a b h
    refine ⟨fun β entries => find?_congr entries h, fun m hliteral => ?_, fun m => ?_, fun r => ?_⟩
    · have hliteral' : b.isLiteral = false := isLiteral_congr h ▸ hliteral
      have hnone : a.literal? = none := by simpa [isLiteral] using hliteral
      have hnone' : b.literal? = none := by simpa [isLiteral] using hliteral'
      simp only [HeapModel.toModel, hnone, hnone', find?_congr _ h]
    · rw [MemorySpaces.spaceOf?, MemorySpaces.spaceOf?, isNull_congr h, find?_congr _ h]
    · rw [Renaming.find?, Renaming.find?, find?_congr _ h]
  · intro old new
    by_cases h : (new == old) = true
    · exact .inr ⟨if_pos h, beq_iff_sameTree.mp h⟩
    · exact .inl (if_neg h)

/-! A function with its body chained in two ways, entered in a table, a space and a renaming. -/

namespace Rechained

def x : Term := .value .bool "x"

def fact (on : Bool) : Predicate := ⟨.state, .equal x (.bool on), {}⟩

def function : Term := .lambda .bool [x] (.basic [fact true, fact false])

def function' : Term := .lambda .bool [x] (.chain (.basic [fact true]) (.basic [fact false]))

def model : HeapModel := { values := [(function, .bool true)] }

def spaces : MemorySpaces := ⟨[(x, 2), (function, 1)]⟩

def replacing : Renaming := { suffix := "1", entries := [(function, x)] }

/-- What is entered for the one function is found for the other. -/
theorem found_of_sameTree :
    function.SameTree Payload.Exact function' ∧ (function == function') = true ∧
      function.isLiteral = false ∧ model.toModel.evaluate function' = some (.bool true) ∧
      spaces.spaceOf? function' = some 1 ∧ replacing.find? function' = some x := by
  obtain ⟨-, hexact, hkeys, -⟩ := laws_of_identity
  have htree : function.SameTree Payload.Exact function' :=
    .node (.lambda (by decide)) rfl (.cons (.node (.refl _) rfl .nil) .nil)
  have hsame : (function == function') = true := hexact function function' htree
  obtain ⟨-, hmodel, hspaces, hrenaming⟩ := hkeys function function' hsame
  refine ⟨htree, hsame, rfl, ?_, ?_, ?_⟩
  · rw [← hmodel model rfl]
    rfl
  · rw [← hspaces spaces]
    rfl
  · rw [← hrenaming replacing]
    rfl

end Rechained

/-! Payloads that are written alike: methods of one name, a dot that belongs to the class or to the
name, a class that is named like an array, patterns that stand for no number, and bodies whose
values differ in type. -/

namespace Twins

def size (owner : String) : Term := .call .int ⟨owner, "size", "()I"⟩ (.this .object) []

def returned (owner name : String) : Term := .result .int ⟨owner, name, "()I"⟩

def isOf (checked : ValueType) : Term := .instanceOf checked (.this .object)

def classOf (named : ValueType) : Term := .literal (.class named)

def nan (payload : Nat) : Term :=
  .literal (.double ⟨BitVec.ofNat _ (0x7ff8000000000000 + payload)⟩)

def body (type : ValueType) : SymbolicState :=
  .basic [⟨.state, .equal (.value type "x") (.value type "x"), {}⟩]

def function (type : ValueType) : Term := .lambda .bool [] (body type)

/-- Rules that give a value another type. -/
def widening : Rules Id where
  term t := pure (if t == .value .int "x" then .value .long "x" else t)

theorem not_sameTree_of_payload_ne {a b : Term} (hpayload : a.payload ≠ b.payload)
    (hlambda : ∀ body, a.payload ≠ .lambda body) : ¬a.SameTree Payload.Exact b := by
  rintro ⟨h, -, -⟩
  exact hpayload (h.eq hlambda)

/-- Each two of these are the same and are not the same tree. A rewrite that turns one into the
other is taken for none where the term is an operand. -/
theorem same_not_sameTree :
    ((size "List" == size "Set") = true ∧ ¬(size "List").SameTree Payload.Exact (size "Set")) ∧
    ((returned "a" "b.c" == returned "a.b" "c") = true ∧
      ¬(returned "a" "b.c").SameTree Payload.Exact (returned "a.b" "c")) ∧
    ((isOf (.class "int[]") == isOf (.array .int)) = true ∧
      ¬(isOf (.class "int[]")).SameTree Payload.Exact (isOf (.array .int))) ∧
    ((classOf (.class "int[]") == classOf (.array .int)) = true ∧
      ¬(classOf (.class "int[]")).SameTree Payload.Exact (classOf (.array .int))) ∧
    ((nan 0 == nan 1) = true ∧ ¬(nan 0).SameTree Payload.Exact (nan 1)) ∧
    ((function .int == function .long) = true ∧
      ¬(function .int).SameTree Payload.Exact (function .long)) ∧
    widening.reviseTerm (function .int) = function .long ∧
    widening.reviseTerm (.negate (function .int)) = .negate (function .int) := by
  refine ⟨⟨by decide, not_sameTree_of_payload_ne ?_ nofun⟩,
    ⟨by decide, not_sameTree_of_payload_ne ?_ nofun⟩, ⟨by decide, not_sameTree_of_payload_ne ?_ nofun⟩,
    ⟨by decide, not_sameTree_of_payload_ne ?_ nofun⟩, ⟨by decide, not_sameTree_of_payload_ne ?_ nofun⟩,
    ⟨by decide, ?_⟩, rfl, rfl⟩
  · simp [size, payload]
  · simp [returned, result, payload]
  · simp [isOf, instanceOf, payload]
  · simp [classOf, literal, payload]
  · simp only [nan, literal, payload, ne_eq, Payload.leaf.injEq, Leaf.literal.injEq,
      Literal.double.injEq, BinaryFloat.mk.injEq]
    decide
  · rintro ⟨h, -, -⟩
    have hdiffer : (body .int == body .long) = false := by decide
    exact absurd h.beq_of_lambda (by rw [hdiffer]; exact Bool.false_ne_true)

end Twins

end Term
end Concolic
