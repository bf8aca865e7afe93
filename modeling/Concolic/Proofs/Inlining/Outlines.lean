import Concolic.Proofs.Inlining.Walk

/-!
# Outlines

The walk of a round goes into functions too and may change what stands there, which is nowhere
looked at outside of them. The outline of a term is what is left of it with its functions emptied.
It says which method a predicate calls, and everything of a term without functions.

## Main statements

* `Clause.Calls.of_outline` — the outline of a predicate says what it calls.
* `Clause.eq_of_outline_eq` — a predicate without functions is known by its outline.
-/

namespace Concolic

open Inlining

/-! ## Terms -/

mutual

/-- The term with nothing in its functions. -/
def Term.outline : Term → Term
  | .leaf type l => .leaf type l
  | .unary op type a => .unary op type a.outline
  | .binary op type a b => .binary op type a.outline b.outline
  | .ternary op type a b c => .ternary op type a.outline b.outline c.outline
  | .call type method receiver arguments =>
    .call type method receiver.outline (Term.outlineAll arguments)
  | .lambda type _ _ => .lambda type [] .empty

def Term.outlineAll : List Term → List Term
  | [] => []
  | t :: rest => t.outline :: Term.outlineAll rest

end

theorem Term.outlineAll_eq_map (ts : List Term) : Term.outlineAll ts = ts.map Term.outline := by
  induction ts with
  | nil => rfl
  | cons t ts ih => rw [outlineAll, ih, List.map_cons]

mutual

/-- A term without functions is its own outline. -/
theorem Term.outline_of_isFirstOrder : ∀ {t : Term}, t.isFirstOrder = true → t.outline = t
  | .leaf _ _, _ => by rw [outline]
  | .unary _ _ a, h => by
    rw [isFirstOrder] at h
    rw [outline, outline_of_isFirstOrder h]
  | .binary _ _ a b, h => by
    rw [isFirstOrder, Bool.and_eq_true] at h
    rw [outline, outline_of_isFirstOrder h.1, outline_of_isFirstOrder h.2]
  | .ternary _ _ a b c, h => by
    rw [isFirstOrder, Bool.and_eq_true, Bool.and_eq_true] at h
    rw [outline, outline_of_isFirstOrder h.1.1, outline_of_isFirstOrder h.1.2,
      outline_of_isFirstOrder h.2]
  | .call _ _ receiver arguments, h => by
    rw [isFirstOrder, Bool.and_eq_true] at h
    rw [outline, outline_of_isFirstOrder h.1, outlineAll_of_areFirstOrder h.2]

theorem Term.outlineAll_of_areFirstOrder : ∀ {ts : List Term}, areFirstOrder ts = true →
    outlineAll ts = ts
  | [], _ => by rw [outlineAll]
  | t :: ts, h => by
    rw [areFirstOrder, Bool.and_eq_true] at h
    rw [outlineAll, outline_of_isFirstOrder h.1, outlineAll_of_areFirstOrder h.2]

end

mutual

theorem Term.isFirstOrder_outline : ∀ t : Term, t.outline.isFirstOrder = t.isFirstOrder
  | .leaf _ _ => by rw [outline]
  | .unary _ _ a => by rw [outline, isFirstOrder, isFirstOrder, isFirstOrder_outline a]
  | .binary _ _ a b => by
    rw [outline, isFirstOrder, isFirstOrder, isFirstOrder_outline a, isFirstOrder_outline b]
  | .ternary _ _ a b c => by
    rw [outline, isFirstOrder, isFirstOrder, isFirstOrder_outline a, isFirstOrder_outline b,
      isFirstOrder_outline c]
  | .call _ _ receiver arguments => by
    rw [outline, isFirstOrder, isFirstOrder, isFirstOrder_outline receiver,
      areFirstOrder_outlineAll arguments]
  | .lambda _ _ _ => by rw [outline, isFirstOrder, isFirstOrder]

theorem Term.areFirstOrder_outlineAll : ∀ ts : List Term,
    areFirstOrder (outlineAll ts) = areFirstOrder ts
  | [] => by rw [outlineAll]
  | t :: ts => by
    rw [outlineAll, areFirstOrder, areFirstOrder, isFirstOrder_outline t,
      areFirstOrder_outlineAll ts]

end

/-! ## Predicates -/

namespace Clause

variable {p q : Predicate} {method : Method}

/-- The predicate with nothing in its functions. -/
def outline (p : Predicate) : Predicate := { p with assertion := p.assertion.map Term.outline }

theorem role_eq_of_outline (h : p.outline = q.outline) : p.role = q.role := by
  have hrole : p.outline.role = q.outline.role := by rw [h]
  exact hrole

theorem isPath_of_outline (h : p.outline = q.outline) : p.isPath = q.isPath := by
  rw [isPath, role_eq_of_outline h, isPath]

theorem callOf?_outline (p : Predicate) : callOf? p.outline =
    (callOf? p).map fun call => (call.1.map Term.outline, call.2.outline) :=
  callOf?_map Term.outline p.role p.assertion p.location

/-- Predicates with one outline call one method. -/
theorem Calls.of_outline (h : p.outline = q.outline) (hp : p.Calls method) : q.Calls method := by
  obtain ⟨target?, type, receiver, arguments, hcall⟩ := hp
  have hq : callOf? q.outline =
      some (target?.map Term.outline, (Term.call type method receiver arguments).outline) := by
    rw [← h, callOf?_outline, hcall]
    rfl
  rw [callOf?_outline, Option.map_eq_some_iff] at hq
  obtain ⟨⟨target?', call⟩, hcall', heq⟩ := hq
  obtain ⟨-, heq⟩ := Prod.mk.inj heq
  cases call with
  | call type' method' receiver' arguments' =>
    rw [Term.outline, Term.outline] at heq
    obtain rfl := (Term.call.inj heq).2.1
    exact ⟨target?', type', receiver', arguments', hcall'⟩
  | leaf | unary | binary | ternary | lambda => simp [Term.outline] at heq

theorem outline_of_areFirstOrder (h : Term.areFirstOrder p.operands = true) : p.outline = p := by
  have hterms : ∀ t ∈ p.assertion.operands, t.outline = id t := fun t ht =>
    Term.outline_of_isFirstOrder (Term.areFirstOrder_iff.mp h t ht)
  rw [outline, Assertion.map_congr p.assertion hterms, Assertion.map_id]

/-- What has the outline of a predicate without functions is that predicate. -/
theorem eq_of_outline_eq (h : p.outline = q.outline)
    (hq : Term.areFirstOrder q.operands = true) : p = q := by
  have hoperands (r : Predicate) : r.outline.operands = Term.outlineAll r.operands := by
    rw [Term.outlineAll_eq_map]
    exact Assertion.operands_map ..
  have hp : Term.areFirstOrder p.operands = true := by
    rw [← Term.areFirstOrder_outlineAll, ← hoperands, h, hoperands, Term.areFirstOrder_outlineAll,
      hq]
  rw [← outline_of_areFirstOrder hp, h, outline_of_areFirstOrder hq]

end Clause
end Concolic
