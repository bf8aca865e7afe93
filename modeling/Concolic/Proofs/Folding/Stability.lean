import Concolic.Proofs.Folding.Results
import Concolic.Proofs.Revision
import Concolic.Proofs.State.Satisfaction

/-!
# What folding leaves alone

A term that folds to what is the same is stable. Stable terms have stable operands. A stable term
folds to itself, unless it is a function: of the bodies of functions only the text is compared. A
state folds to what is the same exactly when the operands of all its predicates are stable, in
every alternative of every choice, and then it folds to itself.

## Main definitions

* `Term.span` — the size of a term without the bodies of functions in it.
* `Folding.Stable` — the terms that fold to what is the same.

## Main statements

* `Folding.Stable.cases` — stability goes down to operands.
* `Folding.foldState_beq_iff` — the states that fold to what is the same.
-/

namespace Concolic

/-! ## Terms outside bodies -/

namespace Term

def isFunction : Term → Bool
  | .lambda _ _ _ => true
  | _ => false

theorem eq_lambda_of_isFunction {t : Term} (h : t.isFunction = true) :
    ∃ type params body, t = .lambda type params body := by
  cases t with
  | lambda type params body => exact ⟨type, params, body, rfl⟩
  | leaf | unary | binary | ternary | call => cases h

mutual

/-- The number of nodes outside the bodies of functions. -/
def span : Term → Nat
  | .leaf _ _ => 1
  | .unary _ _ a => a.span + 1
  | .binary _ _ a b => a.span + b.span + 1
  | .ternary _ _ a b c => a.span + b.span + c.span + 1
  | .call _ _ receiver arguments => receiver.span + spanOfAll arguments + 1
  | .lambda _ params _ => spanOfAll params + 1

def spanOfAll : List Term → Nat
  | [] => 0
  | t :: rest => t.span + spanOfAll rest

end

theorem span_eq (t : Term) : t.span = spanOfAll t.operands + 1 := by
  cases t <;> simp [span, spanOfAll, operands]
  omega

theorem span_le_spanOfAll {t : Term} {ts : List Term} (h : t ∈ ts) : t.span ≤ spanOfAll ts := by
  induction ts with
  | nil => cases h
  | cons u ts ih =>
    rw [spanOfAll]
    rcases List.mem_cons.mp h with rfl | h
    · exact Nat.le_add_right _ _
    · exact Nat.le_trans (ih h) (Nat.le_add_left _ _)

theorem span_lt_of_mem_operands {a t : Term} (h : a ∈ t.operands) : a.span < t.span := by
  rw [t.span_eq]
  exact Nat.lt_succ_of_le (span_le_spanOfAll h)

theorem spanOfAll_map_le {change : Term → Term} {ts : List Term}
    (h : ∀ t ∈ ts, (change t).span ≤ t.span) : spanOfAll (ts.map change) ≤ spanOfAll ts := by
  induction ts with
  | nil => exact Nat.le_refl _
  | cons t ts ih =>
    rw [List.forall_mem_cons] at h
    exact Nat.add_le_add h.1 (ih h.2)

/-- Terms that are the same have as many nodes. -/
theorem span_of_beq {a b : Term} (h : (a == b) = true) : a.span = b.span := by
  induction a using operands_induction generalizing b with
  | step a ih =>
    have hall : ∀ as bs : List Term,
        (∀ c ∈ as, ∀ {d : Term}, (c == d) = true → c.span = d.span) →
        Term.sameAll as bs = true → spanOfAll as = spanOfAll bs := by
      intro as bs hspan hsame
      induction as generalizing bs with
      | nil => cases bs <;> simp_all [Term.sameAll]
      | cons c as ihs =>
        cases bs with
        | nil => simp [Term.sameAll] at hsame
        | cons d bs =>
          rw [List.forall_mem_cons] at hspan
          rw [Term.sameAll, Bool.and_eq_true] at hsame
          rw [spanOfAll, spanOfAll, hspan.1 hsame.1, ihs bs hspan.2 hsame.2]
    rw [a.span_eq, b.span_eq, hall _ _ ih (same_iff_head.mp h).2]

/-! ### Terms inside bodies -/

theorem sizeOf_lt_of_occurs {p : Predicate} {s : SymbolicState} (h : s.Occurs p) :
    sizeOf p < sizeOf s := by
  induction h with
  | basic hp =>
    have := List.sizeOf_lt_of_mem hp
    simp
    omega
  | first _ ih | second _ ih => simp; omega
  | choice hs _ ih =>
    have := List.sizeOf_lt_of_mem hs
    simp
    omega

theorem sizeOf_lt_of_mem_predicate {b : Term} {p : Predicate} (h : b ∈ p.operands) :
    sizeOf b < sizeOf p := by
  obtain ⟨role, assertion, location⟩ := p
  cases assertion with
  | unary | binary | generate =>
    simp [Clause.operands, Assertion.operands] at h
    simp
    grind
  | newArray array dimensions =>
    rcases List.mem_cons.mp h with rfl | h
    · simp; omega
    · have := List.sizeOf_lt_of_mem h
      simp; omega

/-- Induction over a term, its operands and, if it is a function, the terms of its body. -/
theorem inner_induction {motive : Term → Prop}
    (step : ∀ t, (∀ b ∈ t.operands, motive b) →
      (∀ type params body, t = .lambda type params body →
        ∀ p, body.Occurs p → ∀ b ∈ p.operands, motive b) → motive t)
    (t : Term) : motive t := by
  refine step t (fun b hb => ?_) fun type params body ht p hp b hb => ?_
  · have := sizeOf_lt_of_mem_operands hb
    exact inner_induction step b
  · have hlambda : sizeOf body < sizeOf t := by
      rw [ht, Term.lambda.sizeOf_spec]
      omega
    have hp := sizeOf_lt_of_occurs hp
    have hb := sizeOf_lt_of_mem_predicate hb
    exact inner_induction step b
termination_by sizeOf t

end Term

/-! ## States of one shape -/

namespace State

variable {α : Type} {alternatives : List (State α)} {change : State α → State α}

theorem all_isEmpty_itemsOfAll_map
    (h : ∀ s ∈ alternatives, (change s).items.length = s.items.length) :
    (itemsOfAll (alternatives.map change)).all List.isEmpty =
      (itemsOfAll alternatives).all List.isEmpty := by
  rw [itemsOfAll_eq_map, itemsOfAll_eq_map, List.map_map, Bool.eq_iff_iff, List.all_eq_true,
    List.all_eq_true, List.forall_mem_map, List.forall_mem_map]
  refine forall₂_congr fun s hs => ?_
  rw [Function.comp_apply, List.isEmpty_iff_length_eq_zero, List.isEmpty_iff_length_eq_zero, h s hs]

theorem length_items_choice_map
    (h : ∀ s ∈ alternatives, (change s).items.length = s.items.length) :
    (choice (alternatives.map change)).items.length = (choice alternatives).items.length := by
  rw [items_choice, items_choice, all_isEmpty_itemsOfAll_map h]
  split <;> rfl

variable [BEq α]

theorem basic_beq_iff {xs ys : List α} : (basic xs == basic ys) = true ↔ (xs == ys) = true := by
  change Item.sameRuns _ _ = true ↔ _
  rw [items_basic, items_basic]
  induction xs generalizing ys with
  | nil => cases ys <;> simp [Item.sameRuns]
  | cons x xs ih =>
    cases ys with
    | nil => simp [Item.sameRuns]
    | cons y ys => simp [Item.sameRuns, Item.same, ih]

/-- States whose first halves have as many items are the same when both halves are. -/
theorem beq_of_chain_beq [EquivBEq α] {s s' t t' : State α}
    (hlength : s'.items.length = s.items.length)
    (h : (chain s' t' == chain s t) = true) : (s' == s) = true ∧ (t' == t) = true := by
  rw [beq_iff_key, key, key, items_chain, items_chain, List.map_append, List.map_append] at h
  obtain ⟨hs, ht⟩ := List.append_inj h (by simpa using hlength)
  exact ⟨beq_iff_key.mpr hs, beq_iff_key.mpr ht⟩

/-- Choices with as many items in their alternatives are the same when the alternatives are. -/
theorem beq_of_choice_map_beq
    (hlength : ∀ s ∈ alternatives, (change s).items.length = s.items.length)
    (h : (choice (alternatives.map change) == choice alternatives) = true) :
    ∀ s ∈ alternatives, (change s == s) = true := by
  by_cases hempty : (itemsOfAll alternatives).all List.isEmpty = true
  · intro s hs
    rw [itemsOfAll_eq_map, List.all_map, List.all_eq_true] at hempty
    have hitems : s.items = [] := List.isEmpty_iff.mp (hempty s hs)
    have hchanged : (change s).items = [] :=
      List.length_eq_zero_iff.mp ((hlength s hs).trans (by rw [hitems]; rfl))
    change Item.sameRuns _ _ = true
    rw [hitems, hchanged]
    rfl
  · change Item.sameRuns _ _ = true at h
    rw [items_choice, items_choice, all_isEmpty_itemsOfAll_map hlength, if_neg hempty,
      if_neg hempty, Item.sameRuns, Item.same, Bool.and_eq_true, itemsOfAll_eq_map,
      itemsOfAll_eq_map] at h
    have hbranches := h.1
    clear h hempty hlength
    induction alternatives with
    | nil => simp
    | cons s rest ih =>
      rw [List.map_cons, List.map_cons, List.map_cons, Item.sameBranches, Bool.and_eq_true]
        at hbranches
      exact List.forall_mem_cons.mpr ⟨hbranches.1, ih hbranches.2⟩

end State

namespace Folding

variable {t x a b c : Term} {ts : List Term}

theorem map_beq_iff {α : Type} [BEq α] {change : α → α} {xs : List α} :
    (xs.map change == xs) = true ↔ ∀ x ∈ xs, (change x == x) = true := by
  induction xs with
  | nil => simp
  | cons x xs ih =>
    rw [List.map_cons, List.cons_beq_cons, Bool.and_eq_true, ih, List.forall_mem_cons]

/-- A new value is put in place exactly if it differs. -/
theorem settle_beq_old_iff {α : Type} [BEq α] [EquivBEq α] {old new : α} :
    (settle old new == old) = true ↔ (new == old) = true := by
  rw [settle]
  split
  · next hsame => exact iff_of_true BEq.rfl hsame
  · exact Iff.rfl

/-! ## One step -/

theorem unaryTerm?_cases {op : UnaryOp} {type : ValueType} (h : unaryTerm? op type a = some x) :
    x = a ∨ ∃ l, x = .literal l := by
  cases op with
  | cast =>
    rw [unaryTerm?] at h
    split at h
    · exact .inl (Option.some.inj h).symm
    · obtain ⟨l, -, rfl⟩ := Option.map_eq_some_iff.mp h
      exact .inr ⟨l, rfl⟩
  | negate | stringLength | toText | parse =>
    obtain ⟨l, -, rfl⟩ := Option.map_eq_some_iff.mp h
    exact .inr ⟨_, rfl⟩
  | arrayLength | arrayLoad | field | fieldLoad | instanceOf => cases h

theorem binaryTerm?_eq_literal {op : BinaryOp} {type : ValueType}
    (h : binaryTerm? op type a b = .ok (some x)) : ∃ l, x = .literal l := by
  cases op with
  | arithmetic op =>
    simp only [binaryTerm?, arithmeticTerm?] at h
    split at h
    · obtain ⟨folded, -, h⟩ := bind_eq_ok.mp h
      obtain ⟨l, -, rfl⟩ := Option.map_eq_some_iff.mp (Except.ok.inj h)
      exact ⟨l, rfl⟩
    · cases h
  | compare | equals | charAt =>
    obtain ⟨_, -, h⟩ := Option.bind_eq_some_iff.mp (Except.ok.inj h)
    obtain ⟨_, -, h⟩ := Option.bind_eq_some_iff.mp h
    obtain ⟨_, -, h⟩ := Option.bind_eq_some_iff.mp h
    exact ⟨_, (Option.some.inj h).symm⟩
  | concat | stringContains =>
    obtain ⟨_, -, h⟩ := Option.bind_eq_some_iff.mp (Except.ok.inj h)
    obtain ⟨_, -, h⟩ := Option.bind_eq_some_iff.mp h
    exact ⟨_, (Option.some.inj h).symm⟩
  | arraySlot | arrayContains => cases h

theorem ternaryTerm?_cases {op : TernaryOp} (h : ternaryTerm? op a b c = some x) :
    x = b ∨ x = c ∨ ∃ l, x = .literal l := by
  cases op with
  | indexOf =>
    obtain ⟨_, -, h⟩ := Option.bind_eq_some_iff.mp h
    obtain ⟨_, -, h⟩ := Option.bind_eq_some_iff.mp h
    obtain ⟨_, -, h⟩ := Option.bind_eq_some_iff.mp h
    exact .inr (.inr ⟨_, (Option.some.inj h).symm⟩)
  | substring =>
    obtain ⟨_, -, h⟩ := Option.bind_eq_some_iff.mp h
    obtain ⟨_, -, h⟩ := Option.bind_eq_some_iff.mp h
    obtain ⟨_, -, h⟩ := Option.bind_eq_some_iff.mp h
    obtain ⟨_, -, h⟩ := Option.bind_eq_some_iff.mp h
    exact .inr (.inr ⟨_, (Option.some.inj h).symm⟩)
  | ifThenElse =>
    rw [ternaryTerm?] at h
    split at h
    · next value _ =>
      cases value with
      | true => exact .inl (Option.some.inj h).symm
      | false => exact .inr (.inl (Option.some.inj h).symm)
    · cases h
  | forAll | forSome => cases h

/-- A term folds in one step to one of its operands or to a literal. -/
theorem step?_cases (h : step? t = .ok (some x)) : x ∈ t.operands ∨ ∃ l, x = .literal l := by
  cases t with
  | leaf | call | lambda => cases h
  | unary op type a =>
    exact (unaryTerm?_cases (Except.ok.inj h)).imp_left List.mem_singleton.mpr
  | binary op type a b => exact .inr (binaryTerm?_eq_literal h)
  | ternary op type a b c =>
    rcases ternaryTerm?_cases (Except.ok.inj h) with rfl | rfl | hliteral
    · exact .inl (by simp [Term.operands])
    · exact .inl (by simp [Term.operands])
    · exact .inr hliteral

theorem settled_cases (t : Term) :
    settled t = t ∨ settled t ∈ t.operands ∨ ∃ l, settled t = .literal l := by
  unfold settled
  split
  · next folded hstep =>
    cases folded with
    | none => exact .inl rfl
    | some x => exact .inr (step?_cases hstep)
  · exact .inl rfl

/-! ## Stable terms -/

/-- The term folds to what is the same. -/
def Stable (t : Term) : Prop := (foldTerm t == t) = true

theorem stable_literal (l : Literal) : Stable (.literal l) := by
  rw [Stable, Term.literal, foldTerm_leaf]
  exact BEq.rfl

theorem map_foldTerm_beq_iff : (ts.map foldTerm == ts) = true ↔ ∀ b ∈ ts, Stable b := map_beq_iff

/-- What a term becomes when its operands are folded: itself if they are stable, otherwise the
term with the folded operands. -/
inductive Rebuilds (x t : Term) : Prop
  | kept : x = t → (∀ b ∈ t.operands, Stable b) → Rebuilds x t
  | new : x.isFunction = false → x.head = t.head → x.operands = t.operands.map foldTerm →
      ¬(∀ b ∈ t.operands, Stable b) → Rebuilds x t

/-- The operands are folded first, then the term itself. -/
theorem foldTerm_cases (ht : t.isFunction = false) :
    ∃ x, Rebuilds x t ∧ foldTerm t = settled x := by
  have rebuilds_ite {new : Term} {unchanged : Bool}
      (hunchanged : unchanged = true ↔ ∀ b ∈ t.operands, Stable b) (hnew : new.isFunction = false)
      (hhead : new.head = t.head) (hoperands : new.operands = t.operands.map foldTerm) :
      Rebuilds (if unchanged then t else new) t := by
    cases unchanged with
    | true => exact .kept rfl (hunchanged.mp rfl)
    | false => exact .new hnew hhead hoperands fun h => Bool.false_ne_true (hunchanged.mpr h)
  cases t with
  | leaf type l => exact ⟨_, .kept rfl (by simp [Term.operands]), foldTerm_leaf type l⟩
  | unary op type a =>
    refine ⟨_, ?_, foldTerm_unary op type a⟩
    exact rebuilds_ite (by simp [Term.operands, Stable]) rfl rfl rfl
  | binary op type a b =>
    refine ⟨_, ?_, foldTerm_binary op type a b⟩
    exact rebuilds_ite (by simp [Term.operands, Stable]) rfl rfl rfl
  | ternary op type a b c =>
    refine ⟨_, ?_, foldTerm_ternary op type a b c⟩
    exact rebuilds_ite (by simp [Term.operands, Stable, and_assoc]) rfl rfl rfl
  | call type method receiver arguments =>
    refine ⟨_, ?_, foldTerm_call type method receiver arguments⟩
    refine rebuilds_ite ?_ rfl rfl rfl
    rw [Bool.and_eq_true, map_foldTerm_beq_iff, Term.operands, List.forall_mem_cons, Stable]
  | lambda => cases ht

theorem Rebuilds.isFunction (h : Rebuilds x t) (ht : t.isFunction = false) :
    x.isFunction = false := by
  cases h with
  | kept hx => rwa [hx]
  | new hx => exact hx

/-- Only what is one step away is left when the operands are stable. -/
theorem foldTerm_of_stable_operands (ht : t.isFunction = false)
    (h : ∀ b ∈ t.operands, Stable b) : foldTerm t = settled t := by
  obtain ⟨x, hx, hfold⟩ := foldTerm_cases ht
  cases hx with
  | kept heq => rwa [heq] at hfold
  | new _ _ _ hunstable => exact absurd h hunstable

/-! ### Going down -/

theorem Rebuilds.span_le (h : Rebuilds x t)
    (hoperands : ∀ b ∈ t.operands, (foldTerm b).span ≤ b.span) : x.span ≤ t.span := by
  cases h with
  | kept hx => exact Nat.le_of_eq (congrArg Term.span hx)
  | new _ _ hx =>
    rw [x.span_eq, t.span_eq, hx]
    exact Nat.succ_le_succ (Term.spanOfAll_map_le hoperands)

theorem span_settled_le (t : Term) : (settled t).span ≤ t.span := by
  rcases settled_cases t with h | h | ⟨l, h⟩
  · exact Nat.le_of_eq (congrArg Term.span h)
  · exact Nat.le_of_lt (Term.span_lt_of_mem_operands h)
  · rw [h, t.span_eq]
    exact Nat.succ_le_succ (Nat.zero_le _)

/-- Folding makes no term larger, the bodies of functions aside. -/
theorem span_foldTerm_le (t : Term) : (foldTerm t).span ≤ t.span := by
  induction t using Term.operands_induction with
  | step t ih =>
    cases ht : t.isFunction with
    | false =>
      obtain ⟨x, hx, hfold⟩ := foldTerm_cases ht
      rw [hfold]
      exact Nat.le_trans (span_settled_le x) (hx.span_le ih)
    | true =>
      obtain ⟨type, params, body, rfl⟩ := Term.eq_lambda_of_isFunction ht
      rw [foldTerm_lambda, Term.span, Term.span]
      refine Nat.succ_le_succ ?_
      rw [settle]
      split
      · exact Nat.le_refl _
      · exact Term.spanOfAll_map_le ih

/-- The operands of a stable term are stable, and a stable term folds to itself unless it is a
function. -/
theorem Stable.cases (h : Stable t) :
    (∀ b ∈ t.operands, Stable b) ∧ (t.isFunction = false → foldTerm t = t) := by
  cases ht : t.isFunction with
  | false =>
    obtain ⟨x, hx, hfold⟩ := foldTerm_cases ht
    have hsame : (settled x == t) = true := hfold ▸ h
    rcases settled_cases x with hx' | hx' | ⟨l, hx'⟩
    · rw [hx'] at hsame hfold
      cases hx with
      | kept heq hoperands => exact ⟨hoperands, fun _ => hfold.trans heq⟩
      | new _ _ hoperands hunstable =>
        -- A term that is rebuilt from other operands is another term.
        have hall := (Term.same_iff_head.mp hsame).2
        rw [hoperands, Term.sameAll_iff, map_foldTerm_beq_iff] at hall
        exact absurd hall hunstable
    · -- An operand is smaller than the term.
      have hlt := Term.span_lt_of_mem_operands hx'
      have hle := hx.span_le fun b _ => span_foldTerm_le b
      have heq := Term.span_of_beq hsame
      omega
    · -- What is the same as a literal is a leaf.
      rw [hx'] at hsame
      cases t with
      | leaf type l => exact ⟨by simp [Term.operands], fun _ => foldTerm_leaf type l⟩
      | unary | binary | ternary | call | lambda => cases hsame
  | true =>
    obtain ⟨type, params, body, rfl⟩ := Term.eq_lambda_of_isFunction ht
    rw [Stable, foldTerm_lambda] at h
    have hall := (Term.same_iff_head.mp h).2
    rw [Term.sameAll_iff, Term.operands, Term.operands, settle_beq_old_iff,
      map_foldTerm_beq_iff] at hall
    exact ⟨hall, nofun⟩

/-! ## Predicates and states -/

/-- Every operand of the predicate is stable. -/
def StablePredicate (p : Predicate) : Prop := ∀ b ∈ p.operands, Stable b

theorem map_assertion_beq_iff {assertion : Assertion Term} :
    (assertion.map foldTerm == assertion) = true ↔ ∀ b ∈ assertion.operands, Stable b := by
  rw [Assertion.beq_iff_shape, Assertion.operands_map, map_foldTerm_beq_iff]
  exact and_iff_right (by cases assertion <;> rfl)

theorem foldPredicate_beq_iff {p : Predicate} :
    (foldPredicate p == p) = true ↔ StablePredicate p := by
  rw [Clause.beq_iff, foldPredicate, settle_beq_old_iff, map_assertion_beq_iff]
  exact and_iff_right rfl

theorem StablePredicate.foldPredicate_eq {p : Predicate} (h : StablePredicate p) :
    foldPredicate p = p := by
  rw [foldPredicate, settle, if_pos (map_assertion_beq_iff.mpr h)]

theorem map_foldPredicate_beq_iff {parts : List Predicate} :
    (parts.map foldPredicate == parts) = true ↔ ∀ p ∈ parts, StablePredicate p := by
  simp only [map_beq_iff, foldPredicate_beq_iff]

variable {s : SymbolicState} {p : Predicate}

/-- Folding keeps every predicate of a state in its place. -/
theorem length_items_foldState (s : SymbolicState) :
    (foldState s).items.length = s.items.length := by
  cases s with
  | basic parts =>
    rw [foldState_basic, settle]
    split <;> simp
  | chain s t =>
    rw [foldState_chain]
    split
    · rfl
    · simp [length_items_foldState s, length_items_foldState t]
  | choice alternatives =>
    rw [foldState_choice, settle]
    split
    · rfl
    · exact State.length_items_choice_map fun s _ => length_items_foldState s

/-- In a state that folds to what is the same all predicates are stable. -/
theorem stablePredicate_of_foldState_beq : ∀ {s : SymbolicState}, (foldState s == s) = true →
    ∀ p, s.Occurs p → StablePredicate p
  | .basic parts, h, p, hp => by
    cases hp with
    | basic hp =>
      rw [foldState_basic, State.basic_beq_iff, settle_beq_old_iff, map_foldPredicate_beq_iff] at h
      exact h p hp
  | .chain s t, h, p, hp => by
    have hhalves : (foldState s == s) = true ∧ (foldState t == t) = true := by
      rw [foldState_chain] at h
      split at h
      · next hsame => exact Bool.and_eq_true_iff.mp hsame
      · exact State.beq_of_chain_beq (length_items_foldState s) h
    cases hp with
    | first hp => exact stablePredicate_of_foldState_beq hhalves.1 p hp
    | second hp => exact stablePredicate_of_foldState_beq hhalves.2 p hp
  | .choice alternatives, h, p, hp => by
    have hall : ∀ s ∈ alternatives, (foldState s == s) = true := by
      rw [foldState_choice, settle] at h
      split at h
      · next hsame => exact map_beq_iff.mp hsame
      · exact State.beq_of_choice_map_beq (fun s _ => length_items_foldState s) h
    cases hp with
    | choice hs hp => exact stablePredicate_of_foldState_beq (hall _ hs) p hp

/-- A state whose predicates are stable is left as it is. -/
theorem foldState_eq : ∀ {s : SymbolicState}, (∀ p, s.Occurs p → StablePredicate p) →
    foldState s = s
  | .basic parts, h => by
    have hparts := map_foldPredicate_beq_iff.mpr fun p hp => h p (.basic hp)
    rw [foldState_basic, settle, if_pos hparts]
  | .chain s t, h => by
    have hs := foldState_eq fun p hp => h p (.first hp)
    have ht := foldState_eq fun p hp => h p (.second hp)
    rw [foldState_chain, hs, ht, ite_self]
  | .choice alternatives, h => by
    have hall : alternatives.map foldState = alternatives :=
      (List.map_congr_left fun s hs => foldState_eq fun p hp => h p (.choice hs hp)).trans
        (List.map_id' _)
    rw [foldState_choice, hall, settle, ite_self]

/-- **States that are left alone.** -/
theorem foldState_beq_iff :
    (foldState s == s) = true ↔ ∀ p, s.Occurs p → StablePredicate p :=
  ⟨stablePredicate_of_foldState_beq, fun h => by rw [foldState_eq h]; exact BEq.rfl⟩

end Folding
end Concolic
