import Concolic.Proofs.Folding.Stability
import Concolic.Proofs.Traversal

/-!
# Folding reaches a normal form

Folding once is enough: what it gives folds to the same again. This is so for every term that can
be seen in the folded state, in every alternative and below every operator. A function is seen
through its text, so a change of its body that is not seen in the text is not taken over where the
function is put back in its place. Folding leaves nothing undone in the bodies of functions either
if no function changes unseen.

## Main definitions

* `Term.InSight` — terms that are not in the body of a function which folding still changes.
* `Folding.Transparent` — states no function of which changes unseen.

## Main statements

* `Folding.foldTerm_foldTerm` — what a term folds to is stable.
* `Folding.run_normal_form` — what is left to fold after a run.
-/

namespace Concolic

open Folding

/-- The term is `t`, or is in an operand of it, or in the body of a function that folding leaves as
it is. -/
inductive Term.InSight (a : Term) : Term → Prop
  | self : InSight a a
  | operand {b t : Term} : b ∈ t.operands → InSight a b → InSight a t
  | body {type : ValueType} {params : List Term} {body : SymbolicState} {p : Predicate} {b : Term} :
      foldTerm (.lambda type params body) = .lambda type params body → body.Occurs p →
      b ∈ p.operands → InSight a b → InSight a (.lambda type params body)

/-- The term is in a predicate of the state, and in sight there. -/
def State.InSight (s : SymbolicState) (a : Term) : Prop :=
  ∃ p b, s.Occurs p ∧ b ∈ p.operands ∧ a.InSight b

namespace Folding

variable {t x a b c f : Term} {ts : List Term} {s s' : SymbolicState} {p : Predicate}

/-! ## Folding twice -/

/-- What stands in the place of a term in something folded: the term folded, or the term itself,
put back because it folds to what is the same. -/
inductive StandsFor (b c : Term) : Prop
  | folded : b = foldTerm c → StandsFor b c
  | kept : b = c → Stable c → StandsFor b c

theorem StandsFor.stable (h : StandsFor b c) (hc : Stable (foldTerm c)) : Stable b := by
  cases h with
  | folded hb => rwa [hb]
  | kept hb hstable => rwa [hb]

theorem exists_of_mem_settle (h : b ∈ settle ts (ts.map foldTerm)) : ∃ c ∈ ts, StandsFor b c := by
  rw [settle] at h
  split at h
  · next hsame => exact ⟨b, h, .kept rfl (map_foldTerm_beq_iff.mp hsame b h)⟩
  · obtain ⟨c, hc, rfl⟩ := List.mem_map.mp h
    exact ⟨c, hc, .folded rfl⟩

theorem Rebuilds.exists_operand (h : Rebuilds x t) (hb : b ∈ x.operands) :
    ∃ c ∈ t.operands, StandsFor b c := by
  cases h with
  | kept hx hstable => exact ⟨b, hx ▸ hb, .kept rfl (hstable b (hx ▸ hb))⟩
  | new _ _ hx =>
    rw [hx] at hb
    obtain ⟨c, hc, rfl⟩ := List.mem_map.mp hb
    exact ⟨c, hc, .folded rfl⟩

theorem exists_operand_foldPredicate (h : b ∈ (foldPredicate p).operands) :
    ∃ c ∈ p.operands, StandsFor b c := by
  rw [foldPredicate, settle] at h
  dsimp only [Clause.operands] at h
  split at h
  · next hsame => exact ⟨b, h, .kept rfl (map_assertion_beq_iff.mp hsame b h)⟩
  · rw [Assertion.operands_map] at h
    obtain ⟨c, hc, rfl⟩ := List.mem_map.mp h
    exact ⟨c, hc, .folded rfl⟩

/-- The predicates of a folded state are those of the state, folded. -/
theorem exists_of_occurs_foldState : ∀ {s : SymbolicState}, (foldState s).Occurs p →
    ∃ q, s.Occurs q ∧ p = foldPredicate q
  | .basic parts, h => by
    rw [foldState_basic, settle] at h
    split at h
    · next hsame =>
      cases h with
      | basic hp =>
        exact ⟨p, .basic hp, (map_foldPredicate_beq_iff.mp hsame p hp).foldPredicate_eq.symm⟩
    · cases h with
      | basic hp =>
        obtain ⟨q, hq, rfl⟩ := List.mem_map.mp hp
        exact ⟨q, .basic hq, rfl⟩
  | .chain s t, h => by
    rw [foldState_chain] at h
    split at h
    · next hsame =>
      have hboth := Bool.and_eq_true_iff.mp hsame
      have hstable : StablePredicate p := by
        cases h with
        | first hp => exact foldState_beq_iff.mp hboth.1 p hp
        | second hp => exact foldState_beq_iff.mp hboth.2 p hp
      exact ⟨p, h, hstable.foldPredicate_eq.symm⟩
    · cases h with
      | first hp =>
        obtain ⟨q, hq, hpq⟩ := exists_of_occurs_foldState hp
        exact ⟨q, .first hq, hpq⟩
      | second hp =>
        obtain ⟨q, hq, hpq⟩ := exists_of_occurs_foldState hp
        exact ⟨q, .second hq, hpq⟩
  | .choice alternatives, h => by
    rw [foldState_choice, settle] at h
    split at h
    · next hsame =>
      cases h with
      | choice hs hp =>
        have hstable := foldState_beq_iff.mp (map_beq_iff.mp hsame _ hs) p hp
        exact ⟨p, .choice hs hp, hstable.foldPredicate_eq.symm⟩
    · cases h with
      | choice hs hp =>
        obtain ⟨u, hu, rfl⟩ := List.mem_map.mp hs
        obtain ⟨q, hq, hpq⟩ := exists_of_occurs_foldState hp
        exact ⟨q, .choice hu hq, hpq⟩

/-- A function with stable parameters and a body of stable predicates is left as it is. -/
theorem foldTerm_lambda_eq {type : ValueType} {params : List Term} {body : SymbolicState}
    (hparams : ∀ b ∈ params, Stable b) (hbody : ∀ p, body.Occurs p → StablePredicate p) :
    foldTerm (.lambda type params body) = .lambda type params body := by
  rw [foldTerm_lambda, foldState_eq hbody, settle, if_pos (map_foldTerm_beq_iff.mpr hparams),
    settle, ite_self]

/-- A term folds to what is stable, and a function to one that is left as it is. -/
theorem foldTerm_foldTerm (t : Term) :
    Stable (foldTerm t) ∧ (t.isFunction = true → foldTerm (foldTerm t) = foldTerm t) := by
  induction t using Term.inner_induction with
  | step t ihoperands ihbody =>
    cases ht : t.isFunction with
    | false =>
      refine ⟨?_, nofun⟩
      obtain ⟨x, hx, hfold⟩ := foldTerm_cases ht
      have hoperands : ∀ b ∈ x.operands, Stable b := by
        intro b hb
        obtain ⟨c, hc, hstands⟩ := hx.exists_operand hb
        exact hstands.stable (ihoperands c hc).1
      rw [hfold]
      rcases settled_cases x with hsettled | hsettled | ⟨l, hsettled⟩
      · have hx' := foldTerm_of_stable_operands (hx.isFunction ht) hoperands
        rw [hsettled, Stable, hx', hsettled]
        exact BEq.rfl
      · exact hoperands _ hsettled
      · rw [hsettled]
        exact stable_literal l
    | true =>
      obtain ⟨type, params, body, rfl⟩ := Term.eq_lambda_of_isFunction ht
      have hfixed : foldTerm (foldTerm (.lambda type params body)) =
          foldTerm (.lambda type params body) := by
        rw [foldTerm_lambda]
        refine foldTerm_lambda_eq (fun b hb => ?_) ?_
        · obtain ⟨c, hc, hstands⟩ := exists_of_mem_settle hb
          exact hstands.stable (ihoperands c hc).1
        · rw [settle]
          split
          · next hsame => exact foldState_beq_iff.mp hsame
          · intro p hp b hb
            obtain ⟨q, hq, rfl⟩ := exists_of_occurs_foldState hp
            obtain ⟨c, hc, hstands⟩ := exists_operand_foldPredicate hb
            exact hstands.stable (ihbody type params body rfl q hq c hc).1
      refine ⟨?_, fun _ => hfixed⟩
      rw [Stable, hfixed]
      exact BEq.rfl

/-! ## Terms in sight -/

/-- Folding changes no function of the state unseen: one that folds to what is the same folds to
itself. -/
def Transparent (s : SymbolicState) : Prop :=
  ∀ f, s.HasTerm f → f.isFunction = true → Stable f → foldTerm f = f

/-- What is in sight in a stable term is stable. -/
theorem Stable.of_inSight (h : Stable t) (ha : a.InSight t) : Stable a := by
  induction ha with
  | self => exact h
  | operand hb _ ih => exact ih (h.cases.1 _ hb)
  | @body type params body p b hfixed hp hb _ ih =>
    rw [foldTerm_lambda] at hfixed
    have hsettle : settle body (foldState body) = body := (Term.lambda.inj hfixed).2.2
    have hbody : (foldState body == body) = true :=
      settle_beq_old_iff.mp (by rw [hsettle]; exact BEq.rfl)
    exact ih (foldState_beq_iff.mp hbody p hp b hb)

/-- In a stable term everything is in sight if no function changes unseen. -/
theorem Stable.inSight (h : Stable t)
    (hfunctions : ∀ f, f.Within t → f.isFunction = true → Stable f → foldTerm f = f)
    (ha : a.Within t) : a.InSight t := by
  induction ha with
  | self => exact .self
  | operand hb _ ih =>
    exact .operand hb (ih (h.cases.1 _ hb) fun f hf => hfunctions f (.operand hb hf))
  | @body type params body p b hp hb _ ih =>
    have hfixed := hfunctions _ .self rfl h
    have hstable : Stable b := h.of_inSight (.body hfixed hp hb .self)
    exact .body hfixed hp hb (ih hstable fun f hf => hfunctions f (.body hp hb hf))

theorem within_literal {l : Literal} (h : a.Within (.literal l)) : a = .literal l := by
  cases h with
  | self => rfl
  | operand hb => cases hb

theorem StandsFor.within_or (hb : StandsFor b c) (h : a.Within b) :
    a.Within (foldTerm c) ∨ a.Within c := by
  cases hb with
  | folded hb => exact .inl (hb ▸ h)
  | kept hb => exact .inr (hb ▸ h)

/-- The functions in a folded term are some of the term, or are folded. -/
theorem within_or_fixed (hf : f.isFunction = true) (h : f.Within (foldTerm t)) :
    f.Within t ∨ foldTerm f = f := by
  induction t using Term.inner_induction with
  | step t ihoperands ihbody =>
    cases ht : t.isFunction with
    | false =>
      obtain ⟨x, hx, hfold⟩ := foldTerm_cases ht
      have hoperand : ∃ b ∈ x.operands, f.Within b := by
        rw [hfold] at h
        rcases settled_cases x with hsettled | hsettled | ⟨l, hsettled⟩
        · rw [hsettled] at h
          cases h with
          | self => exact absurd hf (by simp [hx.isFunction ht])
          | operand hb hwithin => exact ⟨_, hb, hwithin⟩
          | body => exact absurd (hx.isFunction ht) (by simp [Term.isFunction])
        · exact ⟨_, hsettled, h⟩
        · rw [hsettled] at h
          rw [within_literal h] at hf
          cases hf
      obtain ⟨b, hb, hwithin⟩ := hoperand
      obtain ⟨c, hc, hstands⟩ := hx.exists_operand hb
      exact ((hstands.within_or hwithin).elim (ihoperands c hc) .inl).imp_left (.operand hc)
    | true =>
      obtain ⟨type, params, body, rfl⟩ := Term.eq_lambda_of_isFunction ht
      have hfixed := (foldTerm_foldTerm (.lambda type params body)).2 rfl
      rw [foldTerm_lambda] at h hfixed
      cases h with
      | self => exact .inr hfixed
      | operand hb hwithin =>
        obtain ⟨c, hc, hstands⟩ := exists_of_mem_settle hb
        exact ((hstands.within_or hwithin).elim (ihoperands c hc) .inl).imp_left (.operand hc)
      | body hp hb hwithin =>
        rw [settle] at hp
        split at hp
        · exact .inl (.body hp hb hwithin)
        · obtain ⟨q, hq, rfl⟩ := exists_of_occurs_foldState hp
          obtain ⟨c, hc, hstands⟩ := exists_operand_foldPredicate hb
          exact ((hstands.within_or hwithin).elim
            (ihbody type params body rfl q hq c hc) .inl).imp_left (.body hq hc)

/-! ## Runs -/

/-- The operands of a folded state stand for operands of the state. -/
theorem exists_of_run (h : run s = .ok s') (hp : s'.Occurs p) (hb : b ∈ p.operands) :
    ∃ q c, s.Occurs q ∧ c ∈ q.operands ∧ StandsFor b c := by
  rw [eq_of_run h] at hp
  obtain ⟨q, hq, rfl⟩ := exists_of_occurs_foldState (State.occurs_of_simplify hp)
  obtain ⟨c, hc, hbc⟩ := exists_operand_foldPredicate hb
  exact ⟨q, c, hq, hc, hbc⟩

theorem stable_of_run (h : run s = .ok s') (hp : s'.Occurs p) (hb : b ∈ p.operands) :
    Stable b := by
  obtain ⟨q, c, -, -, hbc⟩ := exists_of_run h hp hb
  exact hbc.stable (foldTerm_foldTerm c).1

theorem transparent_of_run (h : run s = .ok s') (hs : Transparent s) : Transparent s' := by
  rintro f ⟨p, b, hp, hb, hwithin⟩ hf hstable
  obtain ⟨q, c, hq, hc, hbc⟩ := exists_of_run h hp hb
  rcases (hbc.within_or hwithin).elim (within_or_fixed hf) .inl with hwithin | hfixed
  · exact hs f ⟨q, c, hq, hc, hwithin⟩ hf hstable
  · exact hfixed

theorem foldTerm_eq_of_transparent (h : run s = .ok s') (hs' : Transparent s')
    (ha : s'.HasTerm a) : foldTerm a = a := by
  obtain ⟨p, b, hp, hb, hwithin⟩ := ha
  have hb' := stable_of_run h hp hb
  have hstable : Stable a := hb'.of_inSight <|
    hb'.inSight (fun f hf => hs' f ⟨p, b, hp, hb, hf⟩) hwithin
  cases hfunction : a.isFunction with
  | false => exact hstable.cases.2 hfunction
  | true => exact hs' a ⟨p, b, hp, hb, hwithin⟩ hfunction hstable

/-- **Folding reaches a normal form.** What is in sight in a folded state folds to what is the
same, and to itself unless it is a function. Every term of the folded state, those in the bodies
of functions included, folds to itself exactly when no function of it changes unseen, and so it
does whenever no function of the state that was folded changes unseen. -/
theorem run_normal_form (h : run s = .ok s') :
    (∀ a, s'.InSight a → Stable a ∧ (a.isFunction = false → foldTerm a = a)) ∧
    ((∀ a, s'.HasTerm a → foldTerm a = a) ↔ Transparent s') ∧
    (Transparent s → ∀ a, s'.HasTerm a → foldTerm a = a) := by
  refine ⟨?_, ⟨fun hall f hf _ _ => hall f hf, fun hs' a => foldTerm_eq_of_transparent h hs'⟩,
    fun hs a => foldTerm_eq_of_transparent h (transparent_of_run h hs)⟩
  rintro a ⟨p, b, hp, hb, hsight⟩
  have hstable := (stable_of_run h hp hb).of_inSight hsight
  exact ⟨hstable, hstable.cases.2⟩

end Folding

/-!
## Functions with a number in their bodies

An array is filled by a function. A sum in the body of the function is folded, a negated number,
which is written as the number that it folds to, is not.
-/

namespace Filling

def filler (value : Term) : Term :=
  .lambda (.class "java/util/function/IntUnaryOperator") [.value .int "i"]
    (.basic [⟨.state, .equal (.value .int "r") value, {}⟩])

def setAll : Method := ⟨"java/util/Arrays", "setAll", "([ILjava/util/function/IntUnaryOperator;)V"⟩

def fill (value : Term) : Term :=
  .call .void setAll .null [.argument (.array .int) 0, filler value]

def filled (value : Term) : SymbolicState := .basic [⟨.state, .unary .call (fill value), {}⟩]

def sum : Term := .arithmetic .add .int (.int 2) (.int 4)

def filledOrTold (value : Term) : SymbolicState :=
  .choice [.basic [⟨.path, .unequal (.argument .int 1) value, {}⟩], filled value]

theorem transparent_sum : Transparent (filledOrTold sum) := by
  intro f hf hfunction hstable
  have hterm : f ∈ (filledOrTold sum).terms :=
    List.mem_filterMap.mpr ⟨_, State.term_mem_visits.mpr hf, rfl⟩
  have hmem := List.mem_filter.mpr ⟨hterm, hfunction⟩
  have hfunctions : (filledOrTold sum).terms.filter Term.isFunction = [filler sum] := rfl
  rw [hfunctions, List.mem_singleton] at hmem
  rw [hmem] at hstable
  have hseen : (foldTerm (filler sum) == filler sum) = false := rfl
  exact absurd hstable (by simp [Stable, hseen])

/-- Both sums are folded, and nothing is left to fold. -/
theorem run_sum_normal : run (filledOrTold sum) = .ok (filledOrTold (.int 6)) ∧
    ∀ a, (filledOrTold (.int 6)).HasTerm a → foldTerm a = a :=
  have hrun : run (filledOrTold sum) = .ok (filledOrTold (.int 6)) := rfl
  ⟨hrun, (run_normal_form hrun).2.2 transparent_sum⟩

def negated : Term := .unary .negate .int (.int 3)

/-- The negated number is in the body, which is in the function, which is handed to the call. -/
theorem hasTerm_negated : (filled negated).HasTerm negated := by
  have hbody : negated.Within (filler negated) :=
    .body (.basic (List.mem_singleton_self _)) (by simp [Clause.operands, Assertion.operands]) .self
  refine ⟨_, fill negated, .basic (List.mem_singleton_self _), ?_, .operand ?_ hbody⟩
  · simp [Clause.operands, Assertion.operands]
  · simp [fill, Term.operands]

/-- The negated number is left in the body, though it folds to a number. -/
theorem run_negated_not_normal : run (filled negated) = .ok (filled negated) ∧
    (filled negated).HasTerm negated ∧ foldTerm negated = .int (-3) ∧
    foldTerm negated ≠ negated := by
  have hfolded : foldTerm negated = .int (-3) := rfl
  refine ⟨rfl, hasTerm_negated, hfolded, ?_⟩
  rw [hfolded]
  nofun

end Filling
end Concolic
