import Concolic.Proofs.State.Linear
import Concolic.Revision

/-!
# A part at the end of a state

However a state was put together, a part may stand at its end in more than one way: in the last
run, or in a run of its own. A builder to which a part is pushed builds such a state, and a walk
over one goes over the state before the part first.

## Main statements

* `StateBuilder.appends_push` — the part pushed last stands at the end.
* `Rules.onState_appends` — a walk comes to the part last.
-/

namespace Concolic

/-! ## States with one more part -/

namespace State

variable {α : Type}

/-- The second state is the first with a part at its end. -/
inductive Appends (p : α) : State α → State α → Prop
  | basic (parts : List α) : Appends p (.basic parts) (.basic (parts ++ [p]))
  | last (s : State α) : Appends p s (.chain s (.basic [p]))
  | chain (s : State α) {t t' : State α} : Appends p t t' → Appends p (.chain s t) (.chain s t')

@[simp] theorem concat_basic_nil (s : State α) : s.concat (.basic []) = s := if_pos rfl

theorem not_isEmpty_basic {parts : List α} (h : parts ≠ []) :
    ¬(State.basic parts).isEmpty = true := by
  simpa [isEmpty] using h

section concat
variable {s t : State α}

theorem concat_of_isEmpty_right (ht : t.isEmpty = true) : s.concat t = s := if_pos ht

theorem concat_of_isEmpty_left (ht : ¬t.isEmpty = true) (hs : s.isEmpty = true) :
    s.concat t = t := by
  unfold concat
  rw [if_neg ht, if_pos hs]

/-- Sides that are not empty and not both runs are put one after the other. -/
theorem concat_eq_chain (ht : ¬t.isEmpty = true) (hs : ¬s.isEmpty = true)
    (h : ∀ xs ys, s = basic xs → t ≠ basic ys) : s.concat t = chain s t := by
  unfold concat
  rw [if_neg ht, if_neg hs]
  cases s with
  | chain | choice => rfl
  | basic xs =>
    cases t with
    | chain | choice => rfl
    | basic ys => exact absurd rfl (h xs ys rfl)

end concat

theorem basic_concat_basic (xs ys : List α) :
    (State.basic xs).concat (.basic ys) = .basic (xs ++ ys) := by
  cases ys with
  | nil => rw [concat_basic_nil, List.append_nil]
  | cons y ys => cases xs <;> rfl

/-- Behind a state that is not empty but for a run, a run with one more part has that part at the
end. -/
theorem Appends.concat {p : α} {s : State α} (h : s.isEmpty = true → s = .basic [])
    (parts : List α) : Appends p (s.concat (.basic parts)) (s.concat (.basic (parts ++ [p]))) := by
  by_cases hruns : ∃ xs, s = .basic xs
  · obtain ⟨xs, rfl⟩ := hruns
    rw [basic_concat_basic, basic_concat_basic, ← List.append_assoc]
    exact .basic _
  have hempty : ¬s.isEmpty = true := fun hempty => hruns ⟨[], h hempty⟩
  have hlonger : parts ++ [p] ≠ [] := by simp
  rw [concat_eq_chain (not_isEmpty_basic hlonger) hempty fun xs _ hxs => absurd ⟨xs, hxs⟩ hruns]
  by_cases hparts : parts = []
  · rw [hparts, concat_basic_nil]
    exact .last _
  · rw [concat_eq_chain (not_isEmpty_basic hparts) hempty fun xs _ hxs => absurd ⟨xs, hxs⟩ hruns]
    exact .chain _ (.basic _)

section simplify

variable [BEq α]

mutual

/-- A simplified state without items is an empty run. -/
theorem simplify_eq_of_items [EquivBEq α] :
    ∀ s : State α, s.simplify.items = [] → s.simplify = .basic []
  | .basic parts, h => by
    rw [simplify] at h ⊢
    rw [items_basic, List.map_eq_nil_iff] at h
    rw [h]
  | .chain s t, h => by
    rw [simplify, items_concat, List.append_eq_nil_iff] at h
    rw [simplify, simplify_eq_of_items s h.1, simplify_eq_of_items t h.2, concat_basic_nil]
  | .choice alternatives, h => by
    have hall := eq_of_mem_simplifyAll alternatives
    rw [simplify] at h ⊢
    cases hstates : simplifyAll alternatives with
    | nil => rfl
    | cons first rest =>
      rw [hstates] at h hall
      rw [collapse] at h ⊢
      by_cases hsame : (rest.all (· == first)) = true
      · rw [if_pos hsame] at h ⊢
        exact hall first (List.mem_cons_self ..) h
      · -- A choice that stays has an alternative with items, for else they would all be the same.
        rw [if_neg hsame] at h
        have hlinear : (State.choice (first :: rest)).IsLinear := by simp [IsLinear, h]
        have hempty := items_of_isLinear_choice hlinear
        refine absurd (List.all_eq_true.mpr fun t ht => ?_) hsame
        rw [beq_iff_key, key, key,
          hempty _ (mem_itemsOfAll.mpr ⟨t, List.mem_cons_of_mem _ ht, rfl⟩),
          hempty _ (mem_itemsOfAll.mpr ⟨first, List.mem_cons_self .., rfl⟩)]

theorem eq_of_mem_simplifyAll [EquivBEq α] : ∀ states : List (State α),
    ∀ s ∈ simplifyAll states, s.items = [] → s = .basic []
  | [] => by simp [simplifyAll]
  | s :: rest => by
    rw [simplifyAll, List.forall_mem_cons]
    exact ⟨simplify_eq_of_items s, eq_of_mem_simplifyAll rest⟩

end

variable [EquivBEq α]

theorem simplify_of_isEmpty {s : State α} (h : s.isEmpty = true) : s.simplify = .basic [] := by
  have hitems := isEmpty_iff.mp h
  have hlinear : s.IsLinear := by simp [IsLinear, hitems]
  exact simplify_eq_of_items s ((items_simplify_of_isLinear s hlinear).trans hitems)

theorem empty_concat_simplify (s : State α) : (basic []).concat s.simplify = s.simplify := by
  by_cases h : s.simplify.isEmpty = true
  · rw [simplify_eq_of_items s (isEmpty_iff.mp h), concat_basic_nil]
  · exact concat_of_isEmpty_left h rfl

theorem simplify_concat (s t : State α) :
    (s.concat t).simplify = s.simplify.concat t.simplify := by
  by_cases ht : t.isEmpty = true
  · rw [concat_of_isEmpty_right ht, simplify_of_isEmpty ht, concat_basic_nil]
  by_cases hs : s.isEmpty = true
  · rw [concat_of_isEmpty_left ht hs, simplify_of_isEmpty hs, empty_concat_simplify]
  by_cases hruns : ∃ xs ys, s = basic xs ∧ t = basic ys
  · obtain ⟨xs, ys, rfl, rfl⟩ := hruns
    rw [basic_concat_basic, simplify, simplify, simplify, basic_concat_basic]
  · rw [concat_eq_chain ht hs fun xs ys hxs hys => hruns ⟨xs, ys, hxs, hys⟩, simplify]

end simplify

end State

namespace StateBuilder

variable {α : Type}

theorem toState_eq_concat (b : StateBuilder α) :
    b.toState = b.finished.concat (.basic b.pending) := by
  unfold toState
  split
  · next h => rw [List.isEmpty_iff.mp h, State.concat_basic_nil]
  · rfl

/-- What is pushed last stands at the end of what is built. -/
theorem appends_push [BEq α] [EquivBEq α] (b : StateBuilder α) (p : α) :
    State.Appends p b.toState.simplify (b.push p).toState.simplify := by
  rw [toState_eq_concat, toState_eq_concat, State.simplify_concat, State.simplify_concat,
    State.simplify, State.simplify]
  exact .concat (fun h => State.simplify_eq_of_items _ (State.isEmpty_iff.mp h)) _

end StateBuilder

/-! ## Walks -/

namespace Rules

variable {m : Type → Type} [Monad m] [LawfulMonad m] (R : Rules m) (recollecting : Bool)

theorem onParts_append (xs ys : List Predicate) : R.onParts recollecting (xs ++ ys) = do
    let xs' ← R.onParts recollecting xs
    let ys' ← R.onParts recollecting ys
    return xs' ++ ys' := by
  induction xs with
  | nil => simp [onParts]
  | cons p xs ih =>
    rw [List.cons_append, onParts, onParts, bind_assoc]
    congr 1
    funext verdict
    cases verdict <;> simp [ih]

/-- A walk over a state with one more part goes over the state, and then over the part. -/
theorem onState_appends {p : Predicate} {s t : SymbolicState} (h : s.Appends p t) :
    (fun _ => ()) <$> R.onState recollecting t =
      (do let _ ← R.onState recollecting s; let _ ← R.onParts recollecting [p]; return ()) := by
  induction h with
  | basic parts => simp [onState, onParts_append]
  | last s => simp [onState]
  | chain s _ ih =>
    rw [onState, onState]
    simp only [map_bind, map_pure, bind_assoc, pure_bind]
    congr 1
    funext s'
    rw [← bind_pure_comp] at ih
    exact ih

end Rules
end Concolic
