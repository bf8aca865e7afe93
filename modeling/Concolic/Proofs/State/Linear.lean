import Concolic.Clause
import Concolic.Proofs.State.Equality

/-!
# Linear states

A state is linear when no item of it is a choice. Such a state is no more than its parts in
order: simplifying leaves them as they are, filtering filters them, and its path condition
is the list of its path clauses.
-/

namespace Concolic.State

variable {α : Type}

/-- No item of the state is a choice. -/
def IsLinear (s : State α) : Prop := ∀ x ∈ s.items, x.part?.isSome = true

theorem isLinear_of_items_eq {s : State α} {parts : List α} (h : s.items = parts.map .part) :
    s.IsLinear := by
  intro x hx
  rw [h] at hx
  obtain ⟨a, -, rfl⟩ := List.mem_map.mp hx
  rfl

theorem filterMap_part? (parts : List α) :
    (parts.map Item.part).filterMap Item.part? = parts := by
  induction parts with
  | nil => rfl
  | cons a parts ih => simp [Item.part?, ih]

theorem parts_of_items_eq {s : State α} {parts : List α} (h : s.items = parts.map .part) :
    s.parts = parts := by
  rw [State.parts, h, filterMap_part?]

@[simp] theorem parts_basic (parts : List α) : (basic parts).parts = parts :=
  parts_of_items_eq (items_basic parts)

/-- The items of a linear state are its parts. -/
theorem IsLinear.items_eq {s : State α} (h : s.IsLinear) : s.items = s.parts.map .part := by
  have items_eq : ∀ xs : List (Item α), (∀ x ∈ xs, x.part?.isSome = true) →
      xs = (xs.filterMap Item.part?).map .part := by
    intro xs hxs
    induction xs with
    | nil => rfl
    | cons x xs ih =>
      cases x with
      | part a => simpa [Item.part?] using ih fun y hy => hxs y (List.mem_cons_of_mem _ hy)
      | branch alternatives => simp [Item.part?] at hxs
  exact items_eq s.items h

@[simp] theorem isLinear_basic (parts : List α) : (basic parts).IsLinear :=
  isLinear_of_items_eq (items_basic parts)

theorem isLinear_empty : (empty : State α).IsLinear := isLinear_basic []

theorem isLinear_chain {s t : State α} :
    (chain s t).IsLinear ↔ s.IsLinear ∧ t.IsLinear := by
  simp only [IsLinear, items_chain, List.forall_mem_append]

theorem isLinear_concat {s t : State α} :
    (s.concat t).IsLinear ↔ s.IsLinear ∧ t.IsLinear := by
  simp only [IsLinear, items_concat, List.forall_mem_append]

theorem items_choice (alternatives : List (State α)) :
    (choice alternatives).items =
      if (itemsOfAll alternatives).all List.isEmpty then []
      else [.branch (itemsOfAll alternatives)] := by
  simp only [items]

theorem items_choice_of_empty {alternatives : List (State α)}
    (h : ∀ x ∈ itemsOfAll alternatives, x = []) : (choice alternatives).items = [] := by
  rw [items_choice, if_pos]
  simpa using h

/-- A linear choice has nothing in any alternative. -/
theorem items_of_isLinear_choice {alternatives : List (State α)}
    (h : (choice alternatives).IsLinear) : ∀ x ∈ itemsOfAll alternatives, x = [] := by
  rw [IsLinear, items_choice] at h
  by_cases hempty : (itemsOfAll alternatives).all List.isEmpty = true
  · simpa using hempty
  · simp [hempty, Item.part?] at h

theorem mem_itemsOfAll {states : List (State α)} {x : List (Item α)} :
    x ∈ itemsOfAll states ↔ ∃ s ∈ states, s.items = x := by
  induction states with
  | nil => simp [itemsOfAll]
  | cons s states ih => simp [itemsOfAll, ih, eq_comm]

/-! ## Simplification -/

section simplify
variable [BEq α]

theorem items_collapse_of_empty {states : List (State α)} (h : ∀ s ∈ states, s.items = []) :
    (collapse states).items = [] := by
  cases states with
  | nil => simp [collapse]
  | cons first rest =>
    rw [collapse]
    by_cases hsame : (rest.all (· == first)) = true
    · rw [if_pos hsame]
      exact h first (List.mem_cons_self ..)
    · rw [if_neg hsame]
      refine items_choice_of_empty fun x hx => ?_
      obtain ⟨s, hs, rfl⟩ := mem_itemsOfAll.mp hx
      exact h s hs

mutual

/-- Simplifying a linear state leaves its items as they are. -/
theorem items_simplify_of_isLinear :
    ∀ s : State α, s.IsLinear → s.simplify.items = s.items
  | .basic _, _ => by simp [simplify]
  | .chain s t, h => by
    obtain ⟨hs, ht⟩ := isLinear_chain.mp h
    simp [simplify, items_simplify_of_isLinear s hs, items_simplify_of_isLinear t ht]
  | .choice alternatives, h => by
    have hempty := items_of_isLinear_choice h
    rw [items_choice_of_empty hempty, simplify]
    exact items_collapse_of_empty (items_simplifyAll_of_empty alternatives hempty)

theorem items_simplifyAll_of_empty : ∀ states : List (State α),
    (∀ x ∈ itemsOfAll states, x = []) → ∀ s ∈ simplifyAll states, s.items = []
  | [], _ => by simp [simplifyAll]
  | s :: states, h => by
    rw [itemsOfAll, List.forall_mem_cons] at h
    rw [simplifyAll, List.forall_mem_cons]
    refine ⟨?_, items_simplifyAll_of_empty states h.2⟩
    have hs : s.items = ([] : List α).map .part := h.1
    rw [items_simplify_of_isLinear s (isLinear_of_items_eq hs), h.1]

end

theorem IsLinear.simplify {s : State α} (h : s.IsLinear) : s.simplify.IsLinear := by
  rw [IsLinear, items_simplify_of_isLinear s h]
  exact h

/-! ## Filtering -/

mutual

/-- Filtering a linear state filters its parts. -/
theorem items_filter_of_isLinear (keep : α → Bool) :
    ∀ s : State α, s.IsLinear → (s.filter keep).items = (s.parts.filter keep).map .part
  | .basic parts, _ => by simp [State.filter]
  | .chain s t, h => by
    obtain ⟨hs, ht⟩ := isLinear_chain.mp h
    have ihs := items_filter_of_isLinear keep s hs
    have iht := items_filter_of_isLinear keep t ht
    -- What is filtered is simplified again, which changes nothing as it is linear.
    have hlinear : ((s.filter keep).concat (t.filter keep)).IsLinear :=
      isLinear_concat.mpr ⟨isLinear_of_items_eq ihs, isLinear_of_items_eq iht⟩
    rw [State.filter, items_simplify_of_isLinear _ hlinear]
    simp [ihs, iht, State.parts]
  | .choice alternatives, h => by
    have hempty := items_of_isLinear_choice h
    have hfiltered : (choice (filterAll keep alternatives)).items = ([] : List α).map .part := by
      refine items_choice_of_empty fun x hx => ?_
      obtain ⟨s, hs, rfl⟩ := mem_itemsOfAll.mp hx
      exact items_filterAll_of_empty keep alternatives hempty s hs
    have hparts : (choice alternatives).items = ([] : List α).map .part :=
      items_choice_of_empty hempty
    rw [State.filter, items_simplify_of_isLinear _ (isLinear_of_items_eq hfiltered), hfiltered,
      parts_of_items_eq hparts]
    rfl

theorem items_filterAll_of_empty (keep : α → Bool) : ∀ states : List (State α),
    (∀ x ∈ itemsOfAll states, x = []) → ∀ s ∈ filterAll keep states, s.items = []
  | [], _ => by simp [filterAll]
  | s :: states, h => by
    rw [itemsOfAll, List.forall_mem_cons] at h
    rw [filterAll, List.forall_mem_cons]
    refine ⟨?_, items_filterAll_of_empty keep states h.2⟩
    have hs : s.items = ([] : List α).map .part := h.1
    rw [items_filter_of_isLinear keep s (isLinear_of_items_eq hs), parts_of_items_eq hs]
    rfl

end
end simplify

/-! ## Equality -/

section equality
variable [BEq α] [EquivBEq α] {s t : State α}

/-- The key of a linear state is that of its parts. -/
theorem IsLinear.key_eq (h : s.IsLinear) :
    s.key = s.parts.map fun a => Item.toClass (.part a) := by
  rw [key, h.items_eq, List.map_map, parts_of_items_eq h.items_eq]
  rfl

theorem key_basic (parts : List α) :
    (basic parts).key = parts.map fun a => Item.toClass (.part a) := by
  rw [(isLinear_basic parts).key_eq, parts_basic]

/-- A state that is the same as a linear one is linear. -/
theorem IsLinear.of_beq (h : (s == t) = true) (ht : t.IsLinear) : s.IsLinear := by
  intro x hx
  have hmem : x.toClass ∈ t.key := by
    rw [← beq_iff_key.mp h]
    exact List.mem_map_of_mem hx
  rw [ht.key_eq] at hmem
  obtain ⟨a, -, ha⟩ := List.mem_map.mp hmem
  have hsame := Item.toClass_eq_iff.mp ha
  cases x with
  | part b => rfl
  | branch alternatives => simp [BEq.beq, Item.same] at hsame

end equality

/-! ## Path conditions -/

section path
variable {τ : Type} [BEq τ] {s : State (Clause τ)}

theorem items_path (h : s.IsLinear) :
    s.path.items = (s.parts.filter Clause.isPath).map .part :=
  items_filter_of_isLinear _ s h

theorem parts_path (h : s.IsLinear) : s.path.parts = s.parts.filter Clause.isPath :=
  parts_of_items_eq (items_path h)

theorem isLinear_path (h : s.IsLinear) : s.path.IsLinear := isLinear_of_items_eq (items_path h)

theorem path_basic (parts : List (Clause τ)) :
    (basic parts).path = basic (parts.filter Clause.isPath) := by
  simp only [path, ofRole, State.filter]
  rfl

end path
end Concolic.State
