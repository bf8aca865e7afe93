import Concolic.State.Basic

/-!
# Ways through a state

What stands somewhere in a state, and what is passed when one alternative is taken at every
choice. Where every choice has an alternative, all that stands in a state is passed on some way.
-/

namespace Concolic

namespace State

variable {α : Type}

/-- The part stands somewhere in the state. -/
inductive Occurs (a : α) : State α → Prop
  | basic {parts : List α} : a ∈ parts → Occurs a (.basic parts)
  | first {s t : State α} : Occurs a s → Occurs a (.chain s t)
  | second {s t : State α} : Occurs a t → Occurs a (.chain s t)
  | choice {s : State α} {alternatives : List (State α)} :
      s ∈ alternatives → Occurs a s → Occurs a (.choice alternatives)

section
variable {a : α} {parts : List α} {s t : State α} {alternatives : List (State α)}

theorem occurs_basic : (basic parts).Occurs a ↔ a ∈ parts := by
  refine ⟨fun h => ?_, .basic⟩
  cases h with
  | basic hmem => exact hmem

theorem occurs_singleton {b : α} : (basic [b]).Occurs a ↔ a = b := by
  rw [occurs_basic, List.mem_singleton]

theorem occurs_chain : (chain s t).Occurs a ↔ s.Occurs a ∨ t.Occurs a := by
  refine ⟨fun h => ?_, fun h => h.elim .first .second⟩
  cases h with
  | first ha => exact .inl ha
  | second ha => exact .inr ha

theorem occurs_choice : (choice alternatives).Occurs a ↔ ∃ s ∈ alternatives, s.Occurs a := by
  constructor
  · intro h
    cases h with
    | choice hmem ha => exact ⟨_, hmem, ha⟩
  · rintro ⟨s, hmem, ha⟩
    exact .choice hmem ha

end

/-- The parts passed when one alternative is taken at every choice. -/
inductive Way : State α → List α → Prop
  | basic {parts : List α} : Way (.basic parts) parts
  | chain {s t : State α} {xs ys : List α} : Way s xs → Way t ys → Way (.chain s t) (xs ++ ys)
  | choice {s : State α} {alternatives : List (State α)} {xs : List α} :
      s ∈ alternatives → Way s xs → Way (.choice alternatives) xs

/-- Every choice has an alternative. -/
inductive Passable : State α → Prop
  | basic {parts : List α} : Passable (.basic parts)
  | chain {s t : State α} : Passable s → Passable t → Passable (.chain s t)
  | choice {alternatives : List (State α)} :
      alternatives ≠ [] → (∀ s ∈ alternatives, Passable s) → Passable (.choice alternatives)

theorem Passable.exists_way {s : State α} (h : s.Passable) : ∃ way, s.Way way := by
  induction h with
  | basic => exact ⟨_, .basic⟩
  | chain _ _ ihs iht =>
    obtain ⟨xs, hxs⟩ := ihs
    obtain ⟨ys, hys⟩ := iht
    exact ⟨xs ++ ys, .chain hxs hys⟩
  | choice hne _ ih =>
    obtain ⟨s, hs⟩ := List.exists_mem_of_ne_nil _ hne
    obtain ⟨way, hway⟩ := ih s hs
    exact ⟨way, .choice hs hway⟩

/-- What stands in a state lies on some way through it. -/
theorem Occurs.exists_way {a : α} {s : State α} (h : s.Occurs a) (hs : s.Passable) :
    ∃ way, s.Way way ∧ a ∈ way := by
  induction h with
  | basic ha => exact ⟨_, .basic, ha⟩
  | first _ ih =>
    cases hs with
    | chain hs ht =>
      obtain ⟨xs, hxs, ha⟩ := ih hs
      obtain ⟨ys, hys⟩ := ht.exists_way
      exact ⟨xs ++ ys, .chain hxs hys, List.mem_append_left ys ha⟩
  | second _ ih =>
    cases hs with
    | chain hs ht =>
      obtain ⟨xs, hxs⟩ := hs.exists_way
      obtain ⟨ys, hys, ha⟩ := ih ht
      exact ⟨xs ++ ys, .chain hxs hys, List.mem_append_right xs ha⟩
  | choice hmem _ ih =>
    cases hs with
    | choice _ hall =>
      obtain ⟨way, hway, ha⟩ := ih (hall _ hmem)
      exact ⟨way, .choice hmem hway, ha⟩

end State

end Concolic
