import Concolic.Proofs.Folding.States

/-!
# What a contradiction says of a state

Folding reports the first predicate between literals that cannot hold, wherever in the state it
stands. That such a predicate never held before folding either says something of the ways
through the state that lead through it, and nothing of those that do not.

## Main statements

* `run_contradiction` — no way through the contradiction can be taken.
* `satisfiable_contradiction` — a satisfiable state for which a contradiction is reported.
-/

namespace Concolic

/-! ## Satisfied states -/

/-- All predicates of a run hold, both parts of a chain are satisfied, and one alternative of a
choice. -/
inductive State.Satisfied (ν : Valuation) : SymbolicState → Prop
  | basic {parts : List Predicate} : (∀ p ∈ parts, p.Holds ν) → Satisfied ν (.basic parts)
  | chain {s t : SymbolicState} : Satisfied ν s → Satisfied ν t → Satisfied ν (.chain s t)
  | choice {s : SymbolicState} {alternatives : List SymbolicState} :
      s ∈ alternatives → Satisfied ν s → Satisfied ν (.choice alternatives)

/-- A state is satisfied on one of the ways through it. -/
theorem State.satisfied_iff_way {ν : Valuation} {s : SymbolicState} :
    s.Satisfied ν ↔ ∃ way, s.Way way ∧ ∀ p ∈ way, p.Holds ν := by
  constructor
  · intro h
    induction h with
    | basic hall => exact ⟨_, .basic, hall⟩
    | chain _ _ ihs iht =>
      obtain ⟨xs, hxs, hx⟩ := ihs
      obtain ⟨ys, hys, hy⟩ := iht
      exact ⟨xs ++ ys, .chain hxs hys, List.forall_mem_append.mpr ⟨hx, hy⟩⟩
    | choice hmem _ ih =>
      obtain ⟨way, hway, hall⟩ := ih
      exact ⟨way, .choice hmem hway, hall⟩
  · rintro ⟨way, hway, hall⟩
    induction hway with
    | basic => exact .basic hall
    | chain _ _ ihs iht =>
      rw [List.forall_mem_append] at hall
      exact .chain (ihs hall.1) (iht hall.2)
    | choice hmem _ ih => exact .choice hmem (ih hall)

namespace Folding

/-! ## Blamed predicates -/

/-- The predicate blamed by a contradiction stands in the state and never holds. -/
theorem run_eq_contradiction {s : SymbolicState} (hintegral : ∀ p, s.Occurs p → p.IsIntegral)
    {q : Predicate} (h : run s = .error (.contradiction q)) :
    ∃ p, s.Occurs p ∧ ∀ ν, ¬p.Holds ν := by
  obtain ⟨-, hreports⟩ := yields_onState hintegral {} none
  have hlast : (((rules.onState false s).run {}).run none).2 = some (.contradiction q) := by
    unfold run at h
    split at h
    · cases h
    · next failure hrevise =>
      obtain rfl := Except.error.inj h
      exact congrArg Prod.snd hrevise
  rcases hreports with hnone | ⟨-, failure, hfailure, hblames⟩
  · rw [hlast] at hnone
    cases hnone
  · obtain rfl := Option.some.inj (hlast.symm.trans hfailure)
    rcases hblames with ⟨op, hop⟩ | ⟨-, hp⟩
    · cases hop
    · exact hp

/-- **Folding reports what never holds.** A contradiction reported for a state says that a
predicate in it never holds: no way through the state that leads through the predicate can be
taken, and if all ways do, the state cannot be satisfied. -/
theorem run_contradiction {s : SymbolicState} (hintegral : ∀ p, s.Occurs p → p.IsIntegral)
    (hpassable : s.Passable) {q : Predicate} (h : run s = .error (.contradiction q)) :
    ∃ p, (∃ way, s.Way way ∧ p ∈ way) ∧
      (∀ ν way, s.Way way → p ∈ way → ¬∀ r ∈ way, r.Holds ν) ∧
      ((∀ way, s.Way way → p ∈ way) → ∀ ν, ¬s.Satisfied ν) := by
  obtain ⟨p, hoccurs, hnever⟩ := run_eq_contradiction hintegral h
  refine ⟨p, hoccurs.exists_way hpassable, fun ν way _ hp hall => hnever ν (hall p hp), ?_⟩
  intro hways ν hsatisfied
  obtain ⟨way, hway, hall⟩ := State.satisfied_iff_way.mp hsatisfied
  exact hnever ν (hall p (hways way hway))

/-! ## A contradiction in one of two alternatives -/

def never : Predicate := ⟨.path, .equal (.arithmetic .add .int (.int 1) (.int 1)) (.int 3), {}⟩

def always : Predicate := ⟨.path, .equal (.argument .int 0) (.argument .int 0), {}⟩

def halfContradictory : SymbolicState := .choice [.basic [never], .basic [always]]

theorem isIntegral_halfContradictory (p : Predicate) (h : halfContradictory.Occurs p) :
    p.IsIntegral := by
  cases h with
  | choice hs hp =>
    simp only [List.mem_cons, List.not_mem_nil, or_false] at hs
    rcases hs with rfl | rfl
    · cases hp with
      | basic hp =>
        obtain rfl := List.mem_singleton.mp hp
        exact .equal (.arithmetic rfl (.literal rfl) (.literal rfl)) (.literal rfl)
    · cases hp with
      | basic hp =>
        obtain rfl := List.mem_singleton.mp hp
        exact .equal (.leaf rfl (by simp)) (.leaf rfl (by simp))

theorem passable_halfContradictory : halfContradictory.Passable := by
  refine .choice (List.cons_ne_nil _ _) fun s hs => ?_
  simp only [List.mem_cons, List.not_mem_nil, or_false] at hs
  rcases hs with rfl | rfl <;> exact .basic

/-- Any value of the argument satisfies the second alternative. -/
theorem satisfied_halfContradictory (ν : Valuation) : halfContradictory.Satisfied ν := by
  refine .choice (List.mem_cons_of_mem _ (List.mem_singleton_self _)) (.basic fun p hp => ?_)
  obtain rfl := List.mem_singleton.mp hp
  exact .equal rfl rfl rfl

/-- A contradiction in one alternative is reported though the state can be satisfied through the
other. -/
theorem satisfiable_contradiction :
    ¬∀ (s : SymbolicState) (q : Predicate), (∀ p, s.Occurs p → p.IsIntegral) → s.Passable →
      run s = .error (.contradiction q) → ∀ ν, ¬s.Satisfied ν := by
  intro hall
  exact hall halfContradictory ⟨.path, .equal (.int 2) (.int 3), {}⟩ isIntegral_halfContradictory
    passable_halfContradictory rfl (fun _ _ => .int 0) (satisfied_halfContradictory _)

theorem halfContradictory_blames : ∃ p, (∃ way, halfContradictory.Way way ∧ p ∈ way) ∧
    (∀ ν way, halfContradictory.Way way → p ∈ way → ¬∀ r ∈ way, r.Holds ν) ∧
    ((∀ way, halfContradictory.Way way → p ∈ way) → ∀ ν, ¬halfContradictory.Satisfied ν) :=
  run_contradiction isIntegral_halfContradictory passable_halfContradictory
    (q := ⟨.path, .equal (.int 2) (.int 3), {}⟩) rfl

end Folding
end Concolic
