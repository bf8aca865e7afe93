import Concolic.Proofs.ExploredPaths
import Concolic.Proofs.Replay.Linear
import Concolic.Proofs.Search.Exploration

/-!
# Attempts of the search

An attempt cannot replay its candidate, finds nothing new next to it, or explores a path.
`Concludes` says what it makes of each, with the world that it leaves; `Tries` is the part of it
that speaks of the search alone.
-/

namespace Concolic

variable {σ : Type}

namespace Task

variable {t : Task σ} {s after : Search} {candidate trace : Trace} {w rest : World σ}
  {mutated path : SymbolicState} {outcome : Except Failure Attempt}

/-! ## The path next to a candidate -/

/-- The state that an attempt on a candidate explores, if it leads to a path not yet known. -/
def flip? (t : Task σ) (s : Search) (candidate : Trace) : Option SymbolicState :=
  match Replay.build t.engine.program t.method candidate with
  | .error _ => none
  | .ok state =>
    let mutated := s.explored.mutate state
    if mutated == state || s.explored.contains mutated.path then none else some mutated

/-- The path condition of a trace is a run of branch conditions. -/
theorem pathOf_eq_ok (h : t.pathOf trace = .ok path) :
    path.IsLinear ∧ ∀ p ∈ path.parts, p.isPath = true := by
  unfold pathOf at h
  cases hbuild : Replay.build t.engine.program t.method trace with
  | error failure => simp [hbuild, Except.map] at h
  | ok state =>
    have hlinear := Replay.isLinear_build hbuild
    obtain rfl : state.path = path := by simpa [hbuild, Except.map] using h
    refine ⟨State.isLinear_path hlinear, fun p hp => ?_⟩
    rw [State.parts_path hlinear] at hp
    exact (List.mem_filter.mp hp).2

theorem pathOf_of_build {state : SymbolicState}
    (h : Replay.build t.engine.program t.method trace = .ok state) :
    t.pathOf trace = .ok state.path := by
  rw [pathOf, h]
  rfl

/-- What is explored next to a candidate is its state up to some branch with that branch flipped,
and the path that this takes was not covered. -/
theorem exists_branch_of_flip? (h : t.flip? s candidate = some mutated) :
    ∃ state before p after, Replay.build t.engine.program t.method candidate = .ok state ∧
      state.IsLinear ∧ state.parts = before ++ p :: after ∧ p.isPath = true ∧
      mutated = .basic (before ++ [p.inverse]) ∧
      mutated.path = .basic (before.filter Clause.isPath ++ [p.inverse]) ∧
      s.explored.isCovered mutated.path = false := by
  unfold flip? at h
  cases hbuild : Replay.build t.engine.program t.method candidate with
  | error failure => simp [hbuild] at h
  | ok state =>
    have hlinear := Replay.isLinear_build hbuild
    simp only [hbuild, Option.ite_none_left_eq_some, Option.some.injEq, Bool.or_eq_true] at h
    obtain ⟨hnew, rfl⟩ := h
    rcases ExploredPaths.mutate_cases s.explored state with
      ⟨heq, -⟩ | ⟨before, p, after, hparts, hp, hmutate, hpath, hfree⟩
    · have hsame : (s.explored.mutate state == state) = true := by
        rw [heq, State.beq_iff_key, State.key, State.key, State.items_basic,
          ← hlinear.items_eq]
      exact absurd (.inl hsame) hnew
    · exact ⟨state, before, p, after, rfl, hlinear, hparts, hp, hmutate, hpath, hfree⟩

/-- The path explored next to a candidate is its path condition up to some branch with that
branch flipped, and it was not covered. -/
theorem flip?_eq_some (h : t.flip? s candidate = some mutated) :
    ∃ path before p after, t.pathOf candidate = .ok path ∧
      path.parts = before ++ p :: after ∧ mutated.path = .basic (before ++ [p.inverse]) ∧
      s.explored.isCovered mutated.path = false := by
  obtain ⟨state, before, p, after, hbuild, hlinear, hparts, hp, -, hpath, hfree⟩ :=
    exists_branch_of_flip? h
  refine ⟨state.path, before.filter Clause.isPath, p, after.filter Clause.isPath,
    pathOf_of_build hbuild, ?_, hpath, hfree⟩
  rw [State.parts_path hlinear, hparts, List.filter_append, List.filter_cons_of_pos hp]

theorem isCovered_of_flip? (h : t.flip? s candidate = some mutated) :
    s.explored.isCovered mutated.path = false := by
  obtain ⟨_, _, _, _, -, -, -, hfree⟩ := flip?_eq_some h
  exact hfree

/-- A candidate whose branches are relations is a duplicate only when the other side of every
branch is covered. -/
theorem isEnclosed_of_flip?_eq_none {state : SymbolicState}
    (hbuild : Replay.build t.engine.program t.method candidate = .ok state)
    (hrelations : ∀ p ∈ state.path.parts, p.IsRelation) (h : t.flip? s candidate = none) :
    s.explored.IsEnclosed state.path.parts := by
  have hlinear := Replay.isLinear_build hbuild
  rw [State.parts_path hlinear] at hrelations ⊢
  rcases ExploredPaths.mutate_cases s.explored state with
    ⟨-, henclosed⟩ | ⟨before, p, after, hparts, hp, hmutate, -, hfree⟩
  · exact henclosed
  · have hnew := ExploredPaths.contains_of_not_isCovered hfree
    have hchanged : (s.explored.mutate state == state) = false := by
      rw [← Bool.not_eq_true, hmutate, State.beq_iff_key, State.key, State.key,
        State.items_basic, hlinear.items_eq, hparts]
      intro hkey
      -- The flipped branch would be the same as the one it replaces.
      have hlast : [p.inverse].map (State.Item.toClass ∘ State.Item.part) =
          (p :: after).map (State.Item.toClass ∘ State.Item.part) := by
        simpa using hkey
      have hsame := State.Item.toClass_eq_iff.mp (List.cons.inj hlast).1
      rw [State.Item.part_beq_part, Clause.inverse_beq_self (hrelations p ?_)] at hsame
      · exact Bool.false_ne_true hsame
      · rw [hparts]
        simp [hp]
    simp [flip?, hbuild, hchanged, hnew] at h

/-! ## One attempt -/

/-- What comes of an attempt on a candidate: the search and the world that it leaves. -/
inductive Concludes (t : Task σ) (s : Search) (candidate : Trace) (w : World σ) :
    Search → Except Failure Attempt → World σ → Prop
  | unreplayable {failure : Failure}
    (hbuild : Replay.build t.engine.program t.method candidate = .error failure) :
    Concludes t s candidate w s (.error failure) w
  | duplicate {state : SymbolicState}
    (hbuild : Replay.build t.engine.program t.method candidate = .ok state)
    (hflip : t.flip? s candidate = none) : Concludes t s candidate w s (.ok .duplicate) w
  | accepted {mutated : SymbolicState} {trace : Trace} {arena : Arena}
    {parameters : Parameters Handle} {w' : World σ} (hflip : t.flip? s candidate = some mutated)
    (hexplored : (t.explore mutated mutated.path).run.run w =
      (.ok (.confirmed trace arena parameters), w')) :
    Concludes t s candidate w
      { s with explored := s.explored.record mutated.path, tests := s.tests + 1 }
      (.ok (.accepted trace))
      { w' with suite := w'.suite ++ [.found ⟨s.tests + 1, t.method, arena, parameters⟩] }
  | infeasible {mutated : SymbolicState} {w' : World σ}
    (hflip : t.flip? s candidate = some mutated)
    (hexplored : (t.explore mutated mutated.path).run.run w = (.ok .infeasible, w')) :
    Concludes t s candidate w { s with explored := s.explored.block mutated.path }
      (.ok .discarded) w'
  | unconfirmed {mutated : SymbolicState} {w' : World σ}
    (hflip : t.flip? s candidate = some mutated)
    (hexplored : (t.explore mutated mutated.path).run.run w = (.ok .unconfirmed, w')) :
    Concludes t s candidate w { s with explored := s.explored.recordFailure mutated.path }
      (.ok .discarded) w'
  | failed {mutated : SymbolicState} {failure : Failure} {w' : World σ}
    (hflip : t.flip? s candidate = some mutated)
    (hexplored : (t.explore mutated mutated.path).run.run w = (.error failure, w'))
    (hseverity : failure.severity = .attempt) (hgoing : failure ≠ .cancelled) :
    Concludes t s candidate w { s with explored := s.explored.recordFailure mutated.path }
      (.ok .discarded) w'
  | cancelled {mutated : SymbolicState} {w' : World σ}
    (hflip : t.flip? s candidate = some mutated)
    (hexplored : (t.explore mutated mutated.path).run.run w = (.error .cancelled, w')) :
    Concludes t s candidate w s (.error .cancelled) w'
  | ended {mutated : SymbolicState} {failure : Failure} {w' : World σ}
    (hflip : t.flip? s candidate = some mutated)
    (hexplored : (t.explore mutated mutated.path).run.run w = (.error failure, w'))
    (hseverity : failure.severity ≠ .attempt) : Concludes t s candidate w s (.error failure) w'

theorem attempt_concludes (t : Task σ) (s : Search) (candidate : Trace) (w : World σ) :
    t.Concludes s candidate w ((t.attempt s candidate).run w).1.1
      ((t.attempt s candidate).run w).1.2 ((t.attempt s candidate).run w).2 := by
  cases hbuild : Replay.build t.engine.program t.method candidate with
  | error failure =>
    simp only [attempt, hbuild]
    exact .unreplayable hbuild
  | ok state =>
    by_cases hdup : (s.explored.mutate state == state ||
        s.explored.contains (s.explored.mutate state).path) = true
    · have hflip : t.flip? s candidate = none := by simp only [flip?, hbuild, if_pos hdup]
      simp only [attempt, hbuild, if_pos hdup]
      exact .duplicate hbuild hflip
    · have hflip : t.flip? s candidate = some (s.explored.mutate state) := by
        simp only [flip?, hbuild, if_neg hdup]
      simp only [attempt, hbuild, if_neg hdup, Act.run_bind]
      generalize hexplored : (t.explore (s.explored.mutate state)
        (s.explored.mutate state).path).run.run w = explored
      rcases explored with ⟨failure | finding, w'⟩
      · cases failure with
        | cancelled => exact .cancelled hflip hexplored
        | noConcreteInstance | zeroDivisor | reanimation | execution =>
          exact .failed hflip hexplored rfl nofun
        | typeMerge | contradiction | program | config => exact .ended hflip hexplored nofun
      · cases finding with
        | confirmed trace arena parameters => exact .accepted hflip hexplored
        | infeasible => exact .infeasible hflip hexplored
        | unconfirmed => exact .unconfirmed hflip hexplored

theorem Concludes.reaches (h : t.Concludes s candidate w after outcome rest) :
    t.engine.collaborators.Reaches w.outside rest.outside := by
  cases h with
  | unreplayable | duplicate => exact .refl
  | accepted _ hexplored | infeasible _ hexplored | unconfirmed _ hexplored
  | failed _ hexplored | cancelled _ hexplored | ended _ hexplored =>
    exact (explores_of_run hexplored).reaches

/-- What an attempt on a candidate does to a search, and what comes of it. -/
inductive Tries (t : Task σ) (s : Search) (candidate : Trace) (w : World σ) :
    Search → Except Failure Attempt → Prop
  | unreplayable {failure : Failure}
    (hbuild : Replay.build t.engine.program t.method candidate = .error failure) :
    Tries t s candidate w s (.error failure)
  | duplicate {state : SymbolicState}
    (hbuild : Replay.build t.engine.program t.method candidate = .ok state)
    (hflip : t.flip? s candidate = none) : Tries t s candidate w s (.ok .duplicate)
  | accepted {mutated replayed : SymbolicState} {trace : Trace}
    (hflip : t.flip? s candidate = some mutated) (hreplayed : t.pathOf trace = .ok replayed)
    (hstarts : replayed.startsWith mutated.path = true)
    (hreturned : t.engine.collaborators.Returns t.method w.outside trace) :
    Tries t s candidate w
      { s with explored := s.explored.record mutated.path, tests := s.tests + 1 }
      (.ok (.accepted trace))
  | infeasible {mutated : SymbolicState} (hflip : t.flip? s candidate = some mutated) :
    Tries t s candidate w { s with explored := s.explored.block mutated.path } (.ok .discarded)
  | failed {mutated : SymbolicState} (hflip : t.flip? s candidate = some mutated) :
    Tries t s candidate w { s with explored := s.explored.recordFailure mutated.path }
      (.ok .discarded)
  | cancelled {mutated : SymbolicState} (hflip : t.flip? s candidate = some mutated) :
    Tries t s candidate w s (.error .cancelled)
  | ended {mutated : SymbolicState} {failure : Failure}
    (hflip : t.flip? s candidate = some mutated) (hseverity : failure.severity ≠ .attempt) :
    Tries t s candidate w s (.error failure)

/-- The search does not look at how a path came to be infeasible, confirmed or neither. -/
theorem Concludes.tries (h : t.Concludes s candidate w after outcome rest) :
    t.Tries s candidate w after outcome := by
  cases h with
  | unreplayable hbuild => exact .unreplayable hbuild
  | duplicate hbuild hflip => exact .duplicate hbuild hflip
  | accepted hflip hexplored =>
    obtain ⟨⟨replayed, hpath, hstarts⟩, hreturned⟩ := (explores_of_run hexplored).takes
    exact .accepted hflip hpath hstarts hreturned
  | infeasible hflip => exact .infeasible hflip
  | unconfirmed hflip | failed hflip => exact .failed hflip
  | cancelled hflip => exact .cancelled hflip
  | ended hflip _ hseverity => exact .ended hflip hseverity

end Task
end Concolic
