import Concolic.Proofs.Search.Run

/-!
# Exhaustion

A candidate leaves the queue only when the other side of every branch on its path is covered,
and what is covered stays so. A run that ends because no candidate is left has therefore
looked behind every branch of every trace it ever queued.
-/

namespace Concolic

variable {σ : Type}

namespace Task

variable {t : Task σ} {s s' : Search} {w w' w₀ : World σ} {u : Turn σ} {past : List (Turn σ)}
  {trace : Trace} {path : SymbolicState} {rounds : Nat} {turns : List (Turn σ)}

/-- All branches of a trace are equalities or inequalities. -/
def HasRelations (t : Task σ) (trace : Trace) : Prop :=
  ∀ path, t.pathOf trace = .ok path → ∀ p ∈ path.parts, p.IsRelation

/-- The path of a trace has the other side of every branch covered. -/
def IsFinished (t : Task σ) (s : Search) (trace : Trace) : Prop :=
  ∃ path, t.pathOf trace = .ok path ∧ s.explored.IsEnclosed path.parts

theorem IsFinished.mono
    (hmono : ∀ path, s.explored.isCovered path = true → s'.explored.isCovered path = true)
    (h : t.IsFinished s trace) : t.IsFinished s' trace := by
  obtain ⟨path, hpath, henclosed⟩ := h
  exact ⟨path, hpath, henclosed.mono hmono⟩

/-- Every trace queued so far still waits or is finished, and those that wait can be replayed. -/
structure Settled (t : Task σ) (past : List (Turn σ)) (s : Search) : Prop where
  replays : ∀ trace ∈ s.candidates, ∃ path, t.pathOf trace = .ok path
  settled : ∀ u ∈ past, ∀ trace ∈ u.queue, trace ∈ s.candidates ∨ t.IsFinished s trace

/-- A candidate that turns out a duplicate is finished. -/
theorem Tries.isFinished {candidate : Trace} (h : t.Tries s candidate w s' (.ok .duplicate))
    (hrelations : t.HasRelations candidate) : t.IsFinished s' candidate := by
  cases h with
  | duplicate hbuild hflip =>
    have hpath := pathOf_of_build hbuild
    exact ⟨_, hpath, isEnclosed_of_flip?_eq_none hbuild (hrelations _ hpath) hflip⟩

/-- A candidate that can be replayed does not leave the queue for a failure. -/
theorem Tries.ended_of_error {candidate : Trace} {failure : Failure}
    (h : t.Tries s candidate w s' (.error failure)) (hpath : t.pathOf candidate = .ok path) :
    ∀ s'', s'.after (.error failure) ≠ .going s'' := by
  intro s'' hnext
  cases h with
  | unreplayable hbuild => simp [pathOf, hbuild, Except.map] at hpath
  | cancelled => simp [Search.after] at hnext
  | ended _ hseverity => exact absurd hnext (after_error_of_severity hseverity)

theorem Tries.accepted_replays {candidate : Trace}
    (h : t.Tries s candidate w s' (.ok (.accepted trace))) : ∃ path, t.pathOf trace = .ok path := by
  cases h with
  | accepted _ hreplayed => exact ⟨_, hreplayed⟩

/-- After a turn, what it had in its queue waits or is finished. -/
theorem Takes.settled (h : t.Takes s w u) (hnext : u.next = .going s')
    (hreplays : ∀ trace ∈ u.before.candidates, ∃ path, t.pathOf trace = .ok path)
    (hrelations : t.HasRelations u.candidate) :
    (∀ trace ∈ s'.candidates, ∃ path, t.pathOf trace = .ok path) ∧
      ∀ trace ∈ u.queue, trace ∈ s'.candidates ∨ t.IsFinished s' trace := by
  obtain ⟨⟨waiting, hqueue⟩, -, -⟩ := h.candidates
  have htries := h.tries
  have hnext : u.after.after u.outcome = .going s' := hnext
  have hcases := candidates_of_going hnext
  rw [htries.candidates] at hcases
  rw [Turn.queue, Turn.accepted?]
  rcases hcases with
    ⟨trace, houtcome, hs'⟩ | ⟨houtcome, hs'⟩ | ⟨houtcome, hs'⟩ | ⟨⟨failure, houtcome⟩, -⟩
  · rw [houtcome] at htries ⊢
    rw [hs']
    refine ⟨fun trace' htrace' => ?_, fun trace' htrace' => .inl htrace'⟩
    rcases List.mem_append.mp htrace' with hmem | hmem
    · exact hreplays trace' hmem
    · rw [List.mem_singleton.mp hmem]
      exact htries.accepted_replays
  -- Only a duplicate drops its candidate here, and a duplicate is finished.
  · rw [houtcome] at htries ⊢
    have hexplored := (after_eq_going hnext).1
    have hfinished : t.IsFinished s' u.candidate :=
      (htries.isFinished hrelations).mono fun path hcovered => by rw [hexplored]; exact hcovered
    rw [hqueue] at hs' hreplays ⊢
    rw [hs']
    refine ⟨fun trace htrace => hreplays trace (List.mem_cons_of_mem _ htrace), ?_⟩
    intro trace htrace
    rw [Option.toList_none, List.append_nil] at htrace
    rcases List.mem_cons.mp htrace with rfl | hwaiting
    · exact .inr hfinished
    · exact .inl hwaiting
  · rw [houtcome, hs']
    refine ⟨hreplays, fun trace htrace => .inl ?_⟩
    simpa using htrace
  · rw [houtcome] at htries hnext
    obtain ⟨path, hpath⟩ := hreplays u.candidate (by simp [hqueue])
    exact absurd hnext (htries.ended_of_error hpath s')

theorem Takes.isCovered (h : t.Takes s w u) (hnext : u.next = .going s') :
    ∀ path, s.explored.isCovered path = true → s'.explored.isCovered path = true := by
  intro path hcovered
  rw [(after_eq_going hnext).1]
  rw [← h.explored] at hcovered
  exact h.tries.isCovered hcovered

/-- A turn keeps everything settled. -/
theorem Settled.turn (h : t.Settled past s) (htakes : t.Takes s w u) (hnext : u.next = .going s')
    (hrelations : t.HasRelations u.candidate) : t.Settled (past ++ [u]) s' := by
  obtain ⟨-, hkept, hmem⟩ := htakes.candidates
  have hreplays : ∀ trace ∈ u.before.candidates, ∃ path, t.pathOf trace = .ok path := by
    intro trace htrace
    rcases hmem trace htrace with hold | hnew
    · exact h.replays trace hold
    · exact hnew
  obtain ⟨hreplays', hsettled⟩ := htakes.settled hnext hreplays hrelations
  refine ⟨hreplays', fun v hv trace htrace => ?_⟩
  rcases List.mem_append.mp hv with hpast | hlast
  · rcases h.settled v hpast trace htrace with hwaiting | hfinished
    · exact hsettled trace (List.mem_append_left _ (hkept hwaiting))
    · exact .inr (hfinished.mono (htakes.isCovered hnext))
  · rw [List.mem_singleton.mp hlast] at htrace
    exact hsettled trace htrace

theorem Reached.settled (h : t.Reached w₀ past s w)
    (hrelations : ∀ u ∈ past, t.HasRelations u.candidate) : t.Settled past s := by
  induction h with
  | start =>
    refine ⟨fun trace htrace => ?_, fun u hu => ?_⟩
    · exact absurd htrace List.not_mem_nil
    · exact absurd hu List.not_mem_nil
  | turn h hturn hnext ih =>
    rw [List.forall_mem_append, List.forall_mem_singleton] at hrelations
    exact (ih hrelations.1).turn (takes_of_turn? hturn).1 hnext hrelations.2

/-- A run that ends exhausted has finished every trace that was ever in its queue. -/
theorem Arrives.isFinished (harrives : t.Arrives w₀ rounds turns s (.ok .exhausted))
    (hrelations : ∀ u ∈ turns, t.HasRelations u.candidate) :
    ∀ u ∈ turns, ∀ trace ∈ u.queue, t.IsFinished s trace := by
  intro u hu trace htrace
  cases harrives with
  | stopped h _ hstops =>
    obtain ⟨rfl, hempty⟩ := hstops.exhausted rfl
    rcases (h.settled hrelations).settled u hu trace htrace with hwaiting | hfinished
    · simp [hempty] at hwaiting
    · exact hfinished
  | broken _ _ hnext => exact nomatch (after_eq_ended hnext).2.timedOut

/-- In a run that ends exhausted, the other side of every branch of every trace that was ever
in the queue is covered in the end, by a confirmed path or by one that was given up. -/
theorem exhausted_covers_branches (t : Task σ) (w₀ : World σ) (rounds : Nat)
    (hrun : (t.run rounds t.start).run w₀ = ((s, .ok .exhausted), w))
    (hrelations : ∀ u ∈ t.turns rounds t.start w₀, t.HasRelations u.candidate) :
    ∀ u ∈ t.turns rounds t.start w₀, ∀ trace ∈ u.queue,
      ∃ (path : SymbolicState) (branches : List Predicate), t.pathOf trace = .ok path ∧
        path.items = branches.map .part ∧
        ∀ (k : Nat) (hk : k < branches.length),
          s.explored.isCovered (.basic (branches.take k ++ [branches[k].inverse])) = true := by
  intro u hu trace htrace
  have harrives := t.run_arrives w₀ rounds
  rw [hrun] at harrives
  obtain ⟨path, hpath, henclosed⟩ := harrives.isFinished hrelations u hu trace htrace
  refine ⟨path, path.parts, hpath, (pathOf_eq_ok hpath).1.items_eq, fun k hk => ?_⟩
  refine henclosed _ _ (path.parts.drop (k + 1)) ?_
  rw [List.getElem_cons_drop, List.take_append_drop]

end Task

namespace Gate

theorem exists_eq_exhausted {r : (Search × Except Failure Outcome) × World Coverage}
    (h : (match r.1.2 with | .ok .exhausted => true | _ => false) = true) :
    ∃ s w, r = ((s, .ok .exhausted), w) := by
  obtain ⟨⟨s, result⟩, w⟩ := r
  cases result with
  | error failure => simp at h
  | ok outcome => cases outcome <;> simp_all

theorem hasRelations (turns : List (Turn Coverage))
    (h : (turns.all fun u => (task.pathOf u.candidate).toOption.all fun path =>
      path.parts.all fun p => decide p.IsRelation) = true) :
    ∀ u ∈ turns, task.HasRelations u.candidate := by
  intro u hu path hpath p hp
  have hpaths := List.all_eq_true.mp h u hu
  rw [hpath] at hpaths
  exact of_decide_eq_true (List.all_eq_true.mp hpaths p hp)

/-- The search through the gate ends exhausted, with every branch of every trace covered. -/
theorem gate_covers_branches : ∃ s w,
    (task.run 20 task.start).run world = ((s, .ok .exhausted), w) ∧
    (∀ u ∈ task.turns 20 task.start world, task.HasRelations u.candidate) ∧
    ∀ u ∈ task.turns 20 task.start world, ∀ trace ∈ u.queue,
      ∃ (path : SymbolicState) (branches : List Predicate), task.pathOf trace = .ok path ∧
        path.items = branches.map .part ∧
        ∀ (k : Nat) (hk : k < branches.length),
          s.explored.isCovered (.basic (branches.take k ++ [branches[k].inverse])) = true := by
  obtain ⟨s, w, hrun⟩ : ∃ s w, (task.run 20 task.start).run world = ((s, .ok .exhausted), w) :=
    exists_eq_exhausted (by decide +kernel)
  have hrelations := hasRelations (task.turns 20 task.start world) (by decide +kernel)
  exact ⟨s, w, hrun, hrelations,
    Task.exhausted_covers_branches task world 20 hrun hrelations⟩

end Gate
end Concolic
