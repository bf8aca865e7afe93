import Concolic.Coverage
import Concolic.Proofs.Search.Attempt

/-!
# Runs of the search

A run is told by its turns, the rounds in which a candidate was tried. `Reached` collects the
searches that stand at the head of a round, each with the turns taken so far, and `run_ends`
says that whatever number of rounds is granted, a run ends at such a head or in the round that
follows one. What holds of every search reached is proved by induction on `Reached`.

## Main definitions

* `Task.turn?`, `Task.turns` — the turn of a round, and the turns of a run.
* `Task.Takes`, `Task.Halts` — a round with a turn, and one that ends the search without.
* `Task.Reached` — the searches at the head of a round.
* `Task.Ends` — where a run ends, with the world that it leaves; `Task.Arrives` without it.
-/

namespace Concolic

variable {σ : Type}

/-- A round in which a candidate was tried. -/
structure Turn (σ : Type) where
  candidate : Trace
  /-- The search and the world that the attempt found. -/
  before : Search
  world : World σ
  /-- The search and the world that it left. -/
  after : Search
  rest : World σ
  outcome : Except Failure Attempt

/-- Where a turn leaves its search. -/
def Turn.next (u : Turn σ) : Round := u.after.after u.outcome

/-- The trace that a turn accepts. -/
def Turn.accepted? (u : Turn σ) : Option Trace :=
  match u.outcome with
  | .ok (.accepted trace) => some trace
  | _ => none

theorem Turn.accepted?_eq_some {u : Turn σ} {trace : Trace} :
    u.accepted? = some trace ↔ u.outcome = .ok (.accepted trace) := by
  unfold Turn.accepted?
  split
  · next found houtcome => simp [houtcome]
  · next hno => simpa using hno trace

/-- The candidates that a turn has in its queue, an accepted one included. -/
def Turn.queue (u : Turn σ) : List Trace := u.before.candidates ++ u.accepted?.toList

namespace Task

variable {t : Task σ} {s s' : Search} {w w' w₀ : World σ} {u : Turn σ}
  {past : List (Turn σ)} {result : Except Failure Outcome}

/-- The turn that a round takes, unless it ends before it tries a candidate. -/
def turn? (t : Task σ) (s : Search) (w : World σ) : Option (Turn σ) :=
  if t.engine.collaborators.isCovered t.method w.outside.state || t.isCapped s ||
      (t.later w).outside.clock.isCancelled t.token then none
  else
    match (t.next s).run (t.later w) with
    | ((s, .ok (some candidate)), w) =>
      if (t.later w).outside.clock.isCancelled t.token then none
      else
        let before := { s with iterations := s.iterations + 1 }
        let ((after, outcome), rest) := (t.attempt before candidate).run (t.later w)
        some { candidate, before, world := t.later w, after, rest, outcome }
    | _ => none

/-- The turns of at most so many rounds. -/
def turns (t : Task σ) : (rounds : Nat) → Search → World σ → List (Turn σ)
  | 0, _, _ => []
  | rounds + 1, s, w =>
    match t.turn? s w with
    | none => []
    | some u =>
      match u.next with
      | .going s => u :: t.turns rounds s u.rest
      | .ended _ _ => [u]

/-! ## The candidate of a round -/

/-- Where a round takes its candidate from: the head of the queue, or a random trace of a path
that is neither known nor the path of an earlier seed. -/
inductive Starts (t : Task σ) (s : Search) (w : World σ) (candidate : Trace) : Search → Prop
  | queued {waiting : List Trace} (h : s.candidates = candidate :: waiting) :
    Starts t s w candidate s
  | seeded {path : SymbolicState} (hempty : s.candidates = [])
    (hpath : t.pathOf candidate = .ok path) (hnew : s.explored.contains path = false)
    (hseeds : ExploredPaths.has s.seeds path = false)
    (hreturned : t.engine.collaborators.Returns t.method w.outside candidate) :
    Starts t s w candidate { s with seeds := s.seeds ++ [path], candidates := [candidate] }

/-- What asking for a seed comes to: the search and the world that it leaves. -/
inductive Seeds (t : Task σ) (s : Search) (w : World σ) :
    Search → Except Failure (Option Trace) → World σ → Prop
  | failed {message : String} {outside : Outside σ}
    (hruns : (t.engine.collaborators.runRandom t.method).run w.outside =
      (.error message, outside)) :
    Seeds t s w s (.ok none) { w with outside }
  | unreplayable {trace : Trace} {outside : Outside σ} {failure : Failure}
    (hruns : (t.engine.collaborators.runRandom t.method).run w.outside = (.ok trace, outside))
    (hpath : t.pathOf trace = .error failure) :
    Seeds t s w s (.error failure) (t.recorded trace { w with outside })
  | known {trace : Trace} {outside : Outside σ} {path : SymbolicState}
    (hruns : (t.engine.collaborators.runRandom t.method).run w.outside = (.ok trace, outside))
    (hpath : t.pathOf trace = .ok path)
    (hknown : (s.explored.contains path || ExploredPaths.has s.seeds path) = true) :
    Seeds t s w s (.ok none) (t.recorded trace { w with outside })
  | fresh {trace : Trace} {outside : Outside σ} {path : SymbolicState}
    (hruns : (t.engine.collaborators.runRandom t.method).run w.outside = (.ok trace, outside))
    (hpath : t.pathOf trace = .ok path)
    (hnew : (s.explored.contains path || ExploredPaths.has s.seeds path) = false) :
    Seeds t s w { s with seeds := s.seeds ++ [path], candidates := s.candidates ++ [trace] }
      (.ok (some trace)) (t.recorded trace { w with outside })

theorem seed_seeds (t : Task σ) (s : Search) (w : World σ) :
    t.Seeds s w ((t.seed s).run w).1.1 ((t.seed s).run w).1.2 ((t.seed s).run w).2 := by
  unfold seed
  rw [Act.run_bind, Act.run_ask]
  rcases hruns : (t.engine.collaborators.runRandom t.method).run w.outside with
    ⟨message | trace, outside⟩
  · exact .failed hruns
  dsimp only
  rw [Act.run_bind]
  cases hpath : t.pathOf trace with
  | error failure => exact .unreplayable hruns hpath
  | ok path =>
    by_cases hknown : (s.explored.contains path || ExploredPaths.has s.seeds path) = true
    · simp only [if_pos hknown]
      exact .known hruns hpath hknown
    · simp only [if_neg hknown]
      exact .fresh hruns hpath (Bool.not_eq_true _ ▸ hknown)

theorem reaches_runRandom {returned : Except String Trace} {outside : Outside σ}
    (h : (t.engine.collaborators.runRandom t.method).run w.outside = (returned, outside)) :
    t.engine.collaborators.Reaches w.outside outside := by
  have hreaches : t.engine.collaborators.Reaches w.outside
    ((t.engine.collaborators.runRandom t.method).run w.outside).2 := .runRandom t.method .refl
  rwa [h] at hreaches

theorem Seeds.reaches {found : Except Failure (Option Trace)} (h : t.Seeds s w s' found w') :
    t.engine.collaborators.Reaches w.outside w'.outside := by
  cases h with
  | failed hruns => exact reaches_runRandom hruns
  | unreplayable hruns | known hruns | fresh hruns =>
    exact .record t.method _ (reaches_runRandom hruns)

theorem Seeds.suite {found : Except Failure (Option Trace)} (h : t.Seeds s w s' found w') :
    w'.suite = w.suite := by
  cases h <;> rfl

/-- Asking for a seed fails when the trace that comes back cannot be replayed. -/
theorem Seeds.exists_of_error {failure : Failure} (h : t.Seeds s w s' (.error failure) w') :
    ∃ trace outside, (t.engine.collaborators.runRandom t.method).run w.outside =
      (.ok trace, outside) ∧ t.pathOf trace = .error failure := by
  cases h with
  | unreplayable hruns hpath => exact ⟨_, _, hruns, hpath⟩

/-- One of these is what asking for a seed comes to. -/
theorem Seeds.run_eq {found : Except Failure (Option Trace)} (h : t.Seeds s w s' found w') :
    (t.seed s).run w = ((s', found), w') := by
  unfold seed
  rw [Act.run_bind, Act.run_ask]
  cases h with
  | failed hruns =>
    rw [hruns]
    rfl
  | unreplayable hruns hpath =>
    rw [hruns]
    dsimp only
    rw [Act.run_bind, hpath]
    rfl
  | known hruns hpath hknown =>
    rw [hruns]
    dsimp only
    rw [Act.run_bind, hpath]
    dsimp only
    rw [if_pos hknown]
    rfl
  | fresh hruns hpath hnew =>
    rw [hruns]
    dsimp only
    rw [Act.run_bind, hpath]
    dsimp only
    rw [if_neg (by simp [hnew])]
    rfl

/-- A search that is left without a candidate has none, and is left as it is. -/
theorem next_cases (t : Task σ) (s : Search) (w : World σ) :
    (∃ failure, s.candidates = [] ∧ t.Seeds s w s (.error failure) ((t.next s).run w).2 ∧
      ((t.next s).run w).1 = (s, .error failure)) ∨
    (s.candidates = [] ∧ t.Seeds s w s (.ok none) ((t.next s).run w).2 ∧
      ((t.next s).run w).1 = (s, .ok none)) ∨
    ∃ candidate s', t.Starts s w candidate s' ∧
      t.engine.collaborators.Reaches w.outside ((t.next s).run w).2.outside ∧
      ((t.next s).run w).2.suite = w.suite ∧
      ((t.next s).run w).1 = (s', .ok (some candidate)) := by
  unfold next
  split
  · next candidate waiting heq =>
    exact .inr (.inr ⟨candidate, s, .queued heq, .refl, rfl, rfl⟩)
  · next hempty =>
    have hseeds := t.seed_seeds s w
    generalize (t.seed s).run w = found at hseeds ⊢
    obtain ⟨⟨s', result⟩, w'⟩ := found
    dsimp only at hseeds
    cases hseeds with
    | failed hruns => exact .inr (.inl ⟨hempty, .failed hruns, rfl⟩)
    | unreplayable hruns hpath => exact .inl ⟨_, hempty, .unreplayable hruns hpath, rfl⟩
    | known hruns hpath hknown => exact .inr (.inl ⟨hempty, .known hruns hpath hknown, rfl⟩)
    | @fresh trace outside path hruns hpath hnew =>
      obtain ⟨hexplored, hunseeded⟩ := Bool.or_eq_false_iff.mp hnew
      have hreturned : t.engine.collaborators.Returns t.method w.outside trace :=
        ⟨w.outside, .refl, .inl (congrArg Prod.fst hruns)⟩
      have hreaches := (Seeds.fresh hruns hpath hnew).reaches
      refine .inr (.inr ⟨trace, _, .seeded hempty hpath hexplored hunseeded hreturned,
        hreaches, rfl, ?_⟩)
      rw [hempty]
      rfl

/-! ## Rounds -/

/-- The search goes into a round: nothing at its head ends it. -/
structure IsOpen (t : Task σ) (s : Search) (w : World σ) : Prop where
  uncovered : t.engine.collaborators.isCovered t.method w.outside.state = false
  uncapped : t.isCapped s = false
  going : ¬t.HasFired (t.later w)

/-- How an attempt follows from the head of its round. -/
structure Takes (t : Task σ) (s : Search) (w : World σ) (u : Turn σ) : Prop where
  isOpen : t.IsOpen s w
  starts : ∃ s', t.Starts s (t.later w) u.candidate s' ∧
    u.before = { s' with iterations := s'.iterations + 1 }
  arrives : t.engine.collaborators.Reaches w.outside u.world.outside
  suite : u.world.suite = w.suite
  attempted : (t.attempt u.before u.candidate).run u.world = ((u.after, u.outcome), u.rest)

theorem Takes.concludes (h : t.Takes s w u) :
    t.Concludes u.before u.candidate u.world u.after u.outcome u.rest := by
  have hconcludes := t.attempt_concludes u.before u.candidate u.world
  rwa [h.attempted] at hconcludes

theorem Takes.tries (h : t.Takes s w u) : t.Tries u.before u.candidate u.world u.after u.outcome :=
  h.concludes.tries

theorem Takes.leaves (h : t.Takes s w u) :
    t.engine.collaborators.Reaches u.world.outside u.rest.outside := h.concludes.reaches

/-- How a round without a turn ends the search: at its head, for want of a candidate, or
because the time is up by the time it has one. -/
inductive Halts (t : Task σ) (s : Search) (w : World σ) :
    Search → Except Failure Outcome → World σ → Prop
  | covered (h : t.engine.collaborators.isCovered t.method w.outside.state = true) :
    Halts t s w s (.ok .covered) w
  | capped (h : t.isCapped s = true) : Halts t s w s (.ok .timedOut) w
  | fired (h : t.HasFired (t.later w)) : Halts t s w s (.ok .timedOut) (t.later w)
  | unreplayable {failure : Failure} {w' : World σ} (hopen : t.IsOpen s w)
    (hempty : s.candidates = []) (hseeds : t.Seeds s (t.later w) s (.error failure) w') :
    Halts t s w s (.error failure) w'
  | unseeded {w' : World σ} (hopen : t.IsOpen s w) (hempty : s.candidates = [])
    (hseeds : t.Seeds s (t.later w) s (.ok none) w') :
    Halts t s w s (.ok (if s.seeds.isEmpty then .abandoned else .exhausted)) w'
  | late {candidate : Trace} {s' : Search} {w' : World σ} (hopen : t.IsOpen s w)
    (hstarts : t.Starts s (t.later w) candidate s') (hsuite : w'.suite = w.suite)
    (hfired : t.HasFired w') (hreaches : t.engine.collaborators.Reaches w.outside w'.outside) :
    Halts t s w s' (.ok .timedOut) w'

/-- How a search is left by a round that tries no candidate. -/
structure Stops (s s' : Search) (result : Except Failure Outcome) : Prop where
  explored : s'.explored = s.explored
  iterations : s'.iterations = s.iterations
  accepted : s'.accepted = s.accepted
  discarded : s'.discarded = s.discarded
  tests : s'.tests = s.tests
  exhausted : result = .ok .exhausted → s' = s ∧ s.candidates = []
  finished : result ≠ .ok .unfinished

theorem Stops.of_result (h : result ≠ .ok .exhausted) (k : result ≠ .ok .unfinished) :
    Stops s s result :=
  ⟨rfl, rfl, rfl, rfl, rfl, fun hresult => absurd hresult h, k⟩

theorem Halts.stops (h : t.Halts s w s' result w') : Stops s s' result := by
  cases h with
  | covered | capped | fired | unreplayable => exact .of_result nofun nofun
  | unseeded _ hempty =>
    refine ⟨rfl, rfl, rfl, rfl, rfl, fun _ => ⟨rfl, hempty⟩, ?_⟩
    split <;> simp
  | late _ hstarts => cases hstarts <;> exact ⟨rfl, rfl, rfl, rfl, rfl, nofun, nofun⟩

theorem Halts.suite (h : t.Halts s w s' result w') : w'.suite = w.suite := by
  cases h with
  | covered | capped | fired => rfl
  | unreplayable _ _ hseeds | unseeded _ _ hseeds => exact hseeds.suite
  | late _ _ hsuite => exact hsuite

theorem Halts.reaches (h : t.Halts s w s' result w') :
    t.engine.collaborators.Reaches w.outside w'.outside := by
  cases h with
  | covered | capped => exact .refl
  | fired => exact t.reaches_later w
  | unreplayable _ _ hseeds | unseeded _ _ hseeds => exact (t.reaches_later w).trans hseeds.reaches
  | late _ _ _ _ hreaches => exact hreaches

/-- What a round does, without the monad. -/
theorem round_run (t : Task σ) (s : Search) (w : World σ) :
    (t.round s).run w =
      if t.engine.collaborators.isCovered t.method w.outside.state then (.ended s (.ok .covered), w)
      else if t.isCapped s then (.ended s (.ok .timedOut), w)
      else if (t.later w).outside.clock.isCancelled t.token then
        (.ended s (.ok .timedOut), t.later w)
      else
        match (t.next s).run (t.later w) with
        | ((s, .error failure), w) => (.ended s (.error failure), w)
        | ((s, .ok none), w) =>
          (.ended s (.ok (if s.seeds.isEmpty then .abandoned else .exhausted)), w)
        | ((s, .ok (some candidate)), w) =>
          if (t.later w).outside.clock.isCancelled t.token then
            (.ended s (.ok .timedOut), t.later w)
          else
            let ((s, outcome), w) :=
              (t.attempt { s with iterations := s.iterations + 1 } candidate).run (t.later w)
            (s.after outcome, w) := by
  unfold round
  rw [Act.run_bind, Act.run_get, Act.run_ite]
  split
  · rfl
  · rw [Act.run_ite]
    split
    · rfl
    · rw [Act.run_bind, t.run_poll, Act.run_ite]
      split
      · rfl
      · rw [Act.run_bind]
        obtain ⟨⟨s₁, _ | _ | candidate⟩, w₁⟩ := (t.next s).run (t.later w)
        · rfl
        · rfl
        · dsimp only
          rw [Act.run_bind, t.run_poll, Act.run_ite]
          split <;> rfl

/-- A round is its turn, or it halts the search. -/
theorem round_cases (t : Task σ) (s : Search) (w : World σ) :
    (∃ u, t.turn? s w = some u ∧ t.Takes s w u ∧ (t.round s).run w = (u.next, u.rest)) ∨
    (t.turn? s w = none ∧ ∃ s' result w', t.Halts s w s' result w' ∧
      (t.round s).run w = (.ended s' result, w')) := by
  rw [round_run, turn?]
  by_cases hcovered : t.engine.collaborators.isCovered t.method w.outside.state = true
  · rw [if_pos hcovered, if_pos (by simp [hcovered])]
    exact .inr ⟨rfl, s, _, w, .covered hcovered, rfl⟩
  by_cases hcapped : t.isCapped s = true
  · rw [if_neg hcovered, if_pos hcapped, if_pos (by simp [hcapped])]
    exact .inr ⟨rfl, s, _, w, .capped hcapped, rfl⟩
  by_cases hfired : (t.later w).outside.clock.isCancelled t.token = true
  · rw [if_neg hcovered, if_neg hcapped, if_pos hfired, if_pos (by simp [hfired])]
    exact .inr ⟨rfl, s, _, _, .fired hfired, rfl⟩
  rw [if_neg hcovered, if_neg hcapped, if_neg hfired, if_neg (by simp_all)]
  have hopen : t.IsOpen s w := ⟨by simpa using hcovered, by simpa using hcapped, hfired⟩
  have hcases := t.next_cases s (t.later w)
  generalize (t.next s).run (t.later w) = found at hcases ⊢
  obtain ⟨⟨s₁, outcome⟩, w₁⟩ := found
  rcases hcases with ⟨failure, hempty, hseeds, hnext⟩ | ⟨hempty, hseeds, hnext⟩ |
    ⟨candidate, s', hstarts, hreaches, hsuite, hnext⟩
  · cases hnext
    exact .inr ⟨rfl, s, _, w₁, .unreplayable hopen hempty hseeds, rfl⟩
  · cases hnext
    exact .inr ⟨rfl, s, _, w₁, .unseeded hopen hempty hseeds, rfl⟩
  · cases hnext
    dsimp only
    have harrives : t.engine.collaborators.Reaches w.outside (t.later w₁).outside :=
      .elapse ((t.reaches_later w).trans hreaches)
    by_cases hlate : (t.later w₁).outside.clock.isCancelled t.token = true
    · rw [if_pos hlate, if_pos hlate]
      exact .inr ⟨rfl, _, _, t.later w₁, .late hopen hstarts hsuite hlate harrives, rfl⟩
    · rw [if_neg hlate, if_neg hlate]
      exact .inl ⟨_, rfl, ⟨hopen, ⟨_, hstarts, rfl⟩, harrives, hsuite, rfl⟩, rfl⟩

theorem takes_of_turn? (h : t.turn? s w = some u) :
    t.Takes s w u ∧ (t.round s).run w = (u.next, u.rest) := by
  rcases t.round_cases s w with ⟨u', hturn, htakes, hround⟩ | ⟨hturn, -⟩
  · obtain rfl : u' = u := by simpa [h] using hturn.symm
    exact ⟨htakes, hround⟩
  · simp [h] at hturn

/-! ## What a turn keeps -/

/-- Up to its attempt a turn only adds to the seeds and the queue, and counts itself. -/
theorem Takes.before_eq (h : t.Takes s w u) : ∃ seeds candidates,
    u.before = { s with seeds, candidates, iterations := s.iterations + 1 } := by
  obtain ⟨s', hstarts, hbefore⟩ := h.starts
  rw [hbefore]
  cases hstarts <;> exact ⟨_, _, rfl⟩

theorem Takes.explored (h : t.Takes s w u) : u.before.explored = s.explored := by
  obtain ⟨_, _, hbefore⟩ := h.before_eq
  rw [hbefore]

theorem Takes.accepted (h : t.Takes s w u) : u.before.accepted = s.accepted := by
  obtain ⟨_, _, hbefore⟩ := h.before_eq
  rw [hbefore]

theorem Takes.iterations (h : t.Takes s w u) : u.before.iterations = s.iterations + 1 := by
  obtain ⟨_, _, hbefore⟩ := h.before_eq
  rw [hbefore]

/-- The candidate of a turn is the first in its queue, and the others wait as before. -/
theorem Takes.candidates (h : t.Takes s w u) :
    (∃ waiting, u.before.candidates = u.candidate :: waiting) ∧
      (s.candidates ⊆ u.before.candidates) ∧
      ∀ trace ∈ u.before.candidates, trace ∈ s.candidates ∨ ∃ path, t.pathOf trace = .ok path := by
  obtain ⟨s', hstarts, hbefore⟩ := h.starts
  rw [hbefore]
  cases hstarts with
  | @queued waiting hqueue =>
    exact ⟨⟨waiting, hqueue⟩, List.Subset.refl _, fun trace htrace => .inl htrace⟩
  | seeded hempty hpath =>
    refine ⟨⟨[], rfl⟩, by simp [hempty], fun trace htrace => .inr ?_⟩
    rw [List.mem_singleton.mp htrace]
    exact ⟨_, hpath⟩

theorem Tries.candidates {candidate : Trace} {outcome : Except Failure Attempt}
    (h : t.Tries s candidate w s' outcome) : s'.candidates = s.candidates := by
  cases h <;> rfl

theorem Tries.iterations {candidate : Trace} {outcome : Except Failure Attempt}
    (h : t.Tries s candidate w s' outcome) : s'.iterations = s.iterations := by
  cases h <;> rfl

theorem Tries.accepted_eq {candidate : Trace} {outcome : Except Failure Attempt}
    (h : t.Tries s candidate w s' outcome) : s'.accepted = s.accepted := by
  cases h <;> rfl

theorem Tries.discarded {candidate : Trace} {outcome : Except Failure Attempt}
    (h : t.Tries s candidate w s' outcome) : s'.discarded = s.discarded := by
  cases h <;> rfl

/-- An attempt leaves the books as they are or enters one path, that was not covered. -/
theorem Tries.explored_cases {candidate : Trace} {outcome : Except Failure Attempt}
    (h : t.Tries s candidate w s' outcome) :
    (s'.explored = s.explored ∧ ∀ trace, outcome ≠ .ok (.accepted trace)) ∨
    ∃ mutated, t.flip? s candidate = some mutated ∧ s.explored.isCovered mutated.path = false ∧
      ((s'.explored = s.explored.record mutated.path ∧ ∃ trace, outcome = .ok (.accepted trace)) ∨
        (outcome = .ok .discarded ∧ (s'.explored = s.explored.block mutated.path ∨
          s'.explored = s.explored.recordFailure mutated.path))) := by
  cases h with
  | unreplayable | duplicate | cancelled | ended => exact .inl ⟨rfl, by simp⟩
  | accepted hflip => exact .inr ⟨_, hflip, isCovered_of_flip? hflip, .inl ⟨rfl, _, rfl⟩⟩
  | infeasible hflip => exact .inr ⟨_, hflip, isCovered_of_flip? hflip, .inr ⟨rfl, .inl rfl⟩⟩
  | failed hflip => exact .inr ⟨_, hflip, isCovered_of_flip? hflip, .inr ⟨rfl, .inr rfl⟩⟩

/-- What comes of an attempt changes the queue and the counts only. -/
theorem after_eq_going {outcome : Except Failure Attempt} (h : s.after outcome = .going s') :
    s'.explored = s.explored ∧ s'.seeds = s.seeds ∧ s'.iterations = s.iterations := by
  unfold Search.after at h
  split at h
  · cases h; exact ⟨rfl, rfl, rfl⟩
  · cases h; exact ⟨rfl, rfl, rfl⟩
  · cases h; exact ⟨rfl, rfl, rfl⟩
  · cases h
  · split at h
    · cases h; exact ⟨rfl, rfl, rfl⟩
    · cases h

/-- Attempts that the search goes on from are counted as accepted or as discarded. -/
theorem counts_of_going {outcome : Except Failure Attempt} (h : s.after outcome = .going s') :
    (∃ trace, outcome = .ok (.accepted trace)) ∧ s'.accepted = s.accepted + 1 ∧
        s'.discarded = s.discarded ∧ s'.tests = s.tests ∨
      (∀ trace, outcome ≠ .ok (.accepted trace)) ∧ s'.accepted = s.accepted ∧
        s'.discarded = s.discarded + 1 ∧ s'.tests = s.tests := by
  unfold Search.after at h
  split at h
  · cases h; exact .inl ⟨⟨_, rfl⟩, rfl, rfl, rfl⟩
  · cases h; exact .inr ⟨by simp, rfl, rfl, rfl⟩
  · cases h; exact .inr ⟨by simp, rfl, rfl, rfl⟩
  · cases h
  · split at h
    · cases h; exact .inr ⟨by simp, rfl, rfl, rfl⟩
    · cases h

/-- A failure that reaches beyond the attempt ends the search. -/
theorem after_error_of_severity {failure : Failure} (h : failure.severity ≠ .attempt) :
    s.after (.error failure) ≠ .going s' := by
  intro hnext
  cases failure <;> simp_all [Search.after, Failure.severity]

/-- The queue grows by an accepted trace, and loses its head when that is a duplicate or
cannot be replayed. -/
theorem candidates_of_going {outcome : Except Failure Attempt} (h : s.after outcome = .going s') :
    (∃ trace, outcome = .ok (.accepted trace) ∧ s'.candidates = s.candidates ++ [trace]) ∨
    (outcome = .ok .duplicate ∧ s'.candidates = s.candidates.tail) ∨
    (outcome = .ok .discarded ∧ s'.candidates = s.candidates) ∨
    ((∃ failure, outcome = .error failure) ∧ s'.candidates = s.candidates.tail) := by
  unfold Search.after at h
  split at h
  · cases h; exact .inl ⟨_, rfl, rfl⟩
  · cases h; exact .inr (.inl ⟨rfl, rfl⟩)
  · cases h; exact .inr (.inr (.inl ⟨rfl, rfl⟩))
  · cases h
  · split at h
    · cases h; exact .inr (.inr (.inr ⟨⟨_, rfl⟩, rfl⟩))
    · cases h

/-- What is covered stays covered. -/
theorem Tries.isCovered {candidate : Trace} {outcome : Except Failure Attempt}
    {path : SymbolicState} (h : t.Tries s candidate w s' outcome)
    (hcovered : s.explored.isCovered path = true) : s'.explored.isCovered path = true := by
  cases h with
  | unreplayable | duplicate | cancelled | ended => exact hcovered
  | accepted => exact ExploredPaths.isCovered_record hcovered
  | infeasible => exact ExploredPaths.isCovered_block hcovered
  | failed => exact ExploredPaths.isCovered_recordFailure hcovered

/-- How a failed attempt ends its search. -/
inductive EndsWith : Except Failure Attempt → Except Failure Outcome → Prop
  | cancelled : EndsWith (.error .cancelled) (.ok .timedOut)
  | failed {failure : Failure} (hseverity : failure.severity ≠ .attempt) :
    EndsWith (.error failure) (.error failure)

theorem EndsWith.failure {outcome : Except Failure Attempt} (h : EndsWith outcome result) :
    ∃ failure, outcome = .error failure := by
  cases h <;> exact ⟨_, rfl⟩

theorem EndsWith.timedOut {outcome : Except Failure Attempt} {found : Outcome}
    (h : EndsWith outcome (.ok found)) : found = .timedOut := by
  cases h
  rfl

/-- Only a failure ends a search after an attempt. -/
theorem after_eq_ended {outcome : Except Failure Attempt}
    (h : s.after outcome = .ended s' result) : s' = s ∧ EndsWith outcome result := by
  unfold Search.after at h
  split at h
  · cases h
  · cases h
  · cases h
  · cases h; exact ⟨rfl, .cancelled⟩
  · split at h
    · cases h
    · next hseverity => cases h; exact ⟨rfl, .failed hseverity⟩

/-- A turn that ends the search leaves the books as it found them. -/
theorem Takes.explored_of_ended (h : t.Takes s w u) (hnext : u.next = .ended s' result) :
    s'.explored = s.explored ∧ s'.accepted = s.accepted := by
  obtain ⟨rfl, hends⟩ := after_eq_ended hnext
  obtain ⟨failure, houtcome⟩ := hends.failure
  refine ⟨?_, by rw [h.tries.accepted_eq, h.accepted]⟩
  rcases h.tries.explored_cases with ⟨heq, -⟩ | ⟨_, -, -, ⟨-, _, hok⟩ | ⟨hok, -⟩⟩
  · rw [heq, h.explored]
  · simp [houtcome] at hok
  · simp [houtcome] at hok

/-! ## Runs -/

/-- The searches at the head of a round, each with the turns that led there. -/
inductive Reached (t : Task σ) (w₀ : World σ) : List (Turn σ) → Search → World σ → Prop
  | start : Reached t w₀ [] t.start w₀
  | turn {past : List (Turn σ)} {s s' : Search} {w : World σ} {u : Turn σ}
    (h : Reached t w₀ past s w) (hturn : t.turn? s w = some u) (hnext : u.next = .going s') :
    Reached t w₀ (past ++ [u]) s' u.rest

/-- From the head of a round a run goes on as one that starts there. -/
theorem Reached.run_eq (h : t.Reached w₀ past s w) (rounds : Nat) :
    (t.run (past.length + rounds) t.start).run w₀ = (t.run rounds s).run w := by
  induction h generalizing rounds with
  | start => simp
  | @turn past s s' w u h hturn hnext ih =>
    rw [List.length_append, List.length_singleton, Nat.add_assoc, ih, Nat.add_comm, run,
      Act.run_bind, (takes_of_turn? hturn).2, hnext]

/-- A run ends with the first round that ends its search. -/
theorem Reached.run_of_ended {rounds : Nat} (h : t.Reached w₀ past s w)
    (hlength : past.length < rounds) (hround : (t.round s).run w = (.ended s' result, w')) :
    (t.run rounds t.start).run w₀ = ((s', result), w') := by
  obtain ⟨more, rfl⟩ := Nat.exists_eq_add_of_lt hlength
  rw [Nat.add_assoc, h.run_eq, run, Act.run_bind, hround]
  rfl

/-- Where a run of so many rounds ends: at the head of a round when the rounds are used up, in
a round without a turn, or in one whose turn ends the search. -/
inductive Ends (t : Task σ) (w₀ : World σ) (rounds : Nat) :
    List (Turn σ) → Search → Except Failure Outcome → World σ → Prop
  | unfinished {past : List (Turn σ)} {s : Search} {w : World σ} (h : Reached t w₀ past s w)
    (hlength : past.length = rounds) : Ends t w₀ rounds past s (.ok .unfinished) w
  | halted {past : List (Turn σ)} {s s' : Search} {w w' : World σ}
    {result : Except Failure Outcome} (h : Reached t w₀ past s w) (hlength : past.length < rounds)
    (hturn : t.turn? s w = none) (hhalts : t.Halts s w s' result w') :
    Ends t w₀ rounds past s' result w'
  | broken {past : List (Turn σ)} {s s' : Search} {w : World σ} {u : Turn σ}
    {result : Except Failure Outcome} (h : Reached t w₀ past s w) (hlength : past.length < rounds)
    (hturn : t.turn? s w = some u) (hnext : u.next = .ended s' result) :
    Ends t w₀ rounds (past ++ [u]) s' result u.rest

theorem Reached.run_ends (h : t.Reached w₀ past s w) (rounds : Nat) :
    t.Ends w₀ (past.length + rounds) (past ++ t.turns rounds s w)
      ((t.run rounds s).run w).1.1 ((t.run rounds s).run w).1.2 ((t.run rounds s).run w).2 := by
  -- On the rounds still granted, at whatever head they begin.
  induction rounds generalizing past s w with
  | zero =>
    rw [turns, List.append_nil]
    exact .unfinished h rfl
  | succ rounds ih =>
    rw [run, Act.run_bind, turns]
    rcases t.round_cases s w with ⟨u, hturn, -, hround⟩ | ⟨hturn, s', result, w', hhalts, hround⟩
    · rw [hround, hturn]
      dsimp only
      cases hnext : u.next with
      | going s' =>
        have hrest := ih (h.turn hturn hnext)
        rw [List.length_append, List.length_singleton, List.append_assoc, Nat.add_assoc,
          Nat.add_comm 1] at hrest
        exact hrest
      | ended s' result => exact .broken h (by omega) hturn hnext
    · rw [hround, hturn]
      dsimp only
      rw [List.append_nil]
      exact .halted h (by omega) hturn hhalts

theorem Reached.reaches (h : t.Reached w₀ past s w) :
    t.engine.collaborators.Reaches w₀.outside w.outside := by
  induction h with
  | start => exact .refl
  | turn h hturn hnext ih =>
    have htakes := (takes_of_turn? hturn).1
    exact ih.trans (htakes.arrives.trans htakes.leaves)

theorem Ends.reaches {rounds : Nat} {turns : List (Turn σ)}
    (h : t.Ends w₀ rounds turns s result w) :
    t.engine.collaborators.Reaches w₀.outside w.outside := by
  cases h with
  | unfinished h => exact h.reaches
  | halted h _ _ hhalts => exact h.reaches.trans hhalts.reaches
  | broken h _ hturn =>
    have htakes := (takes_of_turn? hturn).1
    exact h.reaches.trans (htakes.arrives.trans htakes.leaves)

/-- Whatever number of rounds is granted, a run ends in one of these ways. -/
theorem run_ends (t : Task σ) (w₀ : World σ) (rounds : Nat) :
    t.Ends w₀ rounds (t.turns rounds t.start w₀) ((t.run rounds t.start).run w₀).1.1
      ((t.run rounds t.start).run w₀).1.2 ((t.run rounds t.start).run w₀).2 := by
  simpa using Reached.start.run_ends rounds

/-- Where a run of so many rounds ends, as far as the search can tell. -/
inductive Arrives (t : Task σ) (w₀ : World σ) (rounds : Nat) :
    List (Turn σ) → Search → Except Failure Outcome → Prop
  | unfinished {past : List (Turn σ)} {s : Search} {w : World σ} (h : Reached t w₀ past s w)
    (hlength : past.length = rounds) : Arrives t w₀ rounds past s (.ok .unfinished)
  | stopped {past : List (Turn σ)} {s s' : Search} {w : World σ}
    {result : Except Failure Outcome} (h : Reached t w₀ past s w) (hturn : t.turn? s w = none)
    (hstops : Stops s s' result) : Arrives t w₀ rounds past s' result
  | broken {past : List (Turn σ)} {s s' : Search} {w : World σ} {u : Turn σ}
    {result : Except Failure Outcome} (h : Reached t w₀ past s w) (hturn : t.turn? s w = some u)
    (hnext : u.next = .ended s' result) : Arrives t w₀ rounds (past ++ [u]) s' result

theorem Ends.arrives {rounds : Nat} {turns : List (Turn σ)}
    (h : t.Ends w₀ rounds turns s result w) : t.Arrives w₀ rounds turns s result := by
  cases h with
  | unfinished h hlength => exact .unfinished h hlength
  | halted h _ hturn hhalts => exact .stopped h hturn hhalts.stops
  | broken h _ hturn hnext => exact .broken h hturn hnext

theorem run_arrives (t : Task σ) (w₀ : World σ) (rounds : Nat) :
    t.Arrives w₀ rounds (t.turns rounds t.start w₀) ((t.run rounds t.start).run w₀).1.1
      ((t.run rounds t.start).run w₀).1.2 := (t.run_ends w₀ rounds).arrives

end Task

/-! ## A gate

A method of two truth values that looks at the second only when the first is false. Its last
block is never reached, so a search goes on until it has no candidate.
-/

namespace Gate

def pass : Method := ⟨"Gate", "pass", "(ZZ)I"⟩

def info : MethodInfo where
  method := pass
  arguments := [.bool, .bool]
  result := .int
  isStatic := true
  isAbstract := false
  isNative := false

def block (id : Nat) (terminator : Terminator) : Block := ⟨⟨id⟩, [], [], terminator⟩

/-- Go on in one block or another by an argument. -/
def check (index whenTrue whenFalse : Nat) : Terminator :=
  .branch (.argument .bool index) ⟨whenTrue⟩ ⟨whenFalse⟩

def returning (i : Int32) : Terminator := .return (some (.int i))

def program : Program :=
  Program.Table.toProgram { methods := [{
    info
    blocks := [block 0 (check 0 1 2), block 1 (returning 1), block 2 (check 1 3 4),
      block 3 (returning 2), block 4 (returning 3), block 5 (returning 4)]
    body := .absent }] }

/-- The run on two arguments. -/
def trace (first second : Bool) : Trace :=
  if first then [.entered pass, .passed pass ⟨0⟩, .returned pass ⟨1⟩]
  else [.entered pass, .passed pass ⟨0⟩, .passed pass ⟨2⟩,
    .returned pass ⟨if second then 3 else 4⟩]

def model (first second : Bool) : Model :=
  HeapModel.toModel { values :=
    [(.argument .bool 0, .bool first), (.argument .bool 1, .bool second)] }

/-- Whether two arguments satisfy a branch condition. -/
def satisfies (first second : Bool) (p : Predicate) : Bool :=
  match p.assertion with
  | .equal (.leaf _ (.argument index)) (.leaf _ (.literal (.bool value))) =>
    [first, second][index]? == some value
  | _ => false

/-- The first arguments that satisfy a query, if any do. -/
def solve (query : Query) : Answer :=
  let tried := [(false, true), (false, false), (true, true), (true, false)]
  match tried.find? fun i => query.condition.parts.all (satisfies i.1 i.2) with
  | some i => .sat (model i.1 i.2)
  | none => .unsat

def isTrue (arena : Arena) (parameters : Parameters Handle) (index : Nat) : Bool :=
  (parameters.arguments[index]?).any fun h => (arena.node h).literal? == some (.bool true)

/-- A random run takes the first branch; a run of given arguments depends on them alone. -/
def collaborators : Collaborators Coverage where
  runRandom _ := pure (.ok (trace true true))
  runConcrete _ arena parameters :=
    pure (.ok (trace (isTrue arena parameters 0) (isTrue arena parameters 1)))
  solve query := pure (solve query)
  isCovered method coverage := coverage.isCovered program method
  record method trace coverage := coverage.record method trace

def task : Task Coverage where
  engine := { program, settings := {}, collaborators, token := ⟨0, none⟩ }
  info
  token := ⟨0, none⟩

def world : World Coverage where
  outside := { state := {} }

end Gate
end Concolic
