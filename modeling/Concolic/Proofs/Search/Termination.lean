import Concolic.Proofs.Frontier
import Concolic.Proofs.Search.Bookkeeping

/-!
# Termination

When every run of the method takes one of finitely many paths, a search ends, whatever the
solver and the runs answer. What can still happen is counted by a potential: a failure still
allowed and a confirmation for each path next to a known one, a seed for each path, and the
candidates that wait. Every round that goes on lowers it.

## Main definitions

* `Task.potential` — what can still happen, counted over the known paths.
* `Task.ReturnsInto` — every trace that can be returned takes a known path.
* `Task.tries`, `Task.submitted?` — the attempts that explore a path, and those of them that
  ask the solver about it.

## Main statements

* `Takes.potential_lt` — a turn that goes on lowers the potential.
* `Arrives.tries_le` — no path is explored more often than failures block it.
* `run_terminates` — a run granted more rounds than its bound ends.
-/

namespace Concolic

open ExploredPaths (has)

variable {σ : Type}

/-! ## The potential -/

namespace Task

variable {t : Task σ} {s s' : Search} {w w₀ : World σ} {u : Turn σ} {past : List (Turn σ)}
  {known : List SymbolicState} {path : SymbolicState} {rounds : Nat} {turns : List (Turn σ)}
  {result : Except Failure Outcome}

/-- Whether a path may still come from a seed. -/
def seedRoom (seeds : List SymbolicState) (path : SymbolicState) : Nat :=
  if has seeds path then 0 else 1

/-- What can still happen in a search whose paths are among the known ones: failures and
confirmations next to them, seeds, and the candidates that wait. -/
def potential (known : List SymbolicState) (s : Search) : Nat :=
  ((known.flatMap frontier).map s.explored.room).sum + (known.map (seedRoom s.seeds)).sum +
    s.candidates.length

theorem length_frontiers_le {longest : Nat}
    (hlongest : ∀ path ∈ known, (path.parts.filter Clause.isPath).length ≤ longest) :
    (known.flatMap frontier).length ≤ known.length * longest := by
  induction known with
  | nil => simp
  | cons path known ih =>
    rw [List.forall_mem_cons] at hlongest
    have hrest := ih hlongest.2
    rw [List.flatMap_cons, List.length_append, length_frontier, List.length_cons, Nat.succ_mul]
    omega

/-- Before the first round there is room for every failure and one confirmation of each path
next to a known one, and for one seed of each known path. -/
theorem potential_start (t : Task σ) (known : List SymbolicState) :
    potential known t.start = (known.flatMap frontier).length *
      (t.engine.settings.search.maxFrontierRetries + 1) + known.length := by
  have hrooms : ∀ paths : List SymbolicState, (paths.map t.start.explored.room).sum =
      paths.length * (t.engine.settings.search.maxFrontierRetries + 1) := by
    intro paths
    induction paths with
    | nil => simp
    | cons path paths ih =>
      rw [List.map_cons, List.sum_cons, ih, List.length_cons, Nat.succ_mul, Nat.add_comm]
      rfl
  have hseeds : ∀ paths : List SymbolicState,
      (paths.map (seedRoom t.start.seeds)).sum = paths.length := by
    intro paths
    induction paths with
    | nil => rfl
    | cons path paths ih =>
      rw [List.map_cons, List.sum_cons, ih, List.length_cons, Nat.add_comm]
      rfl
  rw [potential, hrooms, hseeds]
  rfl

/-- Taking a seed uses up at least what its place in the queue adds. -/
theorem Starts.potential_le {candidate : Trace} (h : t.Starts s w candidate s')
    (hknown : ∀ path, t.pathOf candidate = .ok path → has known path = true) :
    potential known s' ≤ potential known s := by
  cases h with
  | queued => exact Nat.le_refl _
  | @seeded path hempty hpath _ hseeds =>
    -- The known path that the seed takes had room for a seed, and has none now.
    obtain ⟨u, hu, hsame⟩ := ExploredPaths.has_iff.mp (hknown path hpath)
    have hgrown : ∀ v, seedRoom (s.seeds ++ [path]) v ≤ seedRoom s.seeds v := by
      intro v
      rw [seedRoom, seedRoom, ExploredPaths.has_append]
      by_cases hv : has s.seeds v = true <;> simp [hv]
      split <;> omega
    have hdown : seedRoom (s.seeds ++ [path]) u + 1 ≤ seedRoom s.seeds u := by
      rw [seedRoom, seedRoom, ExploredPaths.has_append, ExploredPaths.has_singleton,
        BEq.symm hsame, ExploredPaths.has_congr hsame, hseeds]
      simp
    have hsum := ExploredPaths.sum_map_add_le (fun v _ => hgrown v) hu hdown
    simp only [potential, hempty, List.length_singleton, List.length_nil]
    omega

/-- An attempt that explores a path lowers the room of some path next to a known one. -/
theorem takes_of_flip? {explored' : ExploredPaths} {amount : Nat} {candidate : Trace}
    {mutated : SymbolicState} (hflip : t.flip? s candidate = some mutated)
    (hknown : ∀ path, t.pathOf candidate = .ok path → has known path = true)
    (htakes : ExploredPaths.Takes s.explored explored' mutated.path amount) :
    ((known.flatMap frontier).map explored'.room).sum + amount ≤
      ((known.flatMap frontier).map s.explored.room).sum := by
  obtain ⟨path, before, p, after, hpath, hparts, hmutated, -⟩ := flip?_eq_some hflip
  obtain ⟨u, hu, hsame⟩ := ExploredPaths.has_iff.mp (hknown path hpath)
  obtain ⟨hlinear, hbranches⟩ := pathOf_eq_ok hpath
  obtain ⟨f, hf, hnext⟩ := exists_mem_frontier hsame hlinear hbranches hparts
  refine htakes.sum_room ⟨f, List.mem_flatMap.mpr ⟨u, hu, hf⟩, ?_⟩
  rw [hmutated]
  exact hnext

/-- An attempt on the first candidate that goes on lowers the potential: a duplicate by the
candidate, an accepted trace by more than its own place, a failure by itself. -/
theorem Tries.potential_lt {candidate : Trace} {waiting : List Trace} {after : Search}
    {outcome : Except Failure Attempt} (h : t.Tries s candidate w after outcome)
    (hnext : after.after outcome = .going s') (hqueue : s.candidates = candidate :: waiting)
    (hkept : s.explored.IsKept) (hr : 1 ≤ s.explored.maxRetries)
    (hknown : ∀ path, t.pathOf candidate = .ok path → has known path = true) :
    potential known s' + 1 ≤ potential known s := by
  obtain ⟨hexplored, hseeds, -⟩ := after_eq_going hnext
  have hcandidates := candidates_of_going hnext
  rw [h.candidates, hqueue] at hcandidates
  rw [potential, potential, hexplored, hseeds, hqueue, List.length_cons]
  cases h with
  | unreplayable =>
    have hs' : s'.candidates = waiting := by simpa using hcandidates
    rw [hs']
    omega
  | duplicate =>
    have hs' : s'.candidates = waiting := by simpa using hcandidates
    rw [hs']
    omega
  | @accepted mutated _ trace hflip =>
    have hs' : s'.candidates = candidate :: waiting ++ [trace] := by simpa using hcandidates
    have hnew := ExploredPaths.contains_of_not_isCovered (isCovered_of_flip? hflip)
    have hroom := takes_of_flip? hflip hknown (ExploredPaths.takes_record hkept hr hnew)
    -- The accepted trace joins the queue, which one of the two units of room taken pays for.
    rw [hs', List.length_append, List.length_cons, List.length_singleton]
    dsimp only
    omega
  | infeasible hflip =>
    have hs' : s'.candidates = candidate :: waiting := by simpa using hcandidates
    have hnew := ExploredPaths.contains_of_not_isCovered (isCovered_of_flip? hflip)
    have hroom := takes_of_flip? hflip hknown (ExploredPaths.takes_block hkept hr hnew)
    rw [hs', List.length_cons]
    dsimp only
    omega
  | failed hflip =>
    have hs' : s'.candidates = candidate :: waiting := by simpa using hcandidates
    have hnew := ExploredPaths.contains_of_not_isCovered (isCovered_of_flip? hflip)
    have hroom := takes_of_flip? hflip hknown (ExploredPaths.takes_recordFailure hkept hr hnew)
    rw [hs', List.length_cons]
    dsimp only
    omega
  | cancelled => simp [Search.after] at hnext
  | ended _ hseverity => exact absurd hnext (after_error_of_severity hseverity)

theorem Takes.potential_le (h : t.Takes s w u)
    (hknown : ∀ path, t.pathOf u.candidate = .ok path → has known path = true) :
    potential known u.before ≤ potential known s := by
  obtain ⟨s', hstarts, hbefore⟩ := h.starts
  rw [hbefore]
  exact hstarts.potential_le hknown

/-- A turn that goes on lowers the potential. -/
theorem Takes.potential_lt (h : t.Takes s w u) (hnext : u.next = .going s')
    (hkept : s.explored.IsKept) (hr : 1 ≤ s.explored.maxRetries)
    (hknown : ∀ path, t.pathOf u.candidate = .ok path → has known path = true) :
    potential known s' + 1 ≤ potential known s := by
  obtain ⟨⟨waiting, hqueue⟩, -, -⟩ := h.candidates
  rw [← h.explored] at hkept hr
  exact Nat.le_trans (h.tries.potential_lt hnext hqueue hkept hr hknown) (h.potential_le hknown)

/-- While there is a candidate, something can still happen. -/
theorem Takes.potential_pos (h : t.Takes s w u)
    (hknown : ∀ path, t.pathOf u.candidate = .ok path → has known path = true) :
    1 ≤ potential known s := by
  obtain ⟨⟨waiting, hqueue⟩, -, -⟩ := h.candidates
  refine Nat.le_trans ?_ (h.potential_le hknown)
  rw [potential, hqueue, List.length_cons]
  omega

/-! ## Where candidates come from -/

theorem Takes.accepted_returned {trace : Trace} (h : t.Takes s w u)
    (haccepted : u.accepted? = some trace) :
    t.engine.collaborators.Returns t.method u.world.outside trace := by
  have htries := h.tries
  rw [Turn.accepted?_eq_some.mp haccepted] at htries
  generalize u.after = after at htries
  cases htries with
  | accepted _ _ _ hreturned => exact hreturned

/-- Every candidate of a turn was returned by a run, if those before it were. -/
theorem Takes.returns (h : t.Takes s w u)
    (hreturned : ∀ trace ∈ s.candidates,
      t.engine.collaborators.Returns t.method w₀.outside trace)
    (hreaches : t.engine.collaborators.Reaches w₀.outside w.outside) :
    ∀ trace ∈ u.queue, t.engine.collaborators.Returns t.method w₀.outside trace := by
  have hbefore : ∀ trace ∈ u.before.candidates,
      t.engine.collaborators.Returns t.method w₀.outside trace := by
    obtain ⟨s', hstarts, heq⟩ := h.starts
    rw [heq]
    cases hstarts with
    | queued => exact hreturned
    | seeded _ _ _ _ hseed =>
      intro trace htrace
      rw [List.mem_singleton.mp htrace]
      exact hseed.of_reaches (.elapse hreaches)
  intro trace htrace
  rcases List.mem_append.mp htrace with hold | hnew
  · exact hbefore trace hold
  · have haccepted := h.accepted_returned (Option.mem_toList.mp hnew)
    exact haccepted.of_reaches (hreaches.trans h.arrives)

theorem candidates_subset_queue (hnext : u.next = .going s')
    (hkept : u.after.candidates = u.before.candidates) : s'.candidates ⊆ u.queue := by
  have hcases := candidates_of_going hnext
  rw [hkept] at hcases
  intro trace htrace
  rw [Turn.queue, List.mem_append]
  rcases hcases with ⟨accepted, houtcome, hs'⟩ | ⟨-, hs'⟩ | ⟨-, hs'⟩ | ⟨-, hs'⟩
  · rw [hs'] at htrace
    simpa [Turn.accepted?, houtcome] using htrace
  · exact .inl (List.mem_of_mem_tail (hs' ▸ htrace))
  · exact .inl (hs' ▸ htrace)
  · exact .inl (List.mem_of_mem_tail (hs' ▸ htrace))

theorem Reached.returned (h : t.Reached w₀ past s w) : ∀ trace ∈ s.candidates,
    t.engine.collaborators.Returns t.method w₀.outside trace := by
  induction h with
  | start => exact fun trace htrace => absurd htrace List.not_mem_nil
  | turn h hturn hnext ih =>
    have htakes := (takes_of_turn? hturn).1
    intro trace htrace
    exact htakes.returns ih h.reaches trace
      (candidates_subset_queue hnext htakes.tries.candidates htrace)

theorem Reached.candidate_returned (h : t.Reached w₀ past s w) (hturn : t.turn? s w = some u) :
    t.engine.collaborators.Returns t.method w₀.outside u.candidate := by
  have htakes := (takes_of_turn? hturn).1
  obtain ⟨⟨waiting, hqueue⟩, -, -⟩ := htakes.candidates
  refine htakes.returns h.returned h.reaches u.candidate (List.mem_append_left _ ?_)
  rw [hqueue]
  exact List.mem_cons_self ..

/-! ## Counting rounds -/

/-- Every returned trace that can be replayed takes one of the known paths. -/
def ReturnsInto (t : Task σ) (o : Outside σ) (known : List SymbolicState) : Prop :=
  ∀ trace path, t.engine.collaborators.Returns t.method o trace → t.pathOf trace = .ok path →
    has known path = true

theorem Reached.potential (h : t.Reached w₀ past s w)
    (hr : 1 ≤ t.engine.settings.search.maxFrontierRetries)
    (hknown : t.ReturnsInto w₀.outside known) :
    potential known s + past.length ≤ potential known t.start := by
  induction h with
  | start => simp
  | turn h hturn hnext ih =>
    have hbooks := h.books
    have hlt := (takes_of_turn? hturn).1.potential_lt hnext hbooks.kept
      (by rw [hbooks.retries]; exact hr)
      fun path hpath => hknown _ path (h.candidate_returned hturn) hpath
    rw [List.length_append, List.length_singleton]
    omega

theorem Reached.iterations (h : t.Reached w₀ past s w) : s.iterations = past.length := by
  induction h with
  | start => rfl
  | turn h hturn hnext ih =>
    have htakes := (takes_of_turn? hturn).1
    rw [(after_eq_going hnext).2.2, htakes.tries.iterations, htakes.iterations, ih,
      List.length_append, List.length_singleton]

/-! ## Counting submissions -/

/-- The path that a turn explores, if it explores one. -/
def target? (t : Task σ) (u : Turn σ) : Option SymbolicState :=
  (t.flip? u.before u.candidate).map State.path

/-- The path whose query a turn submits to the solver: the one it explores, unless the query
cannot be prepared. -/
def submitted? (t : Task σ) (u : Turn σ) : Option SymbolicState := do
  let mutated ← t.flip? u.before u.candidate
  let _ ← ((Query.prepare t.engine.program t.engine.policy t.engine.settings mutated).run
    u.world.names).1.toOption
  return mutated.path

/-- How many of the turns explore a path. -/
def tries (t : Task σ) (turns : List (Turn σ)) (path : SymbolicState) : Nat :=
  turns.countP fun u => (t.target? u).any (· == path)

theorem tries_append (turns : List (Turn σ)) :
    t.tries (turns ++ [u]) path =
      t.tries turns path + if (t.target? u).any (· == path) then 1 else 0 := by
  rw [tries, tries, List.countP_append, List.countP_singleton]

/-- A path is explored no more often than it has failed, and once more when it is known. -/
structure Counted (t : Task σ) (past : List (Turn σ)) (s : Search) : Prop where
  unknown : ∀ path, s.explored.contains path = false →
    t.tries past path ≤ s.explored.failureCount path
  bounded : ∀ path, t.tries past path ≤ t.engine.settings.search.maxFrontierRetries

/-- Nothing changes in a turn for the paths that it does not explore. -/
theorem Tries.explored_of_ne {candidate : Trace} {after : Search}
    {outcome : Except Failure Attempt} (h : t.Tries s candidate w after outcome)
    (hne : ((t.flip? s candidate).map State.path).any (· == path) = false) :
    after.explored.contains path = s.explored.contains path ∧
      after.explored.failureCount path = s.explored.failureCount path := by
  cases h with
  | unreplayable | duplicate | cancelled | ended => exact ⟨rfl, rfl⟩
  | @accepted mutated _ _ hflip =>
    have hother : (mutated.path == path) = false := by simpa [hflip] using hne
    exact ⟨by rw [ExploredPaths.contains_record, hother, Bool.or_false],
      ExploredPaths.failureCount_record_of_ne hother⟩
  | @infeasible mutated hflip =>
    have hother : (mutated.path == path) = false := by simpa [hflip] using hne
    exact ⟨by rw [ExploredPaths.contains_block, hother, Bool.or_false],
      ExploredPaths.failureCount_block_of_ne hother⟩
  | @failed mutated hflip =>
    have hother : (mutated.path == path) = false := by simpa [hflip] using hne
    exact ⟨ExploredPaths.contains_recordFailure_of_ne hother,
      ExploredPaths.failureCount_recordFailure_of_ne hother⟩

/-- An attempt that explores a path and goes on enters it as known or counts a failure. -/
theorem Tries.explored_of_eq {candidate : Trace} {after : Search}
    {outcome : Except Failure Attempt} {mutated : SymbolicState}
    (h : t.Tries s candidate w after outcome) (hnext : after.after outcome = .going s')
    (hflip : t.flip? s candidate = some mutated) (hr : 1 ≤ s.explored.maxRetries) :
    after.explored.contains mutated.path = true ∨
      after.explored.failureCount mutated.path = s.explored.failureCount mutated.path + 1 := by
  cases h with
  | unreplayable hbuild => simp [flip?, hbuild] at hflip
  | duplicate _ hnone => simp [hnone] at hflip
  | accepted hsome =>
    obtain rfl := Option.some.inj (hsome.symm.trans hflip)
    exact .inl (by rw [ExploredPaths.contains_record, BEq.rfl, Bool.or_true])
  | infeasible hsome =>
    obtain rfl := Option.some.inj (hsome.symm.trans hflip)
    exact .inl (by rw [ExploredPaths.contains_block, BEq.rfl, Bool.or_true])
  | @failed target hsome =>
    obtain rfl := Option.some.inj (hsome.symm.trans hflip)
    rcases ExploredPaths.recordFailure_cases s.explored target.path with
      ⟨hzero, -⟩ | ⟨-, -, heq⟩ | ⟨hlt, -⟩
    · omega
    · left
      rw [heq, ExploredPaths.contains_block, BEq.rfl, Bool.or_true]
    · exact .inr (ExploredPaths.failureCount_recordFailure_self hlt)
  | cancelled => simp [Search.after] at hnext
  | ended _ hseverity => exact absurd hnext (after_error_of_severity hseverity)

/-- Exploring a path once more stays within the bound, since it was not covered and its
failures are below the number that blocks. -/
theorem Counted.bounded_append (h : t.Counted past s) (htakes : t.Takes s w u)
    (hbooks : t.Books (past.flatMap Turn.inserted) s)
    (hr : 1 ≤ t.engine.settings.search.maxFrontierRetries) (path : SymbolicState) :
    t.tries (past ++ [u]) path ≤ t.engine.settings.search.maxFrontierRetries := by
  rw [tries_append]
  by_cases htarget : (t.target? u).any (· == path) = true
  · obtain ⟨target, hsome, hsame⟩ := (Option.any_eq_true ..).mp htarget
    obtain ⟨mutated, hflip, rfl⟩ := Option.map_eq_some_iff.mp hsome
    have hfree := isCovered_of_flip? hflip
    rw [htakes.explored] at hfree
    have hnew := ExploredPaths.contains_of_not_isCovered hfree
    rw [ExploredPaths.contains_congr hsame] at hnew
    have hle := h.unknown path hnew
    have hlt := hbooks.kept.failureCount_lt (s := path) (by rw [hbooks.retries]; exact hr)
    rw [hbooks.retries] at hlt
    rw [if_pos htarget]
    omega
  · rw [if_neg htarget]
    exact h.bounded path

theorem Counted.turn (h : t.Counted past s) (htakes : t.Takes s w u)
    (hnext : u.next = .going s') (hbooks : t.Books (past.flatMap Turn.inserted) s)
    (hr : 1 ≤ t.engine.settings.search.maxFrontierRetries) : t.Counted (past ++ [u]) s' := by
  refine ⟨fun path hpath => ?_, h.bounded_append htakes hbooks hr⟩
  have hnext : u.after.after u.outcome = .going s' := hnext
  rw [(after_eq_going hnext).1] at hpath ⊢
  rw [tries_append]
  by_cases htarget : (t.target? u).any (· == path) = true
  · rw [if_pos htarget]
    obtain ⟨target, hsome, hsame⟩ := (Option.any_eq_true ..).mp htarget
    obtain ⟨mutated, hflip, rfl⟩ := Option.map_eq_some_iff.mp hsome
    have hfree := isCovered_of_flip? hflip
    have hnew := ExploredPaths.contains_of_not_isCovered hfree
    have hretries : 1 ≤ u.before.explored.maxRetries := by
      rw [htakes.explored, hbooks.retries]
      exact hr
    rw [← ExploredPaths.contains_congr hsame] at hpath
    rcases htakes.tries.explored_of_eq hnext hflip hretries with hknown | hcount
    · rw [hknown] at hpath
      exact absurd hpath (by simp)
    · rw [← ExploredPaths.failureCount_congr hsame, hcount, htakes.explored,
        ExploredPaths.failureCount_congr hsame]
      rw [ExploredPaths.contains_congr hsame, htakes.explored] at hnew
      have hle := h.unknown path hnew
      omega
  · rw [if_neg htarget, Nat.add_zero]
    obtain ⟨hcontains, hcount⟩ := htakes.tries.explored_of_ne (by simpa [target?] using htarget)
    rw [hcontains, htakes.explored] at hpath
    rw [hcount, htakes.explored]
    exact h.unknown path hpath

theorem Reached.counted (h : t.Reached w₀ past s w)
    (hr : 1 ≤ t.engine.settings.search.maxFrontierRetries) : t.Counted past s := by
  induction h with
  | start => exact ⟨fun path _ => Nat.zero_le _, fun path => Nat.zero_le _⟩
  | turn h hturn hnext ih => exact ih.turn (takes_of_turn? hturn).1 hnext h.books hr

theorem submissions_le_tries (turns : List (Turn σ)) :
    (turns.countP fun u => (t.submitted? u).any (· == path)) ≤ t.tries turns path := by
  refine List.countP_mono_left fun u _ hu => ?_
  obtain ⟨target, hsome, hsame⟩ := (Option.any_eq_true ..).mp hu
  obtain ⟨mutated, hflip, hrest⟩ := Option.bind_eq_some_iff.mp hsome
  obtain ⟨_, _, htarget⟩ := Option.bind_eq_some_iff.mp hrest
  obtain rfl := Option.some.inj htarget
  simpa [target?, hflip] using hsame

/-- No path is explored more often than failures block it. -/
theorem Arrives.tries_le (harrives : t.Arrives w₀ rounds turns s result)
    (hr : 1 ≤ t.engine.settings.search.maxFrontierRetries) (path : SymbolicState) :
    t.tries turns path ≤ t.engine.settings.search.maxFrontierRetries := by
  cases harrives with
  | unfinished h => exact (h.counted hr).bounded path
  | stopped h => exact (h.counted hr).bounded path
  | broken h hturn =>
    exact (h.counted hr).bounded_append (takes_of_turn? hturn).1 h.books hr path

/-! ## Runs end -/

/-- A bound on the attempts of a search: for every known path and every branch of the longest,
the failures that block the path next to it and one more, and one seed for every known path. -/
def bound (t : Task σ) (known : List SymbolicState) (longest : Nat) : Nat :=
  known.length * longest * (t.engine.settings.search.maxFrontierRetries + 1) + known.length

theorem potential_start_le {longest : Nat}
    (hlongest : ∀ path ∈ known, (path.parts.filter Clause.isPath).length ≤ longest) :
    potential known t.start ≤ t.bound known longest := by
  rw [potential_start, bound]
  have hlength := Nat.mul_le_mul_right (t.engine.settings.search.maxFrontierRetries + 1)
    (length_frontiers_le hlongest)
  omega

/-- A run has no more attempts than its potential at the start. -/
theorem Arrives.iterations_le (harrives : t.Arrives w₀ rounds turns s result)
    (hr : 1 ≤ t.engine.settings.search.maxFrontierRetries)
    (hknown : t.ReturnsInto w₀.outside known) : s.iterations ≤ potential known t.start := by
  cases harrives with
  | unfinished h =>
    have hpotential := h.potential hr hknown
    rw [h.iterations]
    omega
  | stopped h _ hstops =>
    have hpotential := h.potential hr hknown
    rw [hstops.iterations, h.iterations]
    omega
  | broken h hturn hnext =>
    have htakes := (takes_of_turn? hturn).1
    have hpotential := h.potential hr hknown
    have hpos := htakes.potential_pos
      fun path hpath => hknown _ path (h.candidate_returned hturn) hpath
    rw [(after_eq_ended hnext).1, htakes.tries.iterations, htakes.iterations, h.iterations]
    omega

/-- A run that uses up its rounds was not granted more than its potential at the start. -/
theorem Arrives.rounds_le (harrives : t.Arrives w₀ rounds turns s (.ok .unfinished))
    (hr : 1 ≤ t.engine.settings.search.maxFrontierRetries)
    (hknown : t.ReturnsInto w₀.outside known) : rounds ≤ potential known t.start := by
  cases harrives with
  | unfinished h hlength =>
    have hpotential := h.potential hr hknown
    omega
  | stopped _ _ hstops => exact absurd rfl hstops.finished
  | broken _ _ hnext => exact nomatch (after_eq_ended hnext).2.timedOut

/-- Let failures block a path in the end, and let every trace that a run can return take one of
finitely many known paths, if it can be replayed. Then, whatever the solver and the runs
answer, the attempts of a search stay below a bound, a search that is granted more rounds than
that ends, and no path is submitted to the solver more often than failures block it. -/
theorem run_terminates (t : Task σ) (w₀ : World σ) (known : List SymbolicState) (longest : Nat)
    (hr : 1 ≤ t.engine.settings.search.maxFrontierRetries)
    (hknown : t.ReturnsInto w₀.outside known)
    (hlongest : ∀ path ∈ known, (path.parts.filter Clause.isPath).length ≤ longest)
    (rounds : Nat) :
    ((t.run rounds t.start).run w₀).1.1.iterations ≤ t.bound known longest ∧
    (t.bound known longest < rounds →
      ((t.run rounds t.start).run w₀).1.2 ≠ .ok .unfinished) ∧
    ∀ path, ((t.turns rounds t.start w₀).countP fun u => (t.submitted? u).any (· == path)) ≤
      t.engine.settings.search.maxFrontierRetries := by
  have hstart : potential known t.start ≤ t.bound known longest := potential_start_le hlongest
  have harrives := t.run_arrives w₀ rounds
  refine ⟨?_, fun hrounds hresult => ?_, fun path => ?_⟩
  · exact Nat.le_trans (harrives.iterations_le hr hknown) hstart
  · rw [hresult] at harrives
    have hrounds' := harrives.rounds_le hr hknown
    omega
  · exact Nat.le_trans (submissions_le_tries _) (harrives.tries_le hr path)

end Task

namespace Gate

def branch (index : Nat) (value : Bool) : Predicate :=
  ⟨.path, .equal (.argument .bool index) (.bool value), {}⟩

/-- The paths through the gate. -/
def paths : List SymbolicState :=
  [.basic [branch 0 true], .basic [branch 0 false, branch 1 true],
    .basic [branch 0 false, branch 1 false]]

theorem has_paths (first second : Bool) :
    (task.pathOf (trace first second)).toOption.all (has paths) = true := by
  revert first second
  decide +kernel

theorem returnsInto_paths : task.ReturnsInto world.outside paths := by
  rintro found path ⟨o, -, hreturned⟩ hpath
  obtain ⟨first, second, rfl⟩ : ∃ first second, found = trace first second := by
    rcases hreturned with hrandom | ⟨arena, parameters, hconcrete⟩
    · exact ⟨true, true, (Except.ok.inj hrandom).symm⟩
    · exact ⟨_, _, (Except.ok.inj hconcrete).symm⟩
  have hpaths := has_paths first second
  rw [hpath] at hpaths
  exact hpaths

/-- The search through the gate ends within 28 rounds. -/
theorem gate_terminates :
    1 ≤ task.engine.settings.search.maxFrontierRetries ∧
    task.ReturnsInto world.outside paths ∧
    (∀ path ∈ paths, (path.parts.filter Clause.isPath).length ≤ 2) ∧
    ((task.run 28 task.start).run world).1.1.iterations ≤ 27 ∧
    ((task.run 28 task.start).run world).1.2 ≠ .ok .unfinished ∧
    ∀ path, ((task.turns 28 task.start world).countP
      fun u => (task.submitted? u).any (· == path)) ≤ 3 := by
  have hr : 1 ≤ task.engine.settings.search.maxFrontierRetries := by decide
  have hlongest : ∀ path ∈ paths, (path.parts.filter Clause.isPath).length ≤ 2 := by decide
  have hends := Task.run_terminates task world paths 2 hr returnsInto_paths hlongest 28
  exact ⟨hr, returnsInto_paths, hlongest, hends.1, hends.2.1 (by decide), hends.2.2⟩

end Gate
end Concolic
