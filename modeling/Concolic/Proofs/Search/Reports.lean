import Mathlib.Data.List.Forall2
import Concolic.Proofs.Search.AttemptBooks

/-!
# What a report says

A report counts the attempts of a search: all of them, those that were accepted, those that were
discarded and the tests that they made. The counts are kept in three places and agree at the head
of every round; a search that ends in an attempt leaves that one uncounted. The suite tells the
tests themselves, each on the inputs that its attempt ran the method on.

## Main definitions

* `Task.Tests` — the test that a turn makes.
* `Task.Accounts` — the tests of a run, with the counts and the suite that go with them.

## Main statement

* `Engine.visit_accounts` — the counts of a report, and what its visit adds to the suite.
-/

namespace Concolic

variable {σ : Type}

namespace Task

variable {t : Task σ} {s s' : Search} {w w' w₀ : World σ} {u : Turn σ} {past turns : List (Turn σ)}
  {made : List TestCase} {rounds : Nat} {result : Except Failure Outcome}

/-! ## Tests of turns -/

/-- The test carries the inputs on which a turn ran the method for the trace that it accepts. -/
def Tests (t : Task σ) (u : Turn σ) (test : TestCase) : Prop :=
  test.method = t.method ∧ ∃ trace mutated query m w₁ w₂, u.accepted? = some trace ∧
    t.flip? u.before u.candidate = some mutated ∧
    t.Answers mutated u.world query (.sat m) w₁ ∧
    t.Executes query m w₁ test.arena test.parameters (.ok trace) w₂

theorem Tests.accepted {test : TestCase} (h : t.Tests u test) :
    ∃ trace, u.accepted? = some trace := by
  obtain ⟨-, trace, -, -, -, -, -, haccepted, -⟩ := h
  exact ⟨trace, haccepted⟩

theorem Takes.tests_before (h : t.Takes s w u) : u.before.tests = s.tests := by
  obtain ⟨_, _, hbefore⟩ := h.before_eq
  rw [hbefore]

theorem Takes.discarded (h : t.Takes s w u) : u.before.discarded = s.discarded := by
  obtain ⟨_, _, hbefore⟩ := h.before_eq
  rw [hbefore]

/-- A turn makes one test if it accepts a trace, and none if not. -/
theorem Takes.makes (h : t.Takes s w u) :
    (u.accepted? = none ∧ u.after.tests = s.tests ∧ u.rest.suite = w.suite) ∨
    ∃ test, t.Tests u test ∧ test.number = s.tests + 1 ∧ u.after.tests = s.tests + 1 ∧
      u.rest.suite = w.suite ++ [.found test] := by
  have hconcludes := h.concludes
  rw [← h.tests_before, ← h.suite, Turn.accepted?]
  generalize houtcome : u.outcome = outcome at hconcludes ⊢
  generalize u.after = after at hconcludes ⊢
  generalize u.rest = rest at hconcludes ⊢
  cases hconcludes with
  | unreplayable | duplicate => exact .inl ⟨rfl, rfl, rfl⟩
  | infeasible _ hexplored | unconfirmed _ hexplored | failed _ hexplored
  | cancelled _ hexplored | ended _ hexplored =>
    exact .inl ⟨rfl, rfl, (explores_of_run hexplored).suite⟩
  | @accepted mutated trace arena parameters w' hflip hexplored =>
    refine .inr ⟨⟨u.before.tests + 1, t.method, arena, parameters⟩, ?_, rfl, rfl, ?_⟩
    · cases explores_of_run hexplored with
      | confirmed hanswers hexecutes =>
        have haccepted := Turn.accepted?_eq_some.mpr houtcome
        exact ⟨rfl, trace, mutated, _, _, _, _, haccepted, hflip, hanswers, hexecutes⟩
    · dsimp only
      rw [(explores_of_run hexplored).suite]

/-! ## Accounts -/

/-- The turns have made these tests, and nothing else has gone into the suite. -/
structure Accounts (t : Task σ) (w₀ : World σ) (past : List (Turn σ)) (made : List TestCase)
    (s : Search) (w : World σ) : Prop where
  suite : w.suite = w₀.suite ++ made.map .found
  tested : List.Forall₂ t.Tests (past.filter fun u => u.accepted?.isSome) made
  numbers : made.map TestCase.number = List.range' 1 made.length
  accepted : s.accepted = made.length
  counted : s.tests = made.length

theorem accounts_start (t : Task σ) (w₀ : World σ) : t.Accounts w₀ [] [] t.start w₀ where
  suite := (List.append_nil _).symm
  tested := .nil
  numbers := rfl
  accepted := rfl
  counted := rfl

theorem Accounts.of_eq (h : t.Accounts w₀ past made s w) (haccepted : s'.accepted = s.accepted)
    (htests : s'.tests = s.tests) (hsuite : w'.suite = w.suite) :
    t.Accounts w₀ past made s' w' where
  suite := hsuite.trans h.suite
  tested := h.tested
  numbers := h.numbers
  accepted := haccepted.trans h.accepted
  counted := htests.trans h.counted

/-- A turn that accepts nothing does not show in the tests. -/
theorem Accounts.idle (h : t.Accounts w₀ past made s w) (hnone : u.accepted? = none)
    (haccepted : s'.accepted = s.accepted) (htests : s'.tests = s.tests)
    (hsuite : w'.suite = w.suite) : t.Accounts w₀ (past ++ [u]) made s' w' := by
  have hfilter : (past ++ [u]).filter (fun u => u.accepted?.isSome) =
      past.filter fun u => u.accepted?.isSome := by
    simp [List.filter_append, hnone]
  have heq := h.of_eq haccepted htests hsuite
  exact ⟨heq.suite, hfilter ▸ heq.tested, heq.numbers, heq.accepted, heq.counted⟩

theorem Accounts.add {test : TestCase} (h : t.Accounts w₀ past made s w) (htests : t.Tests u test)
    (hnumber : test.number = s.tests + 1) (haccepted : s'.accepted = s.accepted + 1)
    (hcounted : s'.tests = s.tests + 1) (hsuite : w'.suite = w.suite ++ [.found test]) :
    t.Accounts w₀ (past ++ [u]) (made ++ [test]) s' w' where
  suite := by
    rw [hsuite, h.suite, List.map_append, List.append_assoc]
    rfl
  tested := by
    obtain ⟨trace, haccepted⟩ := htests.accepted
    rw [List.filter_append, List.filter_cons_of_pos (by simp [haccepted])]
    exact List.rel_append h.tested (.cons htests .nil)
  numbers := by
    rw [List.map_append, h.numbers, List.map_singleton, hnumber, h.counted, List.length_append,
      List.length_singleton, List.range'_concat, Nat.one_mul, Nat.add_comm 1]
  accepted := by rw [haccepted, h.accepted, List.length_append, List.length_singleton]
  counted := by rw [hcounted, h.counted, List.length_append, List.length_singleton]

/-- A turn keeps the accounts, with its test if it makes one. -/
theorem Accounts.turn (h : t.Accounts w₀ past made s w) (htakes : t.Takes s w u)
    (hnext : u.next = .going s') : ∃ made', t.Accounts w₀ (past ++ [u]) made' s' u.rest := by
  have hafter := htakes.tries.accepted_eq.trans htakes.accepted
  have hcounts := counts_of_going hnext
  rcases htakes.makes with ⟨hnone, htests, hsuite⟩ | ⟨test, htest, hnumber, htests, hsuite⟩
  · rcases hcounts with ⟨⟨trace, houtcome⟩, -⟩ | ⟨-, haccepted, -, hsame⟩
    · simp [Turn.accepted?, houtcome] at hnone
    · exact ⟨made, h.idle hnone (haccepted.trans hafter) (hsame.trans htests) hsuite⟩
  · rcases hcounts with ⟨-, haccepted, -, hsame⟩ | ⟨hno, -⟩
    · refine ⟨made ++ [test], h.add htest hnumber ?_ (hsame.trans htests) hsuite⟩
      rw [haccepted, hafter]
    · obtain ⟨trace, haccepted⟩ := htest.accepted
      exact absurd (Turn.accepted?_eq_some.mp haccepted) (hno trace)

theorem Reached.accounts (h : t.Reached w₀ past s w) : ∃ made, t.Accounts w₀ past made s w := by
  induction h with
  | start => exact ⟨[], t.accounts_start w₀⟩
  | turn h hturn hnext ih =>
    obtain ⟨made, haccounts⟩ := ih
    exact haccounts.turn (takes_of_turn? hturn).1 hnext

/-- At the head of a round every attempt is counted as accepted or as discarded. -/
theorem Reached.attempts (h : t.Reached w₀ past s w) :
    s.iterations = s.accepted + s.discarded := by
  induction h with
  | start => rfl
  | turn h hturn hnext ih =>
    have htakes := (takes_of_turn? hturn).1
    have hiterations := (after_eq_going hnext).2.2.trans htakes.tries.iterations
    have haccepted := htakes.tries.accepted_eq.trans htakes.accepted
    have hdiscarded := htakes.tries.discarded.trans htakes.discarded
    rw [htakes.iterations] at hiterations
    rcases counts_of_going hnext with ⟨-, hcount, hsame, -⟩ | ⟨-, hsame, hcount, -⟩ <;> omega

/-- Attempts stay within their bound, if there is one. -/
def IsWithin (t : Task σ) (s : Search) : Prop :=
  0 < t.engine.settings.search.maxIterations →
    s.iterations ≤ t.engine.settings.search.maxIterations

/-- An attempt is only made below the bound. -/
theorem Takes.isWithin (h : t.Takes s w u) (hiterations : s'.iterations = s.iterations + 1) :
    t.IsWithin s' := by
  intro hbound
  have hcapped := h.isOpen.uncapped
  simp only [isCapped, Bool.and_eq_false_iff, decide_eq_false_iff_not] at hcapped
  omega

theorem Takes.iterations_after (h : t.Takes s w u) : u.after.iterations = s.iterations + 1 :=
  h.tries.iterations.trans h.iterations

theorem Reached.isWithin (h : t.Reached w₀ past s w) : t.IsWithin s := by
  cases h with
  | start => exact fun _ => Nat.zero_le _
  | turn h hturn hnext =>
    have htakes := (takes_of_turn? hturn).1
    exact htakes.isWithin ((after_eq_going hnext).2.2.trans htakes.iterations_after)

/-- Where a run ends its tests are accounted for, and so are its attempts, up to one that ended
it by a failure. -/
theorem Ends.accounts (h : t.Ends w₀ rounds turns s result w) :
    (∃ made, t.Accounts w₀ turns made s w) ∧ t.IsWithin s ∧
      (s.iterations = s.accepted + s.discarded ∨
        s.iterations = s.accepted + s.discarded + 1 ∧
          ∃ outcome : Except Failure Attempt, EndsWith outcome result) := by
  cases h with
  | unfinished h => exact ⟨h.accounts, h.isWithin, .inl h.attempts⟩
  | halted h _ _ hhalts =>
    have hstops := hhalts.stops
    obtain ⟨made, haccounts⟩ := h.accounts
    refine ⟨⟨made, haccounts.of_eq hstops.accepted hstops.tests hhalts.suite⟩, ?_, .inl ?_⟩
    · intro hbound
      rw [hstops.iterations]
      exact h.isWithin hbound
    · rw [hstops.iterations, hstops.accepted, hstops.discarded]
      exact h.attempts
  | @broken past s₁ s w u result h _ hturn hnext =>
    have htakes := (takes_of_turn? hturn).1
    obtain ⟨rfl, hends⟩ := after_eq_ended hnext
    obtain ⟨failure, houtcome⟩ := hends.failure
    have hnone : u.accepted? = none := by simp [Turn.accepted?, houtcome]
    obtain ⟨hidle, hsuite⟩ := htakes.concludes.idles (.inr hends.failure)
    obtain ⟨made, haccounts⟩ := h.accounts
    have haccepted := htakes.accepted
    have hdiscarded := htakes.discarded
    have hattempts := h.attempts
    rw [hidle]
    refine ⟨⟨made, haccounts.idle hnone haccepted htakes.tests_before (hsuite.trans htakes.suite)⟩,
      htakes.isWithin htakes.iterations, .inr ⟨?_, _, hends⟩⟩
    rw [htakes.iterations]
    omega

end Task

/-! ## Reports -/

/-- A report whose search was ended by an attempt is not of one that came to its end. -/
theorem Task.EndsWith.outcome_ne {outcome : Except Failure Attempt}
    {result : Except Failure Outcome} {found : Outcome} (h : EndsWith outcome result)
    (hfound : outcomeOf result = .ok found) :
    found ≠ .covered ∧ found ≠ .exhausted := by
  cases h with
  | cancelled =>
    obtain rfl := Except.ok.inj hfound
    simp
  | failed =>
    rw [outcomeOf] at hfound
    split at hfound
    · cases hfound
    · obtain rfl := Except.ok.inj hfound
      simp

/-- Whenever a visit comes to a report, the tests it counts are the accepted attempts and the
tests that the visit has added to the suite, in order and named by their numbers, each on the
inputs on which its attempt ran the method for the trace it accepted; the method is entered as
finished behind all of them and nothing else is added. All attempts are counted as accepted or
as discarded, up to one that ended the search for want of time or by a failure, and there are no
more of them than allowed. -/
theorem Engine.visit_accounts {e : Engine σ} {rounds : Nat} {method : Method} {w w' : World σ}
    {report : Report} (h : (e.visit rounds method).run w = (.ok (some report), w')) :
    ∃ info tests, (e.program.method? method).filter e.admits = some info ∧
      w'.suite = w.suite ++ tests.map .found ++ [.finished method] ∧
      tests.map TestCase.name =
        (List.range' 1 tests.length).map (fun number => "test" ++ toString number) ∧
      List.Forall₂ (e.taskOf info w).Tests
        (((e.taskOf info w).turns rounds (e.taskOf info w).start w).filter
          fun u => u.accepted?.isSome) tests ∧
      report.tests = tests.length ∧ report.accepted = tests.length ∧
      (report.iterations = report.accepted + report.discarded ∨
        report.iterations = report.accepted + report.discarded + 1 ∧
          report.outcome ≠ .covered ∧ report.outcome ≠ .exhausted) ∧
      (0 < e.settings.search.maxIterations →
        report.iterations ≤ e.settings.search.maxIterations) := by
  cases hinfo : (e.program.method? method).filter e.admits with
  | none =>
    rw [Engine.visit_run_of_none hinfo] at h
    cases h
  | some info =>
    obtain ⟨s, result, w₁, hrun, ⟨failure, -, hvisit⟩ | ⟨outcome, hfound, hvisit⟩⟩ :=
      Engine.visit_cases hinfo rounds w
    · cases hvisit.symm.trans h
    · obtain ⟨hreport, rfl⟩ := Prod.mk.inj (hvisit.symm.trans h)
      obtain rfl := Option.some.inj (Except.ok.inj hreport)
      have hends := (e.taskOf info w).run_ends w rounds
      rw [hrun] at hends
      obtain ⟨⟨tests, haccounts⟩, hwithin, hattempts⟩ := hends.accounts
      refine ⟨info, tests, rfl, ?suite, ?names, haccounts.tested, haccounts.counted,
        haccounts.accepted, ?attempts, hwithin⟩
      case suite =>
        dsimp only
        rw [haccounts.suite]
      case names =>
        rw [← haccounts.numbers, List.map_map]
        rfl
      case attempts =>
        refine hattempts.imp_right fun ⟨hiterations, attempt, hbroken⟩ => ?_
        exact ⟨hiterations, hbroken.outcome_ne hfound⟩

namespace Gate

/-- The visit of the gate makes four tests in nine attempts. -/
theorem gate_accounts :
    ∃ report w', ∃ tests : List TestCase,
      (task.engine.visit 20 pass).run world = (.ok (some report), w') ∧
      w'.suite = tests.map .found ++ [.finished pass] ∧
      tests.map TestCase.name = ["test1", "test2", "test3", "test4"] ∧
      report.accepted = 4 ∧ report.discarded = 5 ∧
      (report.iterations = 9 ∨ report.iterations = 10 ∧ report.outcome ≠ .covered ∧
        report.outcome ≠ .exhausted) := by
  have hcounts : ((task.engine.visit 20 pass).run world).1.toOption.join.map
      (fun report => (report.tests, report.discarded)) = some (4, 5) := by decide +kernel
  generalize hvisit : (task.engine.visit 20 pass).run world = visited at hcounts
  obtain ⟨visited, w'⟩ := visited
  match visited with
  | .error _ | .ok none => cases hcounts
  | .ok (some report) =>
    obtain ⟨htests, hdiscarded⟩ := Prod.mk.inj (Option.some.inj hcounts)
    obtain ⟨info, tests, -, hsuite, hnames, -, hlength, haccepted, hattempts, -⟩ :=
      Engine.visit_accounts hvisit
    rw [← hlength, htests] at hnames haccepted
    rw [haccepted, hdiscarded] at hattempts
    exact ⟨report, w', tests, rfl, hsuite, hnames, haccepted, hdiscarded, hattempts⟩

end Gate
end Concolic
