import Concolic.Proofs.Search.Failures

/-!
# What abandons a method

How far a failure reaches is told by its severity: one that ends an attempt is counted as a
discarded attempt, and one that ends the method abandons the search. The search keeps to this in
its attempts. It does not when it asks for a further seed: a random trace that strays from its
frame cannot be replayed, which is a failure of that attempt only, and abandons the method even
though the search has held candidates that could be replayed.

## Main definitions

* `Task.FailsOn`, `Task.SeedFails` — the failures of an attempt, and of asking for a seed.
* `Engine.Routes` — failures reach as far as their severities say.
* `Task.Strays` — a further random trace cannot be replayed.

## Main statement

* `Engine.routes_iff` — failures reach as far as they should, unless a further random trace
  strays.
-/

namespace Concolic

variable {σ : Type}

namespace Task

variable {t : Task σ} {s s' after : Search} {w w' w₀ rest : World σ} {u : Turn σ}
  {past turns : List (Turn σ)} {candidate : Trace} {failure : Failure} {rounds : Nat}
  {result : Except Failure Outcome}

/-! ## Where failures come up -/

/-- An attempt meets a failure: while its candidate is replayed, or while the path next to it is
explored. -/
inductive FailsOn (t : Task σ) (s : Search) (candidate : Trace) (w : World σ) (failure : Failure) :
    Prop
  | replaying (hbuild : Replay.build t.engine.program t.method candidate = .error failure)
  | exploring {mutated : SymbolicState} {w' : World σ}
    (hflip : t.flip? s candidate = some mutated)
    (hexplored : (t.explore mutated mutated.path).run.run w = (.error failure, w'))

/-- At the head of some round the search asks for a seed, and the trace it gets cannot be
replayed. -/
def SeedFails (t : Task σ) (rounds : Nat) (w₀ : World σ) (s : Search) (failure : Failure) : Prop :=
  ∃ past w w', t.Reached w₀ past s w ∧ past.length < rounds ∧ t.IsOpen s w ∧
    s.candidates = [] ∧ t.Seeds s (t.later w) s (.error failure) w'

/-- The failures that come up in a run of so many rounds. -/
inductive Occurs (t : Task σ) (rounds : Nat) (w₀ : World σ) (failure : Failure) : Prop
  | attempt {past : List (Turn σ)} {s : Search} {w : World σ} {u : Turn σ}
    (h : t.Reached w₀ past s w) (hlength : past.length < rounds) (hturn : t.turn? s w = some u)
    (hfails : t.FailsOn u.before u.candidate u.world failure)
  | seed {s : Search} (hfails : t.SeedFails rounds w₀ s failure)

/-- A seed has been held, and a further random trace fails in its replay for one attempt. -/
def Strays (t : Task σ) (rounds : Nat) (w₀ : World σ) : Prop :=
  ∃ s failure, t.SeedFails rounds w₀ s failure ∧ s.seeds ≠ [] ∧ failure.severity = .attempt

/-! ## Failures of attempts -/

/-- A failed attempt has met its failure. -/
theorem Concludes.failsOn (h : t.Concludes s candidate w after (.error failure) rest) :
    t.FailsOn s candidate w failure := by
  cases h with
  | unreplayable hbuild => exact .replaying hbuild
  | cancelled hflip hexplored | ended hflip hexplored => exact .exploring hflip hexplored

/-- An attempt that meets a failure comes to it or is discarded. Only a failure for one attempt
is discarded. -/
theorem Concludes.of_failsOn {outcome : Except Failure Attempt}
    (h : t.Concludes s candidate w after outcome rest) (hfails : t.FailsOn s candidate w failure) :
    outcome = .error failure ∨ outcome = .ok .discarded ∧ failure.severity = .attempt := by
  cases hfails with
  | replaying hbuild =>
    have hnone : t.flip? s candidate = none := by simp [flip?, hbuild]
    cases h with
    | unreplayable hbuild' =>
      rw [hbuild] at hbuild'
      exact .inl (congrArg Except.error (Except.error.inj hbuild').symm)
    | duplicate hbuild' => cases hbuild.symm.trans hbuild'
    | accepted hflip | infeasible hflip | unconfirmed hflip | failed hflip | cancelled hflip
    | ended hflip => cases hnone.symm.trans hflip
  | exploring hflip hexplored =>
    have hsame {mutated : SymbolicState} {found : Except Failure Finding} {w' : World σ}
        (hflip' : t.flip? s candidate = some mutated)
        (hexplored' : (t.explore mutated mutated.path).run.run w = (found, w')) :
        found = .error failure := by
      obtain rfl := Option.some.inj (hflip.symm.trans hflip')
      exact congrArg Prod.fst (hexplored'.symm.trans hexplored)
    cases h with
    | unreplayable hbuild => simp [flip?, hbuild] at hflip
    | duplicate _ hnone => cases hnone.symm.trans hflip
    | accepted hflip' hexplored' | infeasible hflip' hexplored' | unconfirmed hflip' hexplored' =>
      cases hsame hflip' hexplored'
    | failed hflip' hexplored' hseverity =>
      obtain rfl := Except.error.inj (hsame hflip' hexplored')
      exact .inr ⟨rfl, hseverity⟩
    | cancelled hflip' hexplored' | ended hflip' hexplored' =>
      obtain rfl := Except.error.inj (hsame hflip' hexplored')
      exact .inl rfl

/-- A failure for one attempt is counted with the discarded attempts, and the search goes on. -/
theorem after_of_attempt (h : failure.severity = .attempt) (hgoing : failure ≠ .cancelled) :
    ∃ s', s.after (.error failure) = .going s' ∧ s'.discarded = s.discarded + 1 := by
  cases failure with
  | cancelled => exact absurd rfl hgoing
  | noConcreteInstance | zeroDivisor | reanimation | execution => exact ⟨_, rfl, rfl⟩
  | typeMerge | contradiction | program | config => cases h

theorem after_of_severity (h : failure.severity ≠ .attempt) :
    s.after (.error failure) = .ended s (.error failure) := by
  cases failure with
  | noConcreteInstance | zeroDivisor | reanimation | execution | cancelled => exact absurd rfl h
  | typeMerge | contradiction | program | config => rfl

theorem Takes.going_of_failsOn (h : t.Takes s w u)
    (hfails : t.FailsOn u.before u.candidate u.world failure)
    (hseverity : failure.severity = .attempt) (hgoing : failure ≠ .cancelled) :
    ∃ s', u.next = .going s' ∧ s'.discarded = s.discarded + 1 := by
  obtain ⟨_, _, hbefore⟩ := h.before_eq
  have hdiscarded : u.after.discarded = s.discarded := by rw [h.tries.discarded, hbefore]
  rw [Turn.next, ← hdiscarded]
  rcases h.concludes.of_failsOn hfails with houtcome | ⟨houtcome, -⟩
  · rw [houtcome]
    exact after_of_attempt hseverity hgoing
  · rw [houtcome]
    exact ⟨_, rfl, rfl⟩

/-! ## Failures of runs -/

theorem IsOpen.round_of_seeds (h : t.IsOpen s w) (hempty : s.candidates = [])
    (hseeds : t.Seeds s (t.later w) s (.error failure) w') :
    (t.round s).run w = (.ended s (.error failure), w') := by
  have hgoing : ¬(t.later w).outside.clock.isCancelled t.token = true := h.going
  have hnext : t.next s = t.seed s := by rw [next, hempty]
  rw [round_run, if_neg (by simp [h.uncovered]), if_neg (by simp [h.uncapped]), if_neg hgoing,
    hnext, hseeds.run_eq]

/-- A trace that cannot be replayed when the search asks for a seed ends it. -/
theorem SeedFails.run_eq (h : t.SeedFails rounds w₀ s failure) :
    ((t.run rounds t.start).run w₀).1 = (s, .error failure) := by
  obtain ⟨past, w, w', hreached, hlength, hopen, hempty, hseeds⟩ := h
  rw [hreached.run_of_ended hlength (hopen.round_of_seeds hempty hseeds)]

/-- A failure beyond the attempt ends the search. -/
theorem Occurs.result_eq (h : t.Occurs rounds w₀ failure)
    (hseverity : failure.severity ≠ .attempt) :
    ((t.run rounds t.start).run w₀).1.2 = .error failure := by
  cases h with
  | seed hfails => rw [hfails.run_eq]
  | @attempt past s w u hreached hlength hturn hfails =>
    obtain ⟨htakes, hround⟩ := takes_of_turn? hturn
    rcases htakes.concludes.of_failsOn hfails with houtcome | ⟨-, hminor⟩
    · rw [Turn.next, houtcome, after_of_severity hseverity] at hround
      rw [hreached.run_of_ended hlength hround]
    · exact absurd hminor hseverity

/-- A search that an attempt's failure has ended after it held a seed has strayed. -/
theorem Ends.strays (h : t.Ends w₀ rounds turns s (.error failure) w)
    (hseverity : failure.severity = .attempt) (hseeds : s.seeds ≠ []) : t.Strays rounds w₀ := by
  cases h with
  | halted hreached hlength _ hhalts =>
    cases hhalts with
    | unreplayable hopen hempty hseed =>
      exact ⟨s, failure, ⟨_, _, _, hreached, hlength, hopen, hempty, hseed⟩, hseeds, hseverity⟩
  | broken _ _ _ hnext =>
    have hends := (after_eq_ended hnext).2
    generalize Turn.outcome _ = outcome at hends
    cases hends with
    | failed hbeyond => exact absurd hseverity hbeyond

/-- A search is abandoned for want of a seed, for a failure of the method, or because it has
strayed. -/
theorem Ends.cases_of_abandoned (h : t.Ends w₀ rounds turns s result w)
    (habandoned : outcomeOf result = .ok .abandoned) :
    s.seeds = [] ∨ (∃ failure, t.Occurs rounds w₀ failure ∧ failure.severity = .method) ∨
      t.Strays rounds w₀ := by
  cases h with
  | unfinished => cases habandoned
  | @halted past s s' w w' result hreached hlength hturn hhalts =>
    cases hhalts with
    | covered | capped | fired | late => cases habandoned
    | unseeded =>
      by_cases hseeds : s.seeds = []
      · exact .inl hseeds
      · rw [if_neg (by simpa using hseeds)] at habandoned
        cases habandoned
    | @unreplayable failure _ hopen hempty hseed =>
      have hfails : t.SeedFails rounds w₀ s failure :=
        ⟨_, _, _, hreached, hlength, hopen, hempty, hseed⟩
      cases hseverity : failure.severity with
      | attempt =>
        by_cases hseeds : s.seeds = []
        · exact .inl hseeds
        · exact .inr (.inr ⟨s, failure, hfails, hseeds, hseverity⟩)
      | method => exact .inr (.inl ⟨failure, .seed hfails, hseverity⟩)
      | run =>
        rw [outcomeOf, if_pos hseverity] at habandoned
        cases habandoned
  | @broken past s₁ s w u result hreached hlength hturn hnext =>
    have hends := (after_eq_ended hnext).2
    obtain ⟨failure, houtcome⟩ := hends.failure
    have hconcludes := (takes_of_turn? hturn).1.concludes
    rw [houtcome] at hends hconcludes
    cases hends with
    | cancelled => cases habandoned
    | failed hbeyond =>
      have hoccurs : t.Occurs rounds w₀ failure :=
        .attempt hreached hlength hturn hconcludes.failsOn
      cases hseverity : failure.severity with
      | attempt => exact absurd hseverity hbeyond
      | method => exact .inr (.inl ⟨failure, hoccurs, hseverity⟩)
      | run =>
        rw [outcomeOf, if_pos hseverity] at habandoned
        cases habandoned

end Task

/-! ## Visits -/

/-- Failures reach as far as their severities say: a visit is abandoned only when it never held
a seed or met a failure of the method, a failure of an attempt is counted as a discarded attempt
and the search goes on, and so it is when a further seed is asked for. -/
structure Engine.Routes (e : Engine σ) (rounds : Nat) (method : Method) (info : MethodInfo)
    (w : World σ) : Prop where
  abandoned (report : Report) : ((e.visit rounds method).run w).1 = .ok (some report) →
    report.outcome = .abandoned →
    (((e.taskOf info w).run rounds (e.taskOf info w).start).run w).1.1.seeds = [] ∨
      ∃ failure, (e.taskOf info w).Occurs rounds w failure ∧ failure.severity = .method
  attempts {past : List (Turn σ)} {s : Search} {w' : World σ} {u : Turn σ} {failure : Failure} :
    (e.taskOf info w).Reached w past s w' → (e.taskOf info w).turn? s w' = some u →
    (e.taskOf info w).FailsOn u.before u.candidate u.world failure →
    failure.severity = .attempt → failure ≠ .cancelled →
    ∃ s', u.next = .going s' ∧ s'.discarded = s.discarded + 1
  seeds {s : Search} {failure : Failure} : (e.taskOf info w).SeedFails rounds w s failure →
    s.seeds ≠ [] → failure.severity = .attempt →
    ∀ report, ((e.visit rounds method).run w).1 = .ok (some report) → report.outcome ≠ .abandoned

section

variable {e : Engine σ} {rounds : Nat} {method : Method} {info : MethodInfo} {w : World σ}

/-- A report has the outcome that its search came to. -/
theorem Engine.outcome_eq (hinfo : (e.program.method? method).filter e.admits = some info)
    {report : Report} (h : ((e.visit rounds method).run w).1 = .ok (some report)) :
    outcomeOf (((e.taskOf info w).run rounds (e.taskOf info w).start).run w).1.2 =
      .ok report.outcome := by
  obtain ⟨s, result, w₁, hrun, ⟨failure, -, hvisit⟩ | ⟨outcome, hfound, hvisit⟩⟩ :=
    Engine.visit_cases hinfo rounds w
  · rw [hvisit] at h
    cases h
  · rw [hvisit] at h
    obtain rfl := Option.some.inj (Except.ok.inj h)
    rw [hrun]
    exact hfound

/-- A search that strays has held a seed, and no failure of the method has come up in it; its visit
is abandoned all the same. -/
theorem Engine.abandoned_of_strays (hinfo : (e.program.method? method).filter e.admits = some info)
    (h : (e.taskOf info w).Strays rounds w) :
    (∃ report, ((e.visit rounds method).run w).1 = .ok (some report) ∧
      report.outcome = .abandoned) ∧
    (((e.taskOf info w).run rounds (e.taskOf info w).start).run w).1.1.seeds ≠ [] ∧
    ∀ failure, (e.taskOf info w).Occurs rounds w failure → failure.severity ≠ .method := by
  obtain ⟨s, failure, hfails, hseeds, hseverity⟩ := h
  have hrun := hfails.run_eq
  have houtcome : outcomeOf (.error failure) = .ok .abandoned := by simp [outcomeOf, hseverity]
  refine ⟨?reported, by rwa [hrun], ?harmless⟩
  case reported =>
    obtain ⟨s', result, w₁, hvisited, hvisit⟩ := Engine.visit_cases hinfo rounds w
    rw [hvisited] at hrun
    obtain ⟨rfl, rfl⟩ := Prod.mk.inj hrun
    rcases hvisit with ⟨found, hfound, -⟩ | ⟨outcome, hfound, hvisit⟩
    · cases houtcome.symm.trans hfound
    · obtain rfl := Except.ok.inj (houtcome.symm.trans hfound)
      exact ⟨_, congrArg Prod.fst hvisit, rfl⟩
  case harmless =>
    intro found hoccurs hmethod
    have hresult := hoccurs.result_eq (by simp [hmethod])
    rw [hrun] at hresult
    obtain rfl := Except.error.inj hresult
    cases hseverity.symm.trans hmethod

/-- A visit that strays does not route its failures. -/
theorem Engine.not_routes_of_strays
    (hinfo : (e.program.method? method).filter e.admits = some info)
    (h : (e.taskOf info w).Strays rounds w) : ¬e.Routes rounds method info w := by
  intro hroutes
  obtain ⟨⟨report, hreport, habandoned⟩, hseeds, hmethod⟩ := Engine.abandoned_of_strays hinfo h
  rcases hroutes.abandoned report hreport habandoned with hnone | ⟨failure, hoccurs, hseverity⟩
  · exact hseeds hnone
  · exact hmethod failure hoccurs hseverity

/-- In the visits of a method failures reach as far as their severities say, exactly when no
further random trace strays: then the visit is abandoned only when it never held a seed or a
failure of the method came up, and whatever fails for one attempt only discards that attempt. -/
theorem Engine.routes_iff (hinfo : (e.program.method? method).filter e.admits = some info)
    (rounds : Nat) (w : World σ) :
    e.Routes rounds method info w ↔ ¬(e.taskOf info w).Strays rounds w := by
  constructor
  · exact fun hroutes hstrays => Engine.not_routes_of_strays hinfo hstrays hroutes
  · intro hstrays
    refine ⟨?abandoned, ?attempts, ?seeds⟩
    case abandoned =>
      intro report hreport habandoned
      have houtcome := Engine.outcome_eq hinfo hreport
      rw [habandoned] at houtcome
      rcases ((e.taskOf info w).run_ends w rounds).cases_of_abandoned houtcome with
        hseeds | hmethod | hstray
      · exact .inl hseeds
      · exact .inr hmethod
      · exact absurd hstray hstrays
    case attempts =>
      intro past s w' u failure _ hturn hfails hseverity hgoing
      exact (Task.takes_of_turn? hturn).1.going_of_failsOn hfails hseverity hgoing
    case seeds =>
      intro s failure hfails hseeds hseverity
      exact absurd ⟨s, failure, hfails, hseeds, hseverity⟩ hstrays

end

namespace Gate

/-- The random traces of the gate are all replayed. -/
theorem gate_routes :
    (task.engine.program.method? pass).filter task.engine.admits = some info ∧
      task.engine.Routes 20 pass info world := by
  have hinfo : (task.engine.program.method? pass).filter task.engine.admits = some info := rfl
  refine ⟨hinfo, (Engine.routes_iff hinfo 20 world).mpr ?_⟩
  rintro ⟨s, failure, hfails, -, -⟩
  have hends : (((task.engine.taskOf info world).run 20
      (task.engine.taskOf info world).start).run world).1.2.toBool = true := by decide +kernel
  rw [hfails.run_eq] at hends
  cases hends

end Gate

/-! ## A stray seed

A method without branches, whose second random trace returns from another method than the one it
has entered. The first is a seed that is replayed.
-/

namespace Stray

def once : Method := ⟨"Seed", "once", "()I"⟩

def other : Method := ⟨"Seed", "stray", "()V"⟩

def info : MethodInfo where
  method := once
  arguments := []
  result := .int
  isStatic := true
  isAbstract := false
  isNative := false

def program : Program :=
  Program.Table.toProgram { methods := [{
    info
    blocks := [⟨⟨0⟩, [], [], .return (some (.int 1))⟩, ⟨⟨1⟩, [], [], .return (some (.int 2))⟩]
    body := .absent }] }

/-- The state counts the random runs. -/
def collaborators : Collaborators Nat where
  runRandom _ := modifyGet fun o =>
    (.ok [.entered once, .returned (if o.state = 0 then once else other) ⟨0⟩],
      { o with state := o.state + 1 })
  runConcrete _ _ _ := pure (.error "no run")
  solve _ := pure .unsat
  isCovered _ _ := false
  record _ _ runs := runs

def engine : Engine Nat where
  program
  settings := {}
  collaborators
  token := ⟨0, none⟩

def world : World Nat where
  outside := { state := 0 }

/-- The severity of what a search has failed with. -/
def severity? : Except Failure Outcome → Option Severity
  | .error failure => some failure.severity
  | .ok _ => none

/-- A search that has held a seed is abandoned for the failure of an attempt. -/
theorem not_routes : ¬engine.Routes 5 once info world := by
  have hminor : severity? (((engine.taskOf info world).run 5
    (engine.taskOf info world).start).run world).1.2 = some .attempt := by decide +kernel
  have hseeds : (((engine.taskOf info world).run 5 (engine.taskOf info world).start).run
    world).1.1.seeds.isEmpty = false := by decide +kernel
  have hends := (engine.taskOf info world).run_ends world 5
  refine Engine.not_routes_of_strays rfl ?_
  generalize ((engine.taskOf info world).run 5 (engine.taskOf info world).start).run world = found
    at hminor hseeds hends
  obtain ⟨⟨s, result⟩, w'⟩ := found
  cases result with
  | ok outcome => cases hminor
  | error failure => exact hends.strays (Option.some.inj hminor) (by simpa using hseeds)

end Stray
end Concolic
