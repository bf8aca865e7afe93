import Concolic.Proofs.Folding.Failures
import Concolic.Proofs.Search.Failures
import Concolic.Query

/-!
# Branches that go one way only

The state that an attempt explores is that of its candidate up to some branch, with the branch
flipped. It is refused a query for what is wrong with the state before the branch, or else for the
flipped branch by itself. The first says that the state of the trace is unsound. The second
befalls every branch on a constant: its other side is a contradiction, and trying it makes the
visit fail though nothing is wrong with any trace.

## Main statements

* `Query.prepare_eq_error_iff` — why a state that ends in a branch is refused a query.
* `Engine.visit_eq_contradiction_iff` — the branches at which a visit fails.
* `Engine.exists_contradiction_of_isConstant` — a visit fails at every branch on a constant.
* `constant_branch_fails_visit` — a visit that fails while the states of all traces are sound.
-/

namespace Concolic

/-! ## Queries for states that end in a branch -/

namespace Query

variable {program : Program} {policy : Inlining.Policy} {settings : Config.Settings}
  {names : NameSupply} {p : Predicate} {failure : Failure}

theorem ofInlined_eq_error_iff {s : SymbolicState} :
    ofInlined settings s = .error failure ↔ Folding.failure? s = some failure := by
  rw [← Folding.run_eq_error_iff, ofInlined]
  cases Folding.run s with
  | ok folded => exact ⟨nofun, nofun⟩
  | error found => simp [bind, Except.bind]

/-- What a query is made from. -/
def inlined (program : Program) (policy : Inlining.Policy) (settings : Config.Settings)
    (names : NameSupply) (s : SymbolicState) : Except Failure SymbolicState :=
  if settings.inliner.enabled then
    ((Inlining.run ⟨program, policy, .all⟩ settings.inliner.depth s).run names).1
  else .ok s

theorem prepare_run (s : SymbolicState) : ((prepare program policy settings s).run names).1 =
    (inlined program policy settings names s).bind (ofInlined settings) := by
  unfold prepare inlined
  cases settings.inliner.enabled <;> rfl

theorem inlined_appends (program : Program) (policy : Inlining.Policy)
    (settings : Config.Settings) (names : NameSupply) (hp : p.IsPlain) (before : List Predicate) :
    Inlining.Aligned p (inlined program policy settings names (.basic before))
      (inlined program policy settings names (.basic (before ++ [p]))) := by
  unfold inlined
  split
  · exact Inlining.rounds_appends _ hp (.basic before) _ _ _
  · exact .ok (.basic before)

/-- A state that ends in a plain branch is refused a query when the state before the branch is
refused one, or that is not and the branch by itself cannot be folded. -/
theorem prepare_eq_error_iff (hp : p.IsPlain) (before : List Predicate) :
    ((prepare program policy settings (.basic (before ++ [p]))).run names).1 = .error failure ↔
      ((prepare program policy settings (.basic before)).run names).1 = .error failure ∨
      (∃ query, ((prepare program policy settings (.basic before)).run names).1 = .ok query) ∧
        Folding.run (.basic [p]) = .error failure := by
  have haligned := inlined_appends program policy settings names hp before
  rw [prepare_run, prepare_run]
  generalize inlined program policy settings names (.basic before) = outcome at haligned
  generalize inlined program policy settings names (.basic (before ++ [p])) = outcome' at haligned
  cases haligned with
  | error found => simp [Except.bind]
  | @ok s t happends =>
    have hmet := Folding.failure?_appends hp happends
    simp only [Except.bind, ofInlined_eq_error_iff, Folding.run_eq_error_iff, hmet]
    cases hquery : ofInlined settings s with
    | error found => simp [ofInlined_eq_error_iff.mp hquery]
    | ok query =>
      have hnone : Folding.failure? s = none := by
        cases hfound : Folding.failure? s with
        | none => rfl
        | some found => cases hquery.symm.trans (ofInlined_eq_error_iff.mpr hfound)
      simp [hnone]

end Query

/-! ## Flipped branches -/

variable {σ : Type}

namespace Task

variable {t : Task σ} {s : Search} {candidate : Trace} {names : NameSupply} {failure : Failure}
  {before : List Predicate} {p : Predicate}

/-- What comes of asking for a query for some predicates. -/
def query (t : Task σ) (predicates : List Predicate) (names : NameSupply) :
    Except Failure Query :=
  ((Query.prepare t.engine.program t.engine.policy t.engine.settings (.basic predicates)).run
    names).1

/-- An attempt on the candidate flips the branch behind the given predicates. -/
structure Flips (t : Task σ) (s : Search) (candidate : Trace) (before : List Predicate)
    (p : Predicate) : Prop where
  branch : ∃ state after, Replay.build t.engine.program t.method candidate = .ok state ∧
    state.parts = before ++ p :: after
  isPath : p.isPath = true
  flip : t.flip? s candidate = some (.basic (before ++ [p.inverse]))

/-- The branches of a trace are relations between terms without functions. -/
def HasPlainBranches (t : Task σ) (trace : Trace) : Prop :=
  ∀ state, Replay.build t.engine.program t.method trace = .ok state →
    ∀ p ∈ state.parts, p.isPath = true → p.IsPlain

theorem Flips.isPlain (h : t.Flips s candidate before p) (hplain : t.HasPlainBranches candidate) :
    p.IsPlain := by
  obtain ⟨state, after, hbuild, hparts⟩ := h.branch
  refine hplain state hbuild p ?_ h.isPath
  rw [hparts]
  exact List.mem_append_right before (List.mem_cons_self ..)

/-- A candidate is refused a query for the state up to the branch to flip, or else for the flipped
branch. -/
theorem refused_iff (hplain : t.HasPlainBranches candidate) :
    t.Refused s candidate names failure ↔ ∃ before p, t.Flips s candidate before p ∧
      (t.query before names = .error failure ∨
        (∃ query, t.query before names = .ok query) ∧
          Folding.run (.basic [p.inverse]) = .error failure) := by
  constructor
  · rintro ⟨mutated, hflip, hprepare⟩
    obtain ⟨state, before, p, after, hbuild, -, hparts, hp, rfl, -, -⟩ :=
      exists_branch_of_flip? hflip
    have hflips : t.Flips s candidate before p := ⟨⟨state, after, hbuild, hparts⟩, hp, hflip⟩
    exact ⟨before, p, hflips,
      (Query.prepare_eq_error_iff (hflips.isPlain hplain).inverse before).mp hprepare⟩
  · rintro ⟨before, p, hflips, hrefused⟩
    exact ⟨_, hflips.flip,
      (Query.prepare_eq_error_iff (hflips.isPlain hplain).inverse before).mpr hrefused⟩

end Task

theorem Failure.severity_eq_run_iff {failure : Failure} :
    failure.severity = .run ↔ ∃ p, failure = .contradiction p := by
  cases failure <;> simp [Failure.severity]

/-- **Where visits fail.** A visit fails when an attempt flips a branch behind a state that is
itself a contradiction, or behind a sound one if the flipped branch is a contradiction by itself;
it fails for nothing else. -/
theorem Engine.visit_eq_contradiction_iff {e : Engine σ} (hprogram : e.program.FailsMildly)
    (rounds : Nat) (method : Method) (w : World σ)
    (hplain : ∀ info, (e.program.method? method).filter e.admits = some info →
      ∀ u ∈ (e.taskOf info w).turns rounds (e.taskOf info w).start w,
        (e.taskOf info w).HasPlainBranches u.candidate) (failure : Failure) :
    ((e.visit rounds method).run w).1 = .error failure ↔
      (∃ q, failure = .contradiction q) ∧
        ∃ info, (e.program.method? method).filter e.admits = some info ∧
          ∃ u ∈ (e.taskOf info w).turns rounds (e.taskOf info w).start w,
            ∃ before p, (e.taskOf info w).Flips u.before u.candidate before p ∧
              ((e.taskOf info w).query before u.world.names = .error failure ∨
                (∃ query, (e.taskOf info w).query before u.world.names = .ok query) ∧
                  Folding.run (.basic [p.inverse]) = .error failure) := by
  rw [Engine.visit_eq_error_iff hprogram, Failure.severity_eq_run_iff]
  refine and_congr_right fun _ => exists_congr fun info => and_congr_right fun hinfo =>
    exists_congr fun u => and_congr_right fun hu => ?_
  exact Task.refused_iff (hplain info hinfo u hu)

/-- An attempt that flips a branch on a constant behind a sound state makes the visit fail. -/
theorem Engine.exists_contradiction_of_isConstant {e : Engine σ} (hprogram : e.program.FailsMildly)
    {rounds : Nat} {method : Method} {w : World σ} {info : MethodInfo}
    (hinfo : (e.program.method? method).filter e.admits = some info) {u : Turn σ}
    (hu : u ∈ (e.taskOf info w).turns rounds (e.taskOf info w).start w)
    {before : List Predicate} {condition : Term} {value : Bool} {location : Location}
    (hflips : (e.taskOf info w).Flips u.before u.candidate before
      ⟨.path, .equal condition (.bool value), location⟩)
    (hsound : ∃ query, (e.taskOf info w).query before u.world.names = .ok query)
    (hconstant : Folding.IsConstant condition value) (hfirst : condition.isFirstOrder = true) :
    ∃ q, ((e.visit rounds method).run w).1 = .error (.contradiction q) := by
  obtain ⟨q, hq⟩ := hconstant.run_inverse hfirst .path location
  have hplain : Clause.IsPlain ⟨.path, .equal condition (.bool value), location⟩ :=
    Clause.isPlain_binary (.inl rfl) hfirst rfl
  have hrefused : (e.taskOf info w).Refused u.before u.candidate u.world.names
      (.contradiction q) :=
    ⟨_, hflips.flip, (Query.prepare_eq_error_iff hplain.inverse before).mpr (.inr ⟨hsound, hq⟩)⟩
  exact ⟨q, (Engine.visit_eq_error_iff hprogram rounds method w _).mpr
    ⟨rfl, info, hinfo, u, hu, hrefused⟩⟩

/-! ## A branch on a constant

A method without arguments that compares one with one. Its random run takes the only branch there
is, and the state of that run is sound.
-/

namespace FixedBranch

def pick : Method := ⟨"Fixed", "pick", "()I"⟩

def info : MethodInfo where
  method := pick
  arguments := []
  result := .int
  isStatic := true
  isAbstract := false
  isNative := false

def table : Program.Table where
  methods := [{
    info
    blocks := [Gate.block 0 (.branch (.compare .eq (.int 1) (.int 1)) ⟨1⟩ ⟨2⟩),
      Gate.block 1 (Gate.returning 1), Gate.block 2 (Gate.returning 2)]
    body := .absent }]

def trace : Trace := [.entered pick, .passed pick ⟨0⟩, .returned pick ⟨1⟩]

/-- Every run takes the same trace, and no other path is feasible. -/
def collaborators : Collaborators Coverage where
  runRandom _ := pure (.ok trace)
  runConcrete _ _ _ := pure (.ok trace)
  solve _ := pure .unsat
  isCovered method coverage := coverage.isCovered table.toProgram method
  record method trace coverage := coverage.record method trace

def engine : Engine Coverage where
  program := table.toProgram
  settings := { search := { maxFrontierRetries := 1 } }
  collaborators
  token := ⟨0, none⟩

def world : World Coverage where
  outside := { state := {} }

def task : Task Coverage := engine.taskOf info world

theorem method?_pick : (engine.program.method? pick).filter engine.admits = some info := by
  decide +kernel

theorem eq_info {found : MethodInfo}
    (h : (engine.program.method? pick).filter engine.admits = some found) : found = info :=
  Option.some.inj (h.symm.trans method?_pick)

/-- What holds of the states of all candidates can be tested. -/
theorem forall_state {turns : List (Turn Coverage)} {P : Turn Coverage → SymbolicState → Prop}
    (test : Turn Coverage → SymbolicState → Bool)
    (htest : ∀ u state, test u state = true → P u state)
    (h : (turns.all fun u => (Replay.build engine.program pick u.candidate).toOption.all
      (test u)) = true) :
    ∀ u ∈ turns, ∀ state, Replay.build engine.program pick u.candidate = .ok state → P u state := by
  intro u hu state hbuild
  have hturn := List.all_eq_true.mp h u hu
  rw [hbuild] at hturn
  exact htest u state hturn

theorem hasPlainBranches : ∀ u ∈ task.turns 20 task.start world,
    task.HasPlainBranches u.candidate :=
  forall_state (P := fun _ state => ∀ p ∈ state.parts, p.isPath = true → p.IsPlain)
    (fun _ state => state.parts.all fun p => !p.isPath || decide p.IsPlain)
    (fun _ state h p hp hpath => by simpa [hpath] using List.all_eq_true.mp h p hp)
    (by decide +kernel)

theorem exists_query : ∀ u ∈ task.turns 20 task.start world, ∀ state,
    Replay.build engine.program pick u.candidate = .ok state → ∃ query,
      ((Query.prepare engine.program engine.policy engine.settings state).run u.world.names).1 =
        .ok query :=
  forall_state
    (fun u state => ((Query.prepare engine.program engine.policy engine.settings
      state).run u.world.names).1.toBool)
    (fun u state h => by
      cases hquery : ((Query.prepare engine.program engine.policy engine.settings state).run
          u.world.names).1 with
      | ok query => exact ⟨query, rfl⟩
      | error failure =>
        rw [hquery] at h
        cases h)
    (by decide +kernel)

theorem visit_eq_contradiction :
    ∃ q, ((engine.visit 20 pick).run world).1 = .error (.contradiction q) := by
  have hfails : ((engine.visit 20 pick).run world).1.toBool = false := by decide +kernel
  cases hvisit : ((engine.visit 20 pick).run world).1 with
  | ok report =>
    rw [hvisit] at hfails
    cases hfails
  | error failure =>
    obtain ⟨hseverity, -⟩ := (Engine.visit_eq_error_iff (Program.Table.failsMildly table) 20 pick
      world failure).mp hvisit
    obtain ⟨q, rfl⟩ := Failure.severity_eq_run_iff.mp hseverity
    exact ⟨q, rfl⟩

end FixedBranch

/-- The states of all traces are sound, and the visit fails. -/
theorem constant_branch_fails_visit :
    ¬∀ (e : Engine Coverage) (rounds : Nat) (method : Method) (w : World Coverage),
      e.program.FailsMildly →
      (∀ info, (e.program.method? method).filter e.admits = some info →
        ∀ u ∈ (e.taskOf info w).turns rounds (e.taskOf info w).start w, ∀ state,
          Replay.build e.program info.method u.candidate = .ok state → ∃ query,
            ((Query.prepare e.program e.policy e.settings state).run u.world.names).1 =
              .ok query) →
      ∃ report, ((e.visit rounds method).run w).1 = .ok report := by
  intro hall
  obtain ⟨q, hfails⟩ := FixedBranch.visit_eq_contradiction
  obtain ⟨report, hreport⟩ := hall FixedBranch.engine 20 FixedBranch.pick FixedBranch.world
    (Program.Table.failsMildly _) fun info hinfo => by
      obtain rfl := FixedBranch.eq_info hinfo
      exact FixedBranch.exists_query
  rw [hfails] at hreport
  cases hreport

/-- The visit fails at the branch of its only trace. -/
theorem fixed_branch_blamed : ∃ q info,
    (FixedBranch.engine.program.method? FixedBranch.pick).filter FixedBranch.engine.admits =
      some info ∧
    ∃ u ∈ FixedBranch.task.turns 20 FixedBranch.task.start FixedBranch.world, ∃ before p,
      FixedBranch.task.Flips u.before u.candidate before p ∧
        (FixedBranch.task.query before u.world.names = .error (.contradiction q) ∨
          (∃ query, FixedBranch.task.query before u.world.names = .ok query) ∧
            Folding.run (.basic [p.inverse]) = .error (.contradiction q)) := by
  obtain ⟨q, hfails⟩ := FixedBranch.visit_eq_contradiction
  obtain ⟨-, info, hinfo, hblamed⟩ := (Engine.visit_eq_contradiction_iff
    (Program.Table.failsMildly FixedBranch.table) 20 FixedBranch.pick FixedBranch.world
    (fun info hinfo => by
      obtain rfl := FixedBranch.eq_info hinfo
      exact FixedBranch.hasPlainBranches) (.contradiction q)).mp hfails
  obtain rfl := FixedBranch.eq_info hinfo
  exact ⟨q, _, hinfo, hblamed⟩

end Concolic
