import Concolic.Config.Error
import Concolic.Config.Settings

/-!
# Validation of settings

Each numeric setting has a range, and one call of the solver has to fit into the time for a
method. Stages are checked in order, settings within a stage too, and the first violation
is reported. Main statement: `validate_ok_iff`.
-/

namespace Concolic.Config

/-- The accepted range of a setting. -/
structure Range where
  field : String
  least : Nat
  greatest : Nat
  hint : String

namespace Range

def timeLimitMs : Range :=
  ⟨"concolic.time_limit_ms", 1, 86400000, "Use 10000 (10s) for most projects"⟩

def maxFrontierRetries : Range :=
  ⟨"concolic.max_frontier_retries", 1, 100,
    "Use 3 unless the solver is known to under-approximate heavily"⟩

def depth : Range := ⟨"inliner.depth", 1, 64, "Default is 5"⟩

def maxBodySize : Range :=
  ⟨"inliner.max_body_size", 1, 100000, "Large bodies slow the solver down more than they help"⟩

def timeoutSeconds : Range := ⟨"smt.timeout_seconds", 1, 3600, "Use 3 for interactive runs"⟩

/-- Whether a value is in the range. -/
def Admits (r : Range) (value : Nat) : Prop := r.least ≤ value ∧ value ≤ r.greatest

instance (r : Range) (value : Nat) : Decidable (r.Admits value) := by
  unfold Admits; infer_instance

def check (r : Range) (value : Nat) : Except Error Unit :=
  if r.Admits value then .ok () else .error (.range r.field value r.least r.greatest r.hint)

theorem check_ok_iff {r : Range} {value : Nat} : r.check value = .ok () ↔ r.Admits value := by
  unfold check
  split <;> simp_all

end Range

namespace Settings

/-- Check the settings of one stage. -/
def check (s : Settings) : Stage → Except Error Unit
  | .search => do
    Range.timeLimitMs.check s.search.timeLimitMs
    Range.maxFrontierRetries.check s.search.maxFrontierRetries
  | .inliner => do
    Range.depth.check s.inliner.depth
    Range.maxBodySize.check s.inliner.maxBodySize
  | .solver => Range.timeoutSeconds.check s.solver.timeoutSeconds
  | .descriptor => .ok ()

/-- Check that a call of the solver fits into the time for a method. -/
def checkBudget (s : Settings) : Except Error Unit :=
  if s.search.timeLimitMs < s.solverTimeoutMs then
    .error (.solverBudget s.solverTimeoutMs s.search.timeLimitMs)
  else
    .ok ()

/-- Check everything. -/
def validate (s : Settings) : Except Error Unit := do
  s.check .search
  s.check .inliner
  s.check .solver
  s.check .descriptor
  s.checkBudget

end Settings

/-- Settings that have passed validation. -/
structure Validated where
  settings : Settings
  valid : settings.validate = .ok ()

namespace Validated

instance : DecidableEq Validated := fun a b =>
  decidable_of_iff (a.settings = b.settings)
    ⟨fun h => by cases a; cases b; simp_all, fun h => by rw [h]⟩

instance : Inhabited Validated := ⟨{}, rfl⟩

end Validated

/-- Validate settings. -/
def Settings.build (s : Settings) : Except Error Validated :=
  match h : s.validate with
  | .ok () => .ok ⟨s, h⟩
  | .error e => .error e

/-- Settings pass exactly when every number is in its range and a call of the solver fits
into the time for a method. -/
theorem Settings.validate_ok_iff (s : Settings) :
    s.validate = .ok () ↔
      Range.timeLimitMs.Admits s.search.timeLimitMs ∧
      Range.maxFrontierRetries.Admits s.search.maxFrontierRetries ∧
      Range.depth.Admits s.inliner.depth ∧
      Range.maxBodySize.Admits s.inliner.maxBodySize ∧
      Range.timeoutSeconds.Admits s.solver.timeoutSeconds ∧
      s.solverTimeoutMs ≤ s.search.timeLimitMs := by
  simp only [validate, check, checkBudget, Range.check]
  repeat' split
  all_goals simp_all [bind, Except.bind]

end Concolic.Config
