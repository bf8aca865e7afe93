import Concolic.Method

/-!
# Settings

Everything that can be set for a run, in four stages: the search, the inliner, the solver
and the test values. Presets give complete settings to start from.
-/

namespace Concolic.Config

/-- A named combination of settings. `custom` starts from the balanced one. -/
inductive Preset where
  | fast
  | balanced
  | thorough
  | custom
  deriving DecidableEq, Repr

namespace Preset

def all : List Preset := [.fast, .balanced, .thorough, .custom]

def name : Preset → String
  | .fast => "fast"
  | .balanced => "balanced"
  | .thorough => "thorough"
  | .custom => "custom"

/-- The preset of a name; letter case does not matter. No letter outside ASCII has a lower
case that occurs in a name. -/
def ofName? (s : String) : Option Preset := all.find? (·.name == s.toLower)

/-- What is said of a name without a preset. -/
def unknownMessage (s : String) : String :=
  "Unknown preset '" ++ s ++ "'. Valid presets: " ++ ", ".intercalate (all.map name)

theorem ofName?_name (p : Preset) : ofName? p.name = some p := by
  cases p <;> decide +kernel

end Preset

/-- The search for paths through one method. -/
structure SearchSettings where
  timeLimitMs : Nat := 10000
  mainOnly : Bool := false
  /-- How often the search may fail at one path before it gives the path up. -/
  maxFrontierRetries : Nat := 3
  /-- A bound on the attempts; none if it is zero. -/
  maxIterations : Nat := 0
  deriving DecidableEq

structure InlinerSettings where
  enabled : Bool := true
  depth : Nat := 5
  maxBodySize : Nat := 1000
  deriving DecidableEq

structure SolverSettings where
  timeoutSeconds : Nat := 3
  logQuery : Bool := false
  simplifyFormulae : Bool := true
  deriving DecidableEq

/-- What becomes of the values of a test. -/
structure DescriptorSettings where
  /-- How visible a class has to be for a test to create instances of it. -/
  visibility : Visibility := .everywhere
  /-- Whether slots that hold their default are left out. -/
  reduce : Bool := true
  deriving DecidableEq

structure Settings where
  preset : Preset := .balanced
  search : SearchSettings := {}
  inliner : InlinerSettings := {}
  solver : SolverSettings := {}
  descriptor : DescriptorSettings := {}
  deriving DecidableEq

namespace Settings

/-- The settings of a preset. -/
def ofPreset (preset : Preset) : Settings :=
  match preset with
  | .fast =>
    { preset
      search := { timeLimitMs := 2000, maxFrontierRetries := 1 }
      inliner := { depth := 2, maxBodySize := 200 }
      solver := { timeoutSeconds := 1 } }
  | .thorough =>
    { preset
      search := { timeLimitMs := 60000, maxFrontierRetries := 5 }
      inliner := { depth := 10, maxBodySize := 5000 }
      solver := { timeoutSeconds := 10 }
      descriptor := { visibility := .packageWide } }
  | .balanced | .custom => { preset }

/-- How long one call of the solver may take, in milliseconds. -/
def solverTimeoutMs (s : Settings) : Nat := s.solver.timeoutSeconds * 1000

end Settings

/-! ## Stages and fields -/

inductive Stage where
  | search
  | inliner
  | solver
  | descriptor
  deriving DecidableEq, Repr

namespace Stage

def all : List Stage := [.search, .inliner, .solver, .descriptor]

/-- The name of a stage in documents. -/
def key : Stage → String
  | .search => "concolic"
  | .inliner => "inliner"
  | .solver => "smt"
  | .descriptor => "descriptor"

/-- The name of a stage in reports. -/
def title : Stage → String
  | .search => "ConcolicConfig"
  | .inliner => "InlinerConfig"
  | .solver => "SmtConfig"
  | .descriptor => "DescriptorConfig"

/-- The settings with one stage as it usually is. -/
def reset : Stage → Settings → Settings
  | .search, s => { s with search := {} }
  | .inliner, s => { s with inliner := {} }
  | .solver, s => { s with solver := {} }
  | .descriptor, s => { s with descriptor := {} }

end Stage

/-- What a field of the settings holds. -/
inductive Value where
  | number (n : Nat)
  | truth (b : Bool)
  | visibility (v : Visibility)
  deriving DecidableEq

def Value.text : Value → String
  | .number n => toString n
  | .truth b => if b then "true" else "false"
  | .visibility v => v.name

/-- A field of the settings under its name. Values of another kind do not change it. -/
structure Field where
  stage : Stage
  key : String
  get : Settings → Value
  set : Settings → Value → Settings

namespace Field

def ofNumber (stage : Stage) (key : String) (get : Settings → Nat)
    (set : Settings → Nat → Settings) : Field where
  stage
  key
  get s := .number (get s)
  set s
    | .number n => set s n
    | _ => s

def ofTruth (stage : Stage) (key : String) (get : Settings → Bool)
    (set : Settings → Bool → Settings) : Field where
  stage
  key
  get s := .truth (get s)
  set s
    | .truth b => set s b
    | _ => s

def ofVisibility (stage : Stage) (key : String) (get : Settings → Visibility)
    (set : Settings → Visibility → Settings) : Field where
  stage
  key
  get s := .visibility (get s)
  set s
    | .visibility v => set s v
    | _ => s

/-- All fields, stage by stage, in the order in which they are written. -/
def all : List Field :=
  [.ofNumber .search "time_limit_ms" (·.search.timeLimitMs)
      fun s n => { s with search.timeLimitMs := n },
    .ofTruth .search "main_only" (·.search.mainOnly) fun s b => { s with search.mainOnly := b },
    .ofNumber .search "max_frontier_retries" (·.search.maxFrontierRetries)
      fun s n => { s with search.maxFrontierRetries := n },
    .ofNumber .search "max_iterations" (·.search.maxIterations)
      fun s n => { s with search.maxIterations := n },
    .ofTruth .inliner "enabled" (·.inliner.enabled) fun s b => { s with inliner.enabled := b },
    .ofNumber .inliner "depth" (·.inliner.depth) fun s n => { s with inliner.depth := n },
    .ofNumber .inliner "max_body_size" (·.inliner.maxBodySize)
      fun s n => { s with inliner.maxBodySize := n },
    .ofNumber .solver "timeout_seconds" (·.solver.timeoutSeconds)
      fun s n => { s with solver.timeoutSeconds := n },
    .ofTruth .solver "log_query" (·.solver.logQuery) fun s b => { s with solver.logQuery := b },
    .ofTruth .solver "simplify_formulae" (·.solver.simplifyFormulae)
      fun s b => { s with solver.simplifyFormulae := b },
    .ofVisibility .descriptor "visibility" (·.descriptor.visibility)
      fun s v => { s with descriptor.visibility := v },
    .ofTruth .descriptor "reduce" (·.descriptor.reduce)
      fun s b => { s with descriptor.reduce := b }]

/-- The fields of one stage. -/
def ofStage (stage : Stage) : List Field := all.filter (·.stage == stage)

end Field
end Concolic.Config
