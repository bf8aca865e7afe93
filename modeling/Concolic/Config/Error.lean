/-!
# Configuration errors

Why a configuration was refused.
-/

namespace Concolic.Config

/-- The only version of the configuration format. -/
def formatVersion : Nat := 1

inductive Error where
  /-- A setting outside its accepted range. -/
  | range (field : String) (value least greatest : Nat) (hint : String)
  /-- One call of the solver could outlive the budget of the whole method. -/
  | solverBudget (timeoutMs limitMs : Nat)
  | missingVersion
  | unsupportedVersion (version : Nat)
  | unknownPreset (name : String)
  | unreadable (path cause : String)
  /-- Text that is not a configuration. -/
  | malformed
  deriving DecidableEq

namespace Error

/-- The name of the kind of error in reports. -/
def kindName : Error → String
  | .range .. => "Range"
  | .solverBudget .. => "SolverBudget"
  | .missingVersion => "MissingVersion"
  | .unsupportedVersion _ => "UnsupportedVersion"
  | .unknownPreset _ => "UnknownPreset"
  | .unreadable .. => "Read"
  | .malformed => "Yaml"

def message : Error → String
  | .range field value least greatest hint =>
    field ++ " = " ++ toString value ++ " is outside " ++ toString least ++ "..="
      ++ toString greatest ++ " (" ++ hint ++ ")"
  | .solverBudget timeoutMs limitMs =>
    "solver timeout of " ++ toString timeoutMs ++ " ms does not fit the per-method budget of "
      ++ toString limitMs
      ++ " ms; lower smt.timeout_seconds or raise concolic.time_limit_ms"
  | .missingVersion =>
    "configuration has no `version` key, add `version: " ++ toString formatVersion
      ++ "` at the top"
  | .unsupportedVersion version =>
    "configuration version " ++ toString version ++ " is not supported, expected "
      ++ toString formatVersion
  | .unknownPreset name =>
    "unknown preset `" ++ name ++ "`, expected fast, balanced, thorough or custom"
  | .unreadable path cause => "cannot read configuration " ++ path ++ ": " ++ cause
  | .malformed => "malformed configuration"

end Error
end Concolic.Config
