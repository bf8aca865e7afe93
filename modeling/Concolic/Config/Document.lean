import Concolic.Config.Validation
import Concolic.Yaml.Document.Parser

/-!
# Configuration documents

The text form of settings: a version, a preset and settings that take the place of those of
the preset. A stage that is given at all is given as a whole: what it leaves out has its
usual value, not that of the preset. The written form spells out every stage.
-/

namespace Concolic.Config

/-! ## Writing -/

/-- A line of a document: an indented key with its value. -/
def line (depth : Nat) (key value : String) : String :=
  String.ofList (List.replicate (2 * depth) ' ') ++ key ++ ":"
    ++ (if value.isEmpty then "" else " " ++ value) ++ "\n"

/-- The lines of one stage. -/
def Settings.stageLines (s : Settings) (stage : Stage) : List String :=
  line 1 stage.key "" :: (Field.ofStage stage).map fun f => line 2 f.key (f.get s).text

/-- The written form of settings. -/
def Settings.write (s : Settings) : String :=
  String.join ([line 0 "version" (toString formatVersion), line 0 "preset" s.preset.name,
    line 0 "overrides" ""] ++ Stage.all.flatMap s.stageLines)

/-! ## Reading -/

/-- Read a value of the same kind as another. -/
def Value.read? : (like : Value) → Yaml.Scalar → Option Value
  | .number _, s => (s.natural? UInt64.size).map .number
  | .truth _, s => s.truth?.map .truth
  | .visibility _, s => (s.choice?.bind Visibility.ofName?).map .visibility

/-- A value that need not be there. -/
def optional? {α : Type} (d : Yaml.Document) (read : Yaml.Node → Option α) (node : Yaml.Node) :
    Option (Option α) := do
  if ← d.isGiven? node then (read node).map some else return none

/-- The stages that a document gives, each with the fields that it sets. -/
abbrev Overrides := List (Stage × List (Field × Value))

namespace Overrides

/-- Whether a stage is given. -/
def gives (o : Overrides) (stage : Stage) : Bool := o.any (·.1 == stage)

/-- The fields that a stage sets. -/
def fields? (d : Yaml.Document) (stage : Stage) (node : Yaml.Node) :
    Option (List (Field × Value)) := do
  let fields := Field.ofStage stage
  let entries ← d.record? (fields.map (·.key)) node
  entries.mapM fun (key, node) => do
    let f ← fields.find? (·.key == key)
    return (f, ← (f.get {}).read? (← d.scalar? node))

/-- The stages that a record gives; null gives none. -/
def read? (d : Yaml.Document) (node : Yaml.Node) : Option Overrides := do
  let entries ← d.record? (Stage.all.map (·.key)) node
  let given ← entries.mapM fun (key, node) => do
    let stage ← Stage.all.find? (·.key == key)
    return (← optional? d (fields? d stage) node).map (stage, ·)
  return given.filterMap id

/-- The settings of a preset with the given stages in the place of its own. -/
def apply (o : Overrides) (preset : Preset) : Settings :=
  o.foldl (fun s (stage, values) =>
    values.foldl (fun s (f, v) => f.set s v) (stage.reset s)) (Settings.ofPreset preset)

end Overrides

/-- What a document says, before anything is made of it. -/
structure Document where
  version : Option Nat
  preset : String
  overrides : Overrides

/-- An entry that may be missing or null. -/
def entry? {α : Type} (d : Yaml.Document) (entries : List (String × Yaml.Node)) (key : String)
    (read : Yaml.Node → Option α) : Option (Option α) :=
  (entries.lookup key).elim (some none) (optional? d read)

def Document.ofYaml? (d : Yaml.Document) : Option Document := do
  let entries ← d.record? ["version", "preset", "overrides"] d.root
  return {
    version := ← entry? d entries "version" fun node =>
      (d.scalar? node).bind (·.natural? UInt32.size)
    preset := (← d.scalar? (← entries.lookup "preset")).text
    overrides := (← entry? d entries "overrides" (Overrides.read? d)).getD [] }

/-- Read and validate settings. -/
def read (text : String) : Except Error Validated := do
  let some document := (Yaml.Document.ofText? text).bind Document.ofYaml? | throw .malformed
  let some version := document.version | throw .missingVersion
  if version ≠ formatVersion then throw (.unsupportedVersion version)
  let some preset := Preset.ofName? document.preset | throw (.unknownPreset document.preset)
  (document.overrides.apply preset).build

/-- A file that is not there. -/
def absentFile (path : String) : Error :=
  .unreadable path "No such file or directory (os error 2)"

end Concolic.Config
