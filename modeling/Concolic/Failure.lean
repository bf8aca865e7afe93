import Concolic.Config.Error
import Concolic.Model

/-!
# Failures

What can go wrong during a search, by cause, and how far each failure reaches: one attempt,
the method under analysis, or the whole run.
-/

namespace Concolic

/-- How far a failure reaches. -/
inductive Severity where
  | attempt
  | method
  | run
  deriving DecidableEq, Repr

/-- Why a model could not be turned into concrete values. -/
inductive ReanimationFault where
  /-- A value that a slot of the type cannot hold. -/
  | unreadable (value : ModelValue) (type : ValueType)
  /-- A heap address that leads to something of a type without instances. -/
  | notReference (address : Nat) (type : ValueType)

def ReanimationFault.message : ReanimationFault → String
  | .unreadable value type => "cannot read " ++ value.text ++ " as " ++ type.text
  | .notReference address type =>
    "address 0x" ++ Text.hex address ++ " holds a non-reference type " ++ type.text

/-- Why an execution or its trace is of no use. -/
inductive ExecutionFault where
  | reported (message : String)
  /-- A block event of another method than the one the frame runs. -/
  | leftFrame (block : BlockId) (traced frame : Method)

def ExecutionFault.message : ExecutionFault → String
  | .reported message => message
  | .leftFrame block traced frame =>
    "trace leaves " ++ block.text ++ " of " ++ traced.text ++ " inside a frame of " ++ frame.text

/-- Why the model of the program cannot answer. -/
inductive ProgramFault where
  | reported (message : String)
  | unknownBlock (block : BlockId) (method : Method)

def ProgramFault.message : ProgramFault → String
  | .reported message => message
  | .unknownBlock block method => "unknown block " ++ block.text ++ " of " ++ method.text

inductive Failure where
  /-- Operand types without a common type. -/
  | typeMerge (types : List ValueType)
  /-- A class that cannot be instantiated and has no subtype that can. -/
  | noConcreteInstance (className : String)
  /-- A predicate between literals that can never hold. -/
  | contradiction (predicate : Predicate)
  /-- An integer operation with a zero divisor. -/
  | zeroDivisor (op : Arithmetic)
  | reanimation (fault : ReanimationFault)
  | execution (fault : ExecutionFault)
  | program (fault : ProgramFault)
  | cancelled
  | config (error : Config.Error)

def Severity.name : Severity → String
  | .attempt => "Attempt"
  | .method => "Method"
  | .run => "Run"

namespace Failure

/-- The name of the kind of failure in reports. -/
def kindName : Failure → String
  | .typeMerge _ => "TypeMerge"
  | .noConcreteInstance _ => "NoConcreteInstance"
  | .contradiction _ => "Contradiction"
  | .zeroDivisor _ => "Arithmetic"
  | .reanimation _ => "Reanimation"
  | .execution _ => "Execution"
  | .program _ => "ProgramModel"
  | .cancelled => "Cancelled"
  | .config _ => "Config"

def severity : Failure → Severity
  | .contradiction _ => .run
  | .typeMerge _ | .program _ | .config _ => .method
  | .noConcreteInstance _ | .zeroDivisor _ | .reanimation _ | .execution _ | .cancelled => .attempt

def message : Failure → String
  | .typeMerge types =>
    "Type merge error: cannot merge [" ++ ", ".intercalate (types.map ValueType.text) ++ "]"
  | .noConcreteInstance className => "No concrete instance for class " ++ className
  | .contradiction predicate => "Obvious contradiction detected: " ++ predicate.text
  | .zeroDivisor op => "Arithmetic fault: " ++ op.symbol ++ " by zero"
  | .reanimation fault => "Reanimation error: " ++ fault.message
  | .execution fault => "Execution error: " ++ fault.message
  | .program fault => "Program model error: " ++ fault.message
  | .cancelled => "Cancelled"
  | .config error => "Configuration error: " ++ error.message

end Failure

/-- Of two steps that may fail, both have succeeded when their sequence has. -/
theorem bind_eq_ok {ε α β : Type} {x : Except ε α} {f : α → Except ε β} {b : β} :
    (x >>= f) = .ok b ↔ ∃ a, x = .ok a ∧ f a = .ok b := by
  cases x <;> simp [bind, Except.bind]

end Concolic
