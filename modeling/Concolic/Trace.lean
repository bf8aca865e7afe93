import Concolic.Term.Basic

/-!
# Traces

What an instrumented run has recorded. A block is reported when control leaves it, so its
own predicates, calls among them, hold by then.
-/

namespace Concolic

inductive Event where
  | entered (method : Method)
  /-- Control passed from a block of the method to another one. -/
  | passed (method : Method) (block : BlockId)
  /-- The method returned from a block. -/
  | returned (method : Method) (block : BlockId)
  /-- The method threw out of a block. -/
  | threw (method : Method) (block : BlockId) (value : Term)
  /-- A call is about to be made; the terms are those of the caller. -/
  | called (method : Method) (receiver : Option Term) (arguments : List Term)
      (target : Option Term)
  /-- The initialization of a class starts. -/
  | initializing (className : String)
  /-- The initialization of a class is over. -/
  | initialized (className : String)

namespace Event

/-- The block that control left. -/
def block? : Event → Option BlockId
  | .passed _ block | .returned _ block | .threw _ block _ => some block
  | .entered _ | .called .. | .initializing _ | .initialized _ => none

def method? : Event → Option Method
  | .entered method | .passed method _ | .returned method _ | .threw method _ _
  | .called method _ _ _ => some method
  | .initializing _ | .initialized _ => none

end Event

abbrev Trace := List Event

namespace Trace

/-- The blocks of a method that the trace passed through, each once. -/
def visitedBlocks (trace : Trace) (method : Method) : List BlockId :=
  ((trace.filter fun e => e.method? == some method).filterMap Event.block?).eraseDups

/-- The methods that the trace mentions, each once. -/
def methods (trace : Trace) : List Method := (trace.filterMap Event.method?).eraseDups

/-- The trace without what happened while classes were initialized. -/
def outsideInitializers : (level : Nat) → Trace → Trace
  | _, [] => []
  | level, .initializing _ :: rest => outsideInitializers (level + 1) rest
  | level, .initialized _ :: rest => outsideInitializers (level - 1) rest
  | level, e :: rest =>
    if level = 0 then e :: outsideInitializers level rest else outsideInitializers level rest

/-- Whether an event enters the method. -/
def isEntry (target : Method) : Event → Bool
  | .entered method => method == target
  | _ => false

/-- What concerns a method: from its first entry on, without class initialization. -/
def relevant (trace : Trace) (target : Method) : Trace :=
  (trace.outsideInitializers 0).dropWhile fun e => !isEntry target e

/-- The block that the current frame leaves next; nested frames are passed over. -/
def nextBlock? : (depth : Nat) → Trace → Option BlockId
  | _, [] => none
  | depth, .entered _ :: rest => nextBlock? (depth + 1) rest
  | depth + 1, .returned _ _ :: rest => nextBlock? depth rest
  | depth + 1, .threw _ _ _ :: rest => nextBlock? depth rest
  | 0, e :: rest => e.block?.or (nextBlock? 0 rest)
  | depth + 1, _ :: rest => nextBlock? (depth + 1) rest

end Trace
end Concolic
