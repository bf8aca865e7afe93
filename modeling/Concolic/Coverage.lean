import Concolic.BinaryFloat.Decimal
import Concolic.Program
import Concolic.Trace

/-!
# Coverage

The blocks of each method that any recorded trace has passed through, whichever method the
trace was recorded for, and the number of traces recorded for each method.
-/

namespace Concolic

structure Coverage where
  /-- Methods with the blocks that one recorded trace has passed through. -/
  blocks : List (Method × List BlockId) := []
  /-- The method of each recorded trace. -/
  recorded : List Method := []

namespace Coverage

/-- Add a trace of a method. -/
def record (c : Coverage) (method : Method) (trace : Trace) : Coverage where
  blocks := c.blocks ++ trace.methods.map fun m => (m, trace.visitedBlocks m)
  recorded := c.recorded ++ [method]

/-- The blocks of a method that are covered, each once. -/
def covered (c : Coverage) (method : Method) : List BlockId :=
  ((c.blocks.filter fun entry => entry.1 == method).flatMap (·.2)).eraseDups

/-- The number of traces recorded for a method. -/
def traceCount (c : Coverage) (method : Method) : Nat := c.recorded.count method

/-- Whether a method has blocks and all of them are covered. -/
def isCovered (c : Coverage) (program : Program) (method : Method) : Bool :=
  let blocks := program.blocks method
  !blocks.isEmpty && blocks.all (c.covered method).contains

/-- The fraction of the blocks of a method that are covered; zero if it has none. -/
def fraction (c : Coverage) (program : Program) (method : Method) : Double :=
  let blocks := program.blocks method
  if blocks.isEmpty then .zero false
  else .ofRatio false (blocks.countP (c.covered method).contains) blocks.length

end Coverage
end Concolic
