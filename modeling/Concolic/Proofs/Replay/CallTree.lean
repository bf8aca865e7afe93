import Concolic.Replay

/-!
# Call trees

A run seen as a tree: a frame passes through blocks to its end, and while a block runs its
calls enter frames of their own. The tree is recorded as a trace by writing its events one
after the other, and read as a path condition by flattening it, frame by frame, with no stack
and no look ahead. Replaying the one gives the other; that is shown in
`Concolic.Proofs.Replay.Flattening`.
-/

namespace Concolic.Replay

/-- How a frame ends. -/
inductive Ending where
  | returned
  | threw (value : Term)

mutual

/-- The blocks that a frame passes through, each with its calls, to the end of the frame. -/
inductive Visits where
  | last (id : BlockId) (block : Block) (calls : Calls) (ending : Ending)
  | next (id : BlockId) (block : Block) (calls : Calls) (rest : Visits)

/-- The calls of a block, in order: what is announced in the names of the caller, the method
entered, and the blocks that its frame passes through. -/
inductive Calls where
  | done
  | call (announced : PendingCall) (entered : Method) (visits : Visits) (rest : Calls)

end

/-- A run of a method. -/
structure CallTree where
  method : Method
  visits : Visits

/-- The block that a frame leaves first. -/
def Visits.first : Visits → BlockId
  | .last id _ _ _ => id
  | .next id _ _ _ => id

mutual

/-- The number of frames that are entered while blocks are passed through. -/
def Visits.entries : Visits → Nat
  | .last _ _ calls _ => calls.entries
  | .next _ _ calls rest => calls.entries + rest.entries

def Calls.entries : Calls → Nat
  | .done => 0
  | .call _ _ visits rest => 1 + visits.entries + rest.entries

end

/-! ## Events -/

/-- The event that announces a call. -/
def PendingCall.event (call : PendingCall) : Event :=
  .called call.method call.receiver call.arguments call.target

/-- The event that ends a frame in a block. -/
def Ending.event (method : Method) (id : BlockId) : Ending → Event
  | .returned => .returned method id
  | .threw value => .threw method id value

mutual

/-- The events of a frame of the method behind its entry. A block is reported when it is
left, so the events of its calls come first. -/
def Visits.events (method : Method) : Visits → Trace
  | .last id _ calls ending => calls.events ++ [ending.event method id]
  | .next id _ calls rest => calls.events ++ .passed method id :: rest.events method

def Calls.events : Calls → Trace
  | .done => []
  | .call announced entered visits rest =>
    announced.event :: .entered entered :: (visits.events entered ++ rest.events)

end

/-- The events of a run, in the order in which they happen. -/
def CallTree.events (tree : CallTree) : Trace :=
  .entered tree.method :: tree.visits.events tree.method

/-! ## Fitting trees -/

/-- The methods that calls name. -/
def Calls.sites : Calls → List Method
  | .done => []
  | .call announced _ _ rest => announced.method :: rest.sites

mutual

/-- Every block is the one that the program knows, and its call predicates name the methods
of its calls, one by one. -/
def Visits.Fits (program : Program) (method : Method) : Visits → Prop
  | .last id block calls _ => program.block? method id = .ok (some block) ∧
      block.body.filterMap Frame.calledMethod? = calls.sites ∧ calls.Fits program
  | .next id block calls rest => program.block? method id = .ok (some block) ∧
      block.body.filterMap Frame.calledMethod? = calls.sites ∧ calls.Fits program ∧
      rest.Fits program method

/-- Every call enters a method to which the one it names can dispatch. -/
def Calls.Fits (program : Program) : Calls → Prop
  | .done => True
  | .call announced entered visits rest => dispatches program announced.method entered = true ∧
      visits.Fits program entered ∧ rest.Fits program

end

/-- The tree is one of runs of the program. -/
def CallTree.Fits (program : Program) (tree : CallTree) : Prop :=
  tree.visits.Fits program tree.method

/-! ## Flattening -/

/-- How a frame changes its names; the names of the target's own frame stay. -/
abbrev Names := Option Renaming

def Names.term (names : Names) (t : Term) : Term := names.elim t fun r => r.onTerm t

def Names.predicate (names : Names) (p : Predicate) : Predicate :=
  names.elim p fun r => r.onPredicate p

/-- The clause that assigns a value. -/
def assignment (target value : Term) : Predicate := ⟨.state, .equal target value, {}⟩

/-- What the phis of a block take from the previous block of the frame. -/
def phiBindings (names : Names) (previous : Option BlockId) (phis : List Phi) : List Predicate :=
  previous.toList.flatMap fun id => phis.flatMap fun phi =>
    (phi.from? id).toList.map fun value => assignment (names.term phi.target) (names.term value)

/-- A body with its call predicates replaced in place, the others renamed. -/
def spliced (names : Names) : List Predicate → List (List Predicate) → List Predicate
  | [], _ => []
  | p :: body, callees =>
    match Frame.calledMethod? p, callees with
    | some _, callee :: callees => callee ++ spliced names body callees
    | _, callees => names.predicate p :: spliced names body callees

/-- The branch conditions under which a block passes control to the next. -/
def passage (names : Names) (next : BlockId) : Terminator → List Predicate
  | .branch condition whenTrue whenFalse =>
    if whenTrue = whenFalse then []
    else if next = whenTrue then [⟨.path, .equal (names.term condition) (.bool true), {}⟩]
    else if next = whenFalse then [⟨.path, .equal (names.term condition) (.bool false), {}⟩]
    else []
  | .switch key cases default =>
    match cases.find? fun entry => entry.2 == next with
    | some (value, _) => [⟨.path, .equal (names.term key) value, {}⟩]
    | none =>
      if next = default then
        cases.map fun entry => ⟨.path, .unequal (names.term key) entry.1, {}⟩
      else []
  | .jump _ | .return _ | .throw _ | .unreachable => []

/-- What a frame that ends assigns to the term that takes its value. -/
def resultBinding (names : Names) (taker : Term → Option Term) : Ending → Terminator →
    List Predicate
  | .returned, .return (some value) =>
    (taker (names.term value)).toList.map fun target => assignment target (names.term value)
  | _, _ => []

/-- The names of a frame entered by a call: the receiver and the arguments are those of the
call, and every other name is marked with the number of the frame. -/
def calleeNames (program : Program) (caller : Names) (announced : PendingCall) (entered : Method)
    (number : Nat) : Names :=
  let declared := ((program.method? entered).map (·.arguments)).getD []
  let receiver := (announced.receiver.map caller.term).toList.map fun actual =>
    (Term.this (.class entered.owner), actual)
  let arguments := (announced.arguments.map caller.term).mapIdx fun index actual =>
    (Term.argument (declared[index]?.getD actual.type) index, actual)
  some ⟨"frame" ++ toString number, (receiver ++ arguments).reverse⟩

mutual

/-- The predicates of a frame behind the given block, with `number` frames entered before. -/
def Visits.flatten (program : Program) (names : Names) (taker : Term → Option Term)
    (previous : Option BlockId) (number : Nat) : Visits → List Predicate
  | .last _ block calls ending =>
    phiBindings names previous block.phis ++
      spliced names block.body (calls.flatten program names number) ++
      resultBinding names taker ending block.terminator
  | .next id block calls rest =>
    phiBindings names previous block.phis ++
      spliced names block.body (calls.flatten program names number) ++
      passage names rest.first block.terminator ++
      rest.flatten program names taker (some id) (number + calls.entries)

/-- The predicates of each callee. Frames are numbered from one in the order of entry. -/
def Calls.flatten (program : Program) (names : Names) (number : Nat) :
    Calls → List (List Predicate)
  | .done => []
  | .call announced entered visits rest =>
    visits.flatten program (calleeNames program names announced entered (number + 1))
        (fun _ => announced.target.map names.term) none (number + 1) ::
      rest.flatten program names (number + 1 + visits.entries)

end

/-- The term that stands for the result of the method under analysis. -/
def resultTerm (program : Program) (method : Method) (value : Term) : Term :=
  .result (((program.method? method).map (·.result)).getD value.type) method

/-- The path of a run, found by recursion on its tree. -/
def CallTree.flatten (program : Program) (tree : CallTree) : List Predicate :=
  tree.visits.flatten program none (fun value => some (resultTerm program tree.method value))
    none 0

end Concolic.Replay
