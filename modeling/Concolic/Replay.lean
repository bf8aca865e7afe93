import Concolic.Program
import Concolic.Renaming
import Concolic.Trace

/-!
# Replaying a trace

The state of the path that a trace took through a method, found by following the trace with
a stack of frames. Each block adds the values its phis take from the previous block, its
body, and a path predicate for the successor that was taken. A call whose callee was traced
gives way to what the callee's frame gathered, with parameters, receiver and result bound to
the terms of the call and every other name marked `frameN`; the target's own frame keeps its
names.

The method entered may override the one that the call names, so traced calls are matched in
order against the call predicates of a block. What no predicate claims is dropped with the
block.
-/

namespace Concolic.Replay

/-- Whether a call that names one method can enter another. -/
def dispatches (program : Program) (site entered : Method) : Bool :=
  site == entered || (site.name == entered.name &&
    (site.descriptor == entered.descriptor ||
      program.hierarchy.isAncestor site.owner entered.owner))

/-- A call about to be made, in the names of the caller. -/
structure PendingCall where
  method : Method
  receiver : Option Term
  arguments : List Term
  target : Option Term

/-- A call whose callee has been followed to its end. -/
structure TracedCall where
  /-- The method that the call named; the one entered, if no call was announced. -/
  site : Method
  state : SymbolicState

structure Frame where
  method : Method
  /-- How the names of the method are changed; the target's stay. -/
  names : Option Renaming := none
  builder : StateBuilder Predicate := {}
  previous : Option BlockId := none
  /-- What takes the returned value in the caller. -/
  target : Option Term := none
  site : Method := method
  pending : Option PendingCall := none
  traced : List TracedCall := []

namespace Frame

def rename (f : Frame) (t : Term) : Term := f.names.elim t fun names => names.onTerm t

def renamePredicate (f : Frame) (p : Predicate) : Predicate :=
  f.names.elim p fun names => names.onPredicate p

def push (f : Frame) (role : Role) (assertion : Assertion Term) : Frame :=
  { f with builder := f.builder.push ⟨role, assertion, {}⟩ }

/-- Announce a call. -/
def announce (f : Frame) (call : PendingCall) : Frame :=
  { f with pending := some {
      method := call.method
      receiver := call.receiver.map f.rename
      arguments := call.arguments.map f.rename
      target := call.target.map f.rename } }

/-! ## Blocks -/

/-- The values that the phis take from the previous block. -/
def enterBlock (f : Frame) (phis : List Phi) : Frame :=
  match f.previous with
  | none => f
  | some previous =>
    phis.foldl (fun f phi =>
      match phi.from? previous with
      | some value => f.push .state (.equal (f.rename phi.target) (f.rename value))
      | none => f) f

/-- The method that a call predicate names. -/
def calledMethod? (p : Predicate) : Option Method :=
  match p.assertion with
  | .unary .call (.call _ method _ _) => some method
  | .binary .callInto _ (.call _ method _ _) => some method
  | _ => none

/-- The traced call that a predicate claims, with those after it. Earlier ones are lost. -/
def claim? (program : Program) (traced : List TracedCall) (p : Predicate) :
    Option (TracedCall × List TracedCall) := do
  let method ← calledMethod? p
  match traced.dropWhile fun call => !dispatches program method call.site with
  | [] => none
  | call :: rest => some (call, rest)

/-- Add a predicate of a body, or what was traced of the call that it is. -/
def addPredicate (program : Program) (f : Frame) (p : Predicate) : Frame :=
  match claim? program f.traced p with
  | some (call, rest) => { f with builder := f.builder.append call.state, traced := rest }
  | none => { f with builder := f.builder.push (f.renamePredicate p) }

/-- The condition under which a block passes control to the given one. -/
def addPassage (f : Frame) (terminator : Terminator) (next : Option BlockId) : Frame :=
  match terminator, next with
  | .branch condition whenTrue whenFalse, some next =>
    if whenTrue == whenFalse then f
    else if next == whenTrue then f.push .path (.equal (f.rename condition) (.bool true))
    else if next == whenFalse then f.push .path (.equal (f.rename condition) (.bool false))
    else f
  | .switch key cases default, some next =>
    match cases.find? fun entry => entry.2 == next with
    | some (value, _) => f.push .path (.equal (f.rename key) value)
    | none =>
      if next == default then
        cases.foldl (fun f entry => f.push .path (.unequal (f.rename key) entry.1)) f
      else
        f
  | _, _ => f

/-- The value that a block returns. -/
def returnedValue? (f : Frame) : Terminator → Option Term
  | .return (some value) => some (f.rename value)
  | _ => none

/-- Replay a block that leads to `next`, and give the value that it returns. -/
def replayBlock (program : Program) (f : Frame) (method : Method) (id : BlockId)
    (next : Option BlockId) : Except Failure (Frame × Option Term) := do
  if f.method ≠ method then throw (.execution (.leftFrame id method f.method))
  let some block := ← program.block? method id | throw (.program (.unknownBlock id method))
  let f := block.body.foldl (addPredicate program) (f.enterBlock block.phis)
  let f := { f with traced := [] }
  return (f.addPassage block.terminator next, f.returnedValue? block.terminator)

/-- Bind the returned value: in the target's frame to the result of the method, in a nested
one to what takes it in the caller. -/
def bindResult (program : Program) (f : Frame) (isTarget : Bool) (value : Term) : Frame :=
  let taker :=
    if isTarget then
      let type := ((program.method? f.method).map (·.result)).getD value.type
      some (Term.result type f.method)
    else
      f.target
  taker.elim f fun taker => f.push .state (.equal taker value)

end Frame

/-- The frame of a method entered from another, given the call that was announced for it. -/
def nestedFrame (program : Program) (method : Method) (call : Option PendingCall)
    (number : Nat) : Frame :=
  let suffix := "frame" ++ toString number
  match call with
  | none => { method, names := some { suffix } }
  | some call =>
    let declared := ((program.method? method).map (·.arguments)).getD []
    let receiver := call.receiver.toList.map fun r => (Term.this (.class method.owner), r)
    let arguments := call.arguments.mapIdx fun index actual =>
      (Term.argument (declared[index]?.getD actual.type) index, actual)
    { method
      names := some ⟨suffix, (receiver ++ arguments).reverse⟩
      target := call.target
      site := call.method }

/-- What is left of a trace that ends early: unfinished frames belong to their callers. -/
def unfinished (frames : List Frame) : SymbolicState :=
  frames.foldl (fun s f => f.builder.toState.concat s) .empty

/-- Hand a finished callee over to its caller, which may claim it. -/
def Frame.receive (caller callee : Frame) : Frame :=
  { caller with traced := caller.traced ++ [⟨callee.site, callee.builder.toState⟩] }

/-- Go on in the caller of a finished frame, or be done. -/
def leave (frame : Frame) (below : List Frame)
    (goOn : List Frame → Except Failure SymbolicState) : Except Failure SymbolicState :=
  match below with
  | [] => .ok frame.builder.toState.simplify
  | caller :: below => goOn (caller.receive frame :: below)

/-- Follow the events with a stack of frames, the innermost first; `entered` counts the
nested frames so far. -/
def follow (program : Program) : Trace → (frames : List Frame) → (entered : Nat) →
    Except Failure SymbolicState
  | [], frames, _ => .ok (unfinished frames).simplify
  | .entered method :: rest, [], entered => follow program rest [{ method }] entered
  | .entered method :: rest, caller :: below, entered =>
    let call := caller.pending.filter fun call => dispatches program call.method method
    let frame := nestedFrame program method call (entered + 1)
    follow program rest (frame :: { caller with pending := none } :: below) (entered + 1)
  | .called method receiver arguments target :: rest, frame :: below, entered =>
    follow program rest (frame.announce ⟨method, receiver, arguments, target⟩ :: below) entered
  | .passed method block :: rest, frame :: below, entered => do
    let (frame, _) ← frame.replayBlock program method block (Trace.nextBlock? 0 rest)
    follow program rest ({ frame with previous := some block } :: below) entered
  | .returned method block :: rest, frame :: below, entered => do
    let (frame, value) ← frame.replayBlock program method block none
    let frame := value.elim frame (frame.bindResult program below.isEmpty)
    leave frame below fun frames => follow program rest frames entered
  | .threw method block _ :: rest, frame :: below, entered => do
    let (frame, _) ← frame.replayBlock program method block none
    leave frame below fun frames => follow program rest frames entered
  | _ :: rest, frames, entered => follow program rest frames entered

/-- The state of the path that a trace took through a method. -/
def build (program : Program) (target : Method) (trace : Trace) : Except Failure SymbolicState :=
  follow program (trace.relevant target) [] 0

end Concolic.Replay
