import Concolic.State.Basic

/-!
# Building states

A builder gathers parts one by one and seals them into a state when something else is
appended. A stack of builders serves walks over choices: each alternative is gathered in a
builder of its own, which is then sealed and taken off.
-/

namespace Concolic

structure StateBuilder (α : Type) where
  /-- What came before the pending parts. -/
  finished : State α := .empty
  /-- The parts pushed since, in order. -/
  pending : List α := []

namespace StateBuilder

variable {α : Type}

/-- A builder that goes on from a state. -/
def ofState (s : State α) : StateBuilder α := { finished := s }

def isEmpty (b : StateBuilder α) : Bool := b.pending.isEmpty && b.finished.isEmpty

def push (b : StateBuilder α) (a : α) : StateBuilder α :=
  { b with pending := b.pending ++ [a] }

/-- Everything gathered so far, as one state. -/
def toState (b : StateBuilder α) : State α :=
  if b.pending.isEmpty then b.finished else b.finished.concat (.basic b.pending)

def append (b : StateBuilder α) (s : State α) : StateBuilder α :=
  { finished := b.toState.concat s }

/-- Append a choice with one continuation per alternative. -/
def addChoice (b : StateBuilder α) (alternatives : List (State α)) : StateBuilder α :=
  b.append (.choice alternatives)

@[simp] theorem items_toState_ofState (s : State α) : (ofState s).toState.items = s.items := by
  simp [ofState, toState]

theorem items_toState (b : StateBuilder α) :
    b.toState.items = b.finished.items ++ b.pending.map .part := by
  unfold toState
  split
  · next h => simp_all
  · simp

@[simp] theorem items_toState_push (b : StateBuilder α) (a : α) :
    (b.push a).toState.items = b.toState.items ++ [.part a] := by
  simp [items_toState, push]

@[simp] theorem items_toState_append (b : StateBuilder α) (s : State α) :
    (b.append s).toState.items = b.toState.items ++ s.items := by
  rw [items_toState]
  simp [append]

end StateBuilder

/-- Builders, the one in use first. -/
structure BuilderStack (α : Type) where
  builders : List (StateBuilder α) := [{}]

namespace BuilderStack

variable {α : Type}

/-- Change the builder in use; on an empty stack, a new one. -/
def onTop (st : BuilderStack α) (change : StateBuilder α → StateBuilder α) : BuilderStack α :=
  match st.builders with
  | [] => ⟨[change {}]⟩
  | top :: below => ⟨change top :: below⟩

def pushFresh (st : BuilderStack α) : BuilderStack α := ⟨{} :: st.builders⟩

/-- What the builder in use has gathered. -/
def topState (st : BuilderStack α) : State α :=
  match st.builders with
  | [] => .empty
  | top :: _ => top.toState

/-- Seal the builder in use and take it off. -/
def pop (st : BuilderStack α) : State α × BuilderStack α :=
  (st.topState, ⟨st.builders.tail⟩)

def depth (st : BuilderStack α) : Nat := st.builders.length

@[simp] theorem depth_pushFresh (st : BuilderStack α) : st.pushFresh.depth = st.depth + 1 := rfl

@[simp] theorem pop_pushFresh (st : BuilderStack α) : st.pushFresh.pop.2 = st := rfl

end BuilderStack
end Concolic
