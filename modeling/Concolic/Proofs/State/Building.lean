import Concolic.Proofs.State.Sifting
import Concolic.State.Builder

/-!
# What builders gather

A builder keeps what it has sealed apart from the parts pushed since, and puts them together only
when it must. Seen from outside it is a run of items: each call puts its own items at the end, and
looking at the state in between changes nothing. A builder on a stack is such a run as well,
whatever is pushed and taken off above it.

## Main definitions

* `StateBuilder.Call`, `StateBuilder.Call.items` — the calls that put something in, and what.
* `StateBuilder.Step`, `BuilderStack.Command` — these calls among everything else that is asked.
* `BuilderStack.Balanced` — commands that take off what they have pushed, with the calls that are
  for the builder in use.

## Main statements

* `StateBuilder.items_toState_run` — a builder holds the items of its calls, in order.
* `BuilderStack.Balanced.items_topState_and_tail` — so does the builder in use, and those below it
  are left alone.
* `BuilderStack.builders_hold_items_in_order` — both, with every state that is asked for on the way.
-/

namespace Concolic

open State (Item)

/-- What comes out of inputs one after another, and what they lead to. -/
def runAll {ι σ ο : Type} (step : ι → σ → List ο × σ) : List ι → σ → List ο × σ
  | [], s => ([], s)
  | i :: inputs, s =>
    ((step i s).1 ++ (runAll step inputs (step i s).2).1, (runAll step inputs (step i s).2).2)

theorem runAll_append {ι σ ο : Type} (step : ι → σ → List ο × σ) (before after : List ι) (s : σ) :
    runAll step (before ++ after) s =
      ((runAll step before s).1 ++ (runAll step after (runAll step before s).2).1,
        (runAll step after (runAll step before s).2).2) := by
  induction before generalizing s with
  | nil => rfl
  | cons i before ih => simp [runAll, ih]

variable {α : Type}

namespace StateBuilder

/-! ## One builder -/

/-- A call that puts something into a builder. -/
inductive Call (α : Type) where
  | push (a : α)
  | append (s : State α)
  | choice (alternatives : List (State α))

namespace Call

def apply : Call α → StateBuilder α → StateBuilder α
  | .push a, b => b.push a
  | .append s, b => b.append s
  | .choice alternatives, b => b.addChoice alternatives

/-- The items of a call. A choice with nothing in any alternative has none. -/
def items : Call α → List (Item α)
  | .push a => [.part a]
  | .append s => s.items
  | .choice alternatives =>
    if alternatives.all State.isEmpty then [] else [.branch (alternatives.map State.items)]

/-- The items of calls, one call after another. -/
def itemsOf (calls : List (Call α)) : List (Item α) := calls.flatMap items

@[simp] theorem itemsOf_nil : itemsOf ([] : List (Call α)) = [] := rfl

@[simp] theorem itemsOf_cons (c : Call α) (calls : List (Call α)) :
    itemsOf (c :: calls) = c.items ++ itemsOf calls := List.flatMap_cons

/-- A call puts its items behind those that are there, whatever is sealed and whatever is still
pending. -/
@[simp] theorem items_toState_apply (c : Call α) (b : StateBuilder α) :
    (c.apply b).toState.items = b.toState.items ++ c.items := by
  cases c with
  | push a => exact items_toState_push b a
  | append s => exact items_toState_append b s
  | choice alternatives =>
    have hall : (alternatives.map State.items).all List.isEmpty = alternatives.all State.isEmpty :=
      List.all_map
    rw [apply, addChoice, items_toState_append, State.items_choice, State.itemsOfAll_eq_map, hall,
      items]

end Call

/-- What is asked of a builder: a call, or its state. -/
inductive Step (α : Type) where
  | call (c : Call α)
  | peek

/-- The calls among steps, in order. -/
def calls : List (Step α) → List (Call α)
  | [] => []
  | .call c :: steps => c :: calls steps
  | .peek :: steps => calls steps

/-- What a step gives out, and the builder behind it. -/
def step : Step α → StateBuilder α → List (State α) × StateBuilder α
  | .call c, b => ([], c.apply b)
  | .peek, b => ([b.toState], b)

/-- The states that were asked for, in order, and the builder in the end. -/
def run : List (Step α) → StateBuilder α → List (State α) × StateBuilder α := runAll step

/-- What a builder holds after any steps, whichever of them only look. -/
theorem items_toState_run (steps : List (Step α)) (b : StateBuilder α) :
    (run steps b).2.toState.items = b.toState.items ++ Call.itemsOf (calls steps) := by
  induction steps generalizing b with
  | nil => simp [run, runAll, calls]
  | cons step steps ih =>
    cases step with
    | call c =>
      rw [calls, Call.itemsOf_cons, ← List.append_assoc, ← Call.items_toState_apply]
      exact ih (c.apply b)
    | peek => exact ih b

end StateBuilder

namespace BuilderStack

open StateBuilder (Call)

/-! ## A stack of builders -/

/-- What is asked of a stack of builders. -/
inductive Command (α : Type) where
  /-- A call of the builder in use. -/
  | call (c : Call α)
  /-- The state of the builder in use. -/
  | current
  | pushFresh
  | pop

/-- What a command gives out, and the stack behind it. -/
def step : Command α → BuilderStack α → List (State α) × BuilderStack α
  | .call c, st => ([], st.onTop c.apply)
  | .current, st => ([st.topState], st)
  | .pushFresh, st => ([], st.pushFresh)
  | .pop, st => ([st.pop.1], st.pop.2)

/-- The states that come out, in order, and the stack in the end. -/
def run : List (Command α) → BuilderStack α → List (State α) × BuilderStack α := runAll step

/-- A run that pushes a builder and takes one off later, cut at both. -/
theorem run_pushed (inner after : List (Command α)) (st : BuilderStack α) :
    let done := run inner st.pushFresh
    let rest := run after done.2.pop.2
    run (.pushFresh :: inner ++ .pop :: after) st =
      (done.1 ++ done.2.topState :: rest.1, rest.2) :=
  runAll_append step inner (.pop :: after) st.pushFresh

/-- Commands that take off each builder they push and no other, and the calls among them that are
for the builder that was in use before. -/
inductive Balanced : List (Command α) → List (Call α) → Prop where
  | nil : Balanced [] []
  | call {commands : List (Command α)} {own : List (Call α)} (c : Call α) :
      Balanced commands own → Balanced (.call c :: commands) (c :: own)
  | current {commands : List (Command α)} {own : List (Call α)} :
      Balanced commands own → Balanced (.current :: commands) own
  | fresh {inner commands : List (Command α)} {innerOwn own : List (Call α)} :
      Balanced inner innerOwn → Balanced commands own →
      Balanced (.pushFresh :: inner ++ .pop :: commands) own

@[simp] theorem items_topState_onTop (st : BuilderStack α) (c : Call α) :
    (st.onTop c.apply).topState.items = st.topState.items ++ c.items := by
  obtain ⟨builders⟩ := st
  cases builders with
  | nil => exact c.items_toState_apply {}
  | cons top below => exact c.items_toState_apply top

@[simp] theorem tail_onTop (st : BuilderStack α) (c : Call α) :
    (st.onTop c.apply).builders.tail = st.builders.tail := by
  obtain ⟨builders⟩ := st
  cases builders <;> rfl

@[simp] theorem items_topState_pushFresh (st : BuilderStack α) :
    st.pushFresh.topState.items = [] := by
  simp [pushFresh, topState, StateBuilder.toState]

/-- Taking off the builder in use leaves the stack it stood on. -/
theorem pop_of_tail {st below : BuilderStack α} (h : st.builders.tail = below.builders) :
    st.pop.2 = below := by
  rw [pop, h]

namespace Balanced

variable {commands : List (Command α)} {own : List (Call α)}

/-- Balanced commands leave the builders below the one in use as they are, and put the items of
its own calls into the one in use. -/
theorem items_topState_and_tail (h : Balanced commands own) (st : BuilderStack α) :
    (run commands st).2.topState.items = st.topState.items ++ Call.itemsOf own ∧
      (run commands st).2.builders.tail = st.builders.tail := by
  induction h generalizing st with
  | nil => simp [run, runAll]
  | call c _ ih =>
    obtain ⟨hitems, htail⟩ := ih (st.onTop c.apply)
    refine ⟨?_, htail.trans (tail_onTop st c)⟩
    rw [Call.itemsOf_cons, ← List.append_assoc, ← items_topState_onTop]
    exact hitems
  | current _ ih => exact ih st
  | @fresh inner commands innerOwn own _ _ ihInner ih =>
    -- the builder pushed is the one taken off, so the rest starts from the very same stack
    have hback : (run inner st.pushFresh).2.pop.2 = st := pop_of_tail (ihInner st.pushFresh).2
    have hrun : (run (.pushFresh :: inner ++ .pop :: commands) st).2 = (run commands st).2 := by
      rw [run_pushed, hback]
    rw [hrun]
    exact ih st

/-- The builder in use comes off with the items of its own calls, and the stack is the one it was
pushed on. -/
theorem run_fresh (h : Balanced commands own) (st : BuilderStack α) (after : List (Command α)) :
    ∃ t : State α, t.items = Call.itemsOf own ∧
      run (.pushFresh :: commands ++ .pop :: after) st =
        ((run commands st.pushFresh).1 ++ t :: (run after st).1, (run after st).2) := by
  obtain ⟨hitems, htail⟩ := h.items_topState_and_tail st.pushFresh
  refine ⟨(run commands st.pushFresh).2.topState, by simpa using hitems, ?_⟩
  have hback : (run commands st.pushFresh).2.pop.2 = st := pop_of_tail htail
  rw [run_pushed, hback]

end Balanced

/-- **Builders hold the items of their calls, in order.**  A builder that goes on from a state
holds its items and then those of the calls so far, each once, and asking for its state changes
nothing of what comes later. After balanced commands the builder in use of a stack holds what it
held and then the items of its own calls; a builder pushed for them comes off with these alone, and
the stack below is what it was. -/
theorem builders_hold_items_in_order :
    (∀ (s : State α) (before after : List (StateBuilder.Step α)),
      let done := StateBuilder.run before (.ofState s)
      let rest := StateBuilder.run after done.2
      StateBuilder.run (before ++ after) (.ofState s) = (done.1 ++ rest.1, rest.2) ∧
      ∃ t : State α, t.items = s.items ++ Call.itemsOf (StateBuilder.calls before) ∧
        StateBuilder.run (before ++ .peek :: after) (.ofState s) =
          (done.1 ++ t :: rest.1, rest.2)) ∧
    ∀ (st : BuilderStack α) (commands after : List (Command α)) (own : List (Call α)),
      Balanced commands own →
      let done := run commands st
      let rest := run after done.2
      run (commands ++ after) st = (done.1 ++ rest.1, rest.2) ∧
      (∃ t : State α, t.items = st.topState.items ++ Call.itemsOf own ∧
        run (commands ++ .current :: after) st = (done.1 ++ t :: rest.1, rest.2)) ∧
      done.2.builders.tail = st.builders.tail ∧
      ∃ t : State α, t.items = Call.itemsOf own ∧
        run (.pushFresh :: commands ++ .pop :: after) st =
          ((run commands st.pushFresh).1 ++ t :: (run after st).1, (run after st).2) := by
  constructor
  · intro s before after done rest
    refine ⟨runAll_append StateBuilder.step before after _, done.2.toState, ?_,
      runAll_append StateBuilder.step before (.peek :: after) _⟩
    rw [StateBuilder.items_toState_run, StateBuilder.items_toState_ofState]
  · intro st commands after own h done rest
    obtain ⟨hitems, htail⟩ := h.items_topState_and_tail st
    exact ⟨runAll_append step commands after st,
      ⟨done.2.topState, hitems, runAll_append step commands (.current :: after) st⟩,
      htail, h.run_fresh st after⟩

namespace Alternatives

/-- A branch is gathered in a builder of its own, between two parts for the builder in use. -/
def around : List (Command Nat) :=
  [.call (.push 1), .pushFresh, .call (.push 2), .pop, .current, .call (.push 3)]

theorem balanced_around : Balanced around [.push 1, .push 3] :=
  .call _ (.fresh (.call _ .nil) (.current (.call _ .nil)))

theorem holds_one_and_three :
    Balanced around [.push 1, .push 3] ∧ ∃ t : State Nat, t.items = [.part 1, .part 3] ∧
      run (around ++ [.current]) {} = ((run around {}).1 ++ [t], (run around {}).2) := by
  refine ⟨balanced_around, ?_⟩
  obtain ⟨t, hitems, hrun⟩ :=
    (builders_hold_items_in_order.2 {} around [] [.push 1, .push 3] balanced_around).2.1
  exact ⟨t, by simpa [topState, StateBuilder.toState, Call.items] using hitems, hrun⟩

end Alternatives
end BuilderStack
end Concolic
