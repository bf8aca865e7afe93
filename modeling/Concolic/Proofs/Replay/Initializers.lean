import Concolic.Proofs.Replay.Flattening

/-!
# Runs among other events

The trace of a run need not be all that was recorded. Something may come before the method
under analysis is entered and after it is left, and a class may be initialized at any time,
which runs code of its own. None of this changes what the run replays to.
-/

namespace Concolic

/-- Whether the event starts or ends the initialization of a class. -/
def Event.isBracket : Event → Bool
  | .initializing _ | .initialized _ => true
  | _ => false

namespace Trace

/-- Every initialization that starts comes to its end, and none ends that has not started. The
names of the classes do not matter. -/
inductive Balanced : Trace → Prop
  | nil : Balanced []
  | event {e : Event} {rest : Trace} :
      e.isBracket = false → Balanced rest → Balanced (e :: rest)
  | initialization {started ended : String} {body rest : Trace} :
      Balanced body → Balanced rest →
      Balanced (.initializing started :: (body ++ .initialized ended :: rest))

/-- The second trace is the first with initializations put in, anywhere and any number. -/
inductive Interrupted : Trace → Trace → Prop
  | nil : Interrupted [] []
  | event {e : Event} {plain whole : Trace} :
      Interrupted plain whole → Interrupted (e :: plain) (e :: whole)
  | initialization {started ended : String} {body plain whole : Trace} :
      Balanced body → Interrupted plain whole →
      Interrupted plain (.initializing started :: (body ++ .initialized ended :: whole))

theorem Interrupted.refl : ∀ trace : Trace, Interrupted trace trace
  | [] => .nil
  | _ :: rest => .event (refl rest)

theorem outsideInitializers_cons {e : Event} (h : e.isBracket = false) (level : Nat)
    (rest : Trace) :
    outsideInitializers level (e :: rest) =
      if level = 0 then e :: outsideInitializers level rest
      else outsideInitializers level rest := by
  cases e with
  | initializing | initialized => cases h
  | entered | passed | returned | threw | called => rfl

/-- Within an initialization nothing is kept of what is balanced. -/
theorem outsideInitializers_balanced {body : Trace} (h : Balanced body) :
    ∀ (level : Nat) (rest : Trace),
      outsideInitializers (level + 1) (body ++ rest) = outsideInitializers (level + 1) rest := by
  induction h with
  | nil => exact fun _ _ => rfl
  | event hevent _ ih =>
    intro level rest
    rw [List.cons_append, outsideInitializers_cons hevent, if_neg (Nat.succ_ne_zero level)]
    exact ih level rest
  | @initialization started ended inner outer _ _ ihinner ihouter =>
    intro level rest
    rw [List.cons_append, List.append_assoc, List.cons_append, outsideInitializers,
      ihinner (level + 1), outsideInitializers]
    exact ihouter level rest

/-- Initializations that are put in are taken out again. -/
theorem outsideInitializers_interrupted {plain whole : Trace} (h : Interrupted plain whole) :
    ∀ level : Nat, outsideInitializers level whole = outsideInitializers level plain := by
  induction h with
  | nil => exact fun _ => rfl
  | @event e plain whole _ ih =>
    intro level
    cases e with
    | initializing => exact ih (level + 1)
    | initialized => exact ih (level - 1)
    | entered | passed | returned | threw | called => simp only [outsideInitializers, ih level]
  | initialization hbody _ ih =>
    intro level
    rw [outsideInitializers, outsideInitializers_balanced hbody level, outsideInitializers]
    exact ih level

/-- Outside initializations events are kept, up to the first start or end of one. -/
theorem outsideInitializers_append {events : Trace} (h : ∀ e ∈ events, e.isBracket = false)
    (rest : Trace) :
    outsideInitializers 0 (events ++ rest) = events ++ outsideInitializers 0 rest := by
  induction events with
  | nil => rfl
  | cons e events ih =>
    rw [List.forall_mem_cons] at h
    rw [List.cons_append, outsideInitializers_cons h.1, if_pos rfl, ih h.2, List.cons_append]

end Trace

namespace Replay

variable {program : Program}

mutual

theorem isBracket_visits (method : Method) :
    ∀ visits : Visits, ∀ e ∈ visits.events method, e.isBracket = false
  | .last id block calls ending => by
    intro e he
    rcases List.mem_append.mp he with hcalls | hlast
    · exact isBracket_calls calls e hcalls
    · obtain rfl := List.mem_singleton.mp hlast
      cases ending <;> rfl
  | .next id block calls rest => by
    intro e he
    rcases List.mem_append.mp he with hcalls | hrest
    · exact isBracket_calls calls e hcalls
    · rcases List.mem_cons.mp hrest with rfl | hrest
      · rfl
      · exact isBracket_visits method rest e hrest

theorem isBracket_calls : ∀ calls : Calls, ∀ e ∈ calls.events, e.isBracket = false
  | .done => fun _ he => nomatch he
  | .call announced entered visits rest => by
    intro e he
    rcases List.mem_cons.mp he with rfl | he
    · rfl
    rcases List.mem_cons.mp he with rfl | he
    · rfl
    rcases List.mem_append.mp he with hvisits | hrest
    · exact isBracket_visits entered visits e hvisits
    · exact isBracket_calls rest e hrest

end

/-- A run initializes no class by itself. -/
theorem isBracket_callTree (tree : CallTree) : ∀ e ∈ tree.events, e.isBracket = false :=
  List.forall_mem_cons.mpr ⟨rfl, isBracket_visits tree.method tree.visits⟩

/-- What concerns the method of a run starts with the events of the run. -/
theorem relevant_interrupted {tree : CallTree} {before after trace : Trace}
    (hbrackets : ∀ e ∈ before, e.isBracket = false)
    (hentries : ∀ e ∈ before, Trace.isEntry tree.method e = false)
    (htrace : Trace.Interrupted (before ++ (tree.events ++ after)) trace) :
    trace.relevant tree.method = tree.events ++ after.outsideInitializers 0 := by
  rw [Trace.relevant, Trace.outsideInitializers_interrupted htrace,
    Trace.outsideInitializers_append hbrackets,
    Trace.outsideInitializers_append (isBracket_callTree tree),
    List.dropWhile_append_of_pos fun e he => by simp [hentries e he]]
  rw [CallTree.events, List.cons_append, List.dropWhile_cons_of_neg (by simp [Trace.isEntry])]

/-- The trace of nothing but a run replays to its flattening. -/
theorem build_events (tree : CallTree) (hfits : tree.Fits program) :
    build program tree.method tree.events = .ok (.basic (tree.flatten program)) := by
  have halone : Trace.Interrupted ([] ++ (tree.events ++ [])) tree.events := by
    simpa using Trace.Interrupted.refl tree.events
  have hrelevant := relevant_interrupted (List.forall_mem_nil _) (List.forall_mem_nil _) halone
  rw [build, hrelevant]
  exact follow_callTree hfits _

/-- **Replay is flattening.** Take a run whose tree fits the program. Put anything in front of
its events that neither enters its method nor initializes classes, anything behind them, and
initializations anywhere. Replay then gives the flattening of the tree. -/
theorem build_callTree {tree : CallTree} {before after trace : Trace} (hfits : tree.Fits program)
    (hbrackets : ∀ e ∈ before, e.isBracket = false)
    (hentries : ∀ e ∈ before, Trace.isEntry tree.method e = false)
    (htrace : Trace.Interrupted (before ++ (tree.events ++ after)) trace) :
    build program tree.method trace = .ok (.basic (tree.flatten program)) := by
  rw [build, relevant_interrupted hbrackets hentries htrace]
  exact follow_callTree hfits _

end Replay

/-!
## A countdown

A method that calls itself with a smaller number until it is given zero.
-/

namespace Countdown

open Replay

def down : Method := ⟨"Count", "down", "(I)I"⟩

def number : Term := .argument .int 0

/-- The number that the inner call is given. -/
def smaller : Term := .value .int "n"

/-- What the inner call returns. -/
def outcome : Term := .value .int "r"

def isZero (t : Term) : Term := .compare .eq t (.int 0)

def less (t : Term) : Term := .arithmetic .sub .int t (.int 1)

def check : Block := ⟨⟨0⟩, [], [], .branch (isZero number) ⟨1⟩ ⟨2⟩⟩

def stop : Block := ⟨⟨1⟩, [], [], .return (some (.int 0))⟩

def goOn : Block where
  id := ⟨2⟩
  phis := []
  body := [assignment smaller (less number),
    ⟨.state, .binary .callInto outcome (.call .int down .null [smaller]), {}⟩]
  terminator := .return (some outcome)

def program : Program :=
  Program.Table.toProgram { methods := [{
    info := ⟨down, [.int], .int, true, false, false⟩
    blocks := [check, stop, goOn]
    body := .absent }] }

def announced : PendingCall := ⟨down, none, [smaller], some outcome⟩

/-- A run on a number that takes so many calls to come to zero. -/
def visits : Nat → Visits
  | 0 => .next ⟨0⟩ check .done (.last ⟨1⟩ stop .done .returned)
  | calls + 1 => .next ⟨0⟩ check .done
      (.last ⟨2⟩ goOn (.call announced down (visits calls) .done) .returned)

def tree (calls : Nat) : CallTree := ⟨down, visits calls⟩

theorem fits_visits : ∀ calls : Nat, (visits calls).Fits program down
  | 0 => ⟨rfl, rfl, trivial, rfl, rfl, trivial⟩
  | calls + 1 => ⟨rfl, rfl, trivial, rfl, rfl, ⟨rfl, fits_visits calls, trivial⟩⟩

def initializer : Method := ⟨"Count", "<clinit>", "()V"⟩

/-- A run with two calls, during which the class is initialized, between an event of another
method and the start of another run. -/
def trace : Trace :=
  [.returned initializer ⟨0⟩, .entered down, .passed down ⟨0⟩, .initializing "Count",
    .entered down, .passed initializer ⟨0⟩, .initialized "Count", announced.event, .entered down,
    .passed down ⟨0⟩, announced.event, .entered down, .passed down ⟨0⟩, .returned down ⟨1⟩,
    .returned down ⟨2⟩, .returned down ⟨2⟩, .entered down]

/-- The names of the outer call are marked with one, those of the inner would be with two. -/
theorem build_two_calls : build program down trace = .ok (.basic [
    ⟨.path, .equal (isZero number) (.bool false), {}⟩,
    assignment smaller (less number),
    ⟨.path, .equal (isZero smaller) (.bool false), {}⟩,
    assignment (.value .int "n.frame1") (less smaller),
    ⟨.path, .equal (isZero (.value .int "n.frame1")) (.bool true), {}⟩,
    assignment (.value .int "r.frame1") (.int 0),
    assignment outcome (.value .int "r.frame1"),
    assignment (.result .int down) outcome]) :=
  (@build_callTree program (tree 2) [.returned initializer ⟨0⟩] [.entered down] _
    (fits_visits 2) (by decide) (by decide)
    (.event (.event (.event (.initialization (.event rfl (.event rfl .nil))
      (.event (.event (.event (.event (.event (.event (.event (.event (.event (.event
        .nil))))))))))))))).trans (by rfl)

end Countdown
end Concolic
