import Concolic.Proofs.Replay.CallTree

/-!
# Replay is flattening

Replay follows a flat list of events with a stack of frames, announced calls, finished callees
that wait to be claimed, and a look ahead for the next block. On the events of a call tree it
comes to what the recursion on the tree gives. The statements below are about a frame in the
middle of a trace: whatever lies beneath it on the stack and whatever follows its events, the
events of its blocks leave it with the flattening of the blocks, and those of its calls leave
it with their flattenings to be claimed.
-/

namespace Concolic

/-! ## What a builder holds -/

namespace StateBuilder

variable {α : Type} {b : StateBuilder α} {parts : List α}

/-- The builder has gathered a run of parts, and nothing else. -/
def Holds (b : StateBuilder α) (parts : List α) : Prop :=
  ∃ ready, b.finished = .basic ready ∧ parts = ready ++ b.pending

theorem holds_new : ({} : StateBuilder α).Holds [] := ⟨[], rfl, rfl⟩

theorem concat_basic (xs ys : List α) :
    (State.basic xs).concat (.basic ys) = .basic (xs ++ ys) := by
  cases xs <;> cases ys <;> simp [State.concat, State.isEmpty]

theorem Holds.toState (h : b.Holds parts) : b.toState = .basic parts := by
  obtain ⟨ready, hfinished, rfl⟩ := h
  unfold StateBuilder.toState
  rw [hfinished, concat_basic]
  split
  · next hnone => rw [List.isEmpty_iff.mp hnone, List.append_nil]
  · rfl

theorem Holds.push (h : b.Holds parts) (a : α) : (b.push a).Holds (parts ++ [a]) := by
  obtain ⟨ready, hfinished, rfl⟩ := h
  exact ⟨ready, hfinished, by simp [StateBuilder.push]⟩

theorem Holds.append (h : b.Holds parts) (more : List α) :
    (b.append (.basic more)).Holds (parts ++ more) := by
  refine ⟨parts ++ more, ?_, by simp [StateBuilder.append]⟩
  rw [StateBuilder.append, h.toState, concat_basic]

/-- Push parts one after the other. -/
def pushAll (b : StateBuilder α) (more : List α) : StateBuilder α := more.foldl push b

theorem Holds.pushAll (h : b.Holds parts) (more : List α) :
    (b.pushAll more).Holds (parts ++ more) := by
  induction more generalizing b parts with
  | nil => simpa [StateBuilder.pushAll] using h
  | cons a more ih =>
    have hrest := ih (h.push a)
    rwa [List.append_assoc] at hrest

end StateBuilder

namespace Replay

variable {program : Program} {f : Frame} {parts : List Predicate} {method : Method}

/-! ## One block -/

namespace Frame

/-- The frame with predicates added to what it has gathered. -/
def pushAll (f : Frame) (more : List Predicate) : Frame :=
  { f with builder := f.builder.pushAll more }

@[simp] theorem names_pushAll (f : Frame) (more : List Predicate) :
    (f.pushAll more).names = f.names := rfl

theorem pushAll_append (f : Frame) (more rest : List Predicate) :
    f.pushAll (more ++ rest) = (f.pushAll more).pushAll rest := by
  simp [pushAll, StateBuilder.pushAll]

/-- Steps that each push what they take, in names that stay as they are. -/
theorem foldl_eq_pushAll {α : Type} {names : Names} {step : Frame → α → Frame}
    {out : α → List Predicate}
    (hstep : ∀ (g : Frame) (x : α), g.names = names → step g x = g.pushAll (out x))
    (xs : List α) (hnames : f.names = names) : xs.foldl step f = f.pushAll (xs.flatMap out) := by
  induction xs generalizing f with
  | nil => rfl
  | cons x xs ih =>
    rw [List.foldl_cons, hstep f x hnames, ih (f := f.pushAll (out x)) hnames, List.flatMap_cons,
      pushAll_append]

theorem enterBlock_eq (f : Frame) (phis : List Phi) :
    f.enterBlock phis = f.pushAll (phiBindings f.names f.previous phis) := by
  unfold enterBlock phiBindings
  cases f.previous with
  | none => rfl
  | some id =>
    rw [Option.toList_some, List.flatMap_singleton]
    refine foldl_eq_pushAll (fun g phi hnames => ?_) phis rfl
    cases phi.from? id with
    | none => rfl
    | some value =>
      rw [← hnames]
      rfl

theorem addPassage_eq (f : Frame) (terminator : Terminator) (next : BlockId) :
    f.addPassage terminator (some next) = f.pushAll (passage f.names next terminator) := by
  cases terminator with
  | jump | «return» | throw | unreachable => rfl
  | branch condition whenTrue whenFalse =>
    simp only [addPassage, passage, beq_iff_eq]
    by_cases hsame : whenTrue = whenFalse
    · rw [if_pos hsame, if_pos hsame]
      rfl
    rw [if_neg hsame, if_neg hsame]
    by_cases htrue : next = whenTrue
    · rw [if_pos htrue, if_pos htrue]
      rfl
    rw [if_neg htrue, if_neg htrue]
    by_cases hfalse : next = whenFalse
    · rw [if_pos hfalse, if_pos hfalse]
      rfl
    · rw [if_neg hfalse, if_neg hfalse]
      rfl
  | switch key cases default =>
    simp only [addPassage, passage, beq_iff_eq]
    cases cases.find? fun entry => entry.2 == next with
    | some entry => rfl
    | none =>
      dsimp only
      by_cases hdefault : next = default
      · rw [if_pos hdefault, if_pos hdefault, List.map_eq_flatMap]
        refine foldl_eq_pushAll (fun g entry hnames => ?_) cases rfl
        rw [← hnames]
        rfl
      · rw [if_neg hdefault, if_neg hdefault]
        rfl

theorem addPassage_none (f : Frame) (terminator : Terminator) :
    f.addPassage terminator none = f := by
  cases terminator <;> rfl

/-- Finished callees that wait in a frame, by the methods that were named. -/
def waiting (sites : List Method) (callees : List (List Predicate)) : List TracedCall :=
  List.zipWith (fun site callee => ⟨site, .basic callee⟩) sites callees

theorem dispatches_self (program : Program) (method : Method) :
    dispatches program method method = true := by
  simp [dispatches]

/-- A predicate that names no method is added in the names of the frame. -/
theorem addPredicate_of_none {p : Predicate} (h : calledMethod? p = none) :
    addPredicate program f p = f.pushAll [Names.predicate f.names p] := by
  simp only [addPredicate, claim?, h]
  rfl

/-- A call predicate gives way to the first callee that waits, if that is its own. -/
theorem addPredicate_of_some {p : Predicate} {site : Method} {callee : List Predicate}
    {rest : List TracedCall} (h : calledMethod? p = some site)
    (htraced : f.traced = ⟨site, .basic callee⟩ :: rest) :
    addPredicate program f p =
      { f with builder := f.builder.append (.basic callee), traced := rest } := by
  have hclaim : claim? program f.traced p = some (⟨site, .basic callee⟩, rest) := by
    simp [claim?, h, htraced, dispatches_self]
  rw [addPredicate, hclaim]

/-- A body claims the callees that wait for its call predicates, each in its place. -/
theorem addPredicates_eq (program : Program) (body : List Predicate) {callees : List (List Predicate)}
    (hlength : callees.length = (body.filterMap calledMethod?).length)
    (htraced : f.traced = waiting (body.filterMap calledMethod?) callees)
    (hholds : f.builder.Holds parts) :
    ∃ builder, body.foldl (addPredicate program) f = { f with builder, traced := [] } ∧
      builder.Holds (parts ++ spliced f.names body callees) := by
  induction body generalizing f parts callees with
  | nil =>
    refine ⟨f.builder, ?_, by simpa [spliced] using hholds⟩
    have : f.traced = [] := by simpa [waiting] using htraced
    rw [List.foldl_nil, ← this]
  | cons p body ih =>
    rw [List.foldl_cons]
    cases hp : calledMethod? p with
    | none =>
      rw [List.filterMap_cons_none hp] at hlength htraced
      rw [addPredicate_of_none hp]
      obtain ⟨builder, hbody, hbuilder⟩ := ih (f := f.pushAll [Names.predicate f.names p]) hlength
        htraced (hholds.pushAll _)
      refine ⟨builder, hbody, ?_⟩
      simpa [spliced, hp] using hbuilder
    | some site =>
      rw [List.filterMap_cons_some hp] at hlength htraced
      obtain ⟨callee, callees, rfl⟩ := List.exists_cons_of_length_eq_add_one hlength
      rw [addPredicate_of_some hp htraced]
      obtain ⟨builder, hbody, hbuilder⟩ :=
        ih (f := { f with
            builder := f.builder.append (.basic callee)
            traced := waiting (body.filterMap calledMethod?) callees })
          (Nat.succ.inj hlength) rfl (hholds.append callee)
      refine ⟨builder, hbody, ?_⟩
      simpa [spliced, hp] using hbuilder

/-- A block that is replayed when its callees wait adds its phis, its body with the callees in
their places, and the way to the next block. -/
theorem replayBlock_eq {id : BlockId} {block : Block} (next : Option BlockId)
    {callees : List (List Predicate)} (hmethod : f.method = method)
    (hblock : program.block? method id = .ok (some block))
    (hlength : callees.length = (block.body.filterMap calledMethod?).length)
    (htraced : f.traced = waiting (block.body.filterMap calledMethod?) callees)
    (hholds : f.builder.Holds parts) :
    ∃ builder, f.replayBlock program method id next =
        .ok ({ f with builder, traced := [] }, f.returnedValue? block.terminator) ∧
      builder.Holds (parts ++ phiBindings f.names f.previous block.phis ++
        spliced f.names block.body callees ++
        next.toList.flatMap fun next => passage f.names next block.terminator) := by
  obtain ⟨builder, hbody, hbuilder⟩ :=
    addPredicates_eq program (f := f.pushAll (phiBindings f.names f.previous block.phis))
      block.body hlength htraced (hholds.pushAll _)
  rw [names_pushAll] at hbuilder
  have hbody : block.body.foldl (addPredicate program) (f.enterBlock block.phis) =
      { f with builder, traced := [] } := by
    rw [enterBlock_eq, hbody]
    rfl
  rw [replayBlock, if_neg (by simp [hmethod]), hblock]
  change ∃ builder, Except.ok _ = _ ∧ _
  rw [hbody]
  cases next with
  | none =>
    refine ⟨builder, ?_, by simpa using hbuilder⟩
    rw [addPassage_none]
    rfl
  | some next =>
    refine ⟨builder.pushAll (passage f.names next block.terminator), ?_, ?_⟩
    · rw [addPassage_eq]
      rfl
    · simpa using hbuilder.pushAll _

/-- What takes the value that a frame returns. -/
def taker (program : Program) (f : Frame) (isTarget : Bool) (value : Term) : Option Term :=
  if isTarget then some (resultTerm program f.method value) else f.target

theorem bindResult_eq (f : Frame) (isTarget : Bool) (value : Term) :
    f.bindResult program isTarget value =
      f.pushAll ((f.taker program isTarget value).toList.map fun target =>
        assignment target value) := by
  unfold bindResult taker resultTerm
  cases isTarget with
  | true => rfl
  | false => cases f.target <;> rfl

/-- A frame that returns from a block binds the value that the block returns, if there is one. -/
theorem bindReturned_eq (program : Program) (f : Frame) (isTarget : Bool) (terminator : Terminator) :
    (f.returnedValue? terminator).elim f (f.bindResult program isTarget) =
      f.pushAll (resultBinding f.names (f.taker program isTarget) .returned terminator) := by
  cases terminator with
  | jump | branch | switch | throw | unreachable => rfl
  | «return» value =>
    cases value with
    | none => rfl
    | some value => exact bindResult_eq f isTarget _

end Frame

/-! ## What follows -/

mutual

theorem nextBlock?_visits_succ (depth : Nat) (rest : Trace) :
    ∀ (method : Method) (visits : Visits),
      Trace.nextBlock? (depth + 1) (visits.events method ++ rest) = Trace.nextBlock? depth rest
  | method, .last id block calls ending => by
    rw [Visits.events, List.append_assoc, nextBlock?_calls (depth + 1) _ calls]
    cases ending <;> rfl
  | method, .next id block calls visits => by
    rw [Visits.events, List.append_assoc, nextBlock?_calls (depth + 1) _ calls]
    exact nextBlock?_visits_succ depth rest method visits

/-- Looking ahead passes over the frames of calls. -/
theorem nextBlock?_calls (depth : Nat) (rest : Trace) :
    ∀ calls : Calls, Trace.nextBlock? depth (calls.events ++ rest) = Trace.nextBlock? depth rest
  | .done => rfl
  | .call announced entered visits calls => by
    have hvisits : Trace.nextBlock? (depth + 1) (visits.events entered ++ (calls.events ++ rest)) =
        Trace.nextBlock? depth rest := by
      rw [nextBlock?_visits_succ depth _ entered visits, nextBlock?_calls depth rest calls]
    rw [← hvisits]
    cases depth <;> simp [Calls.events, PendingCall.event, Trace.nextBlock?, Event.block?]

end

theorem nextBlock?_visits (method : Method) (rest : Trace) (visits : Visits) :
    Trace.nextBlock? 0 (visits.events method ++ rest) = some visits.first := by
  cases visits with
  | last id block calls ending =>
    rw [Visits.events, List.append_assoc, nextBlock?_calls]
    cases ending <;> rfl
  | next id block calls visits =>
    rw [Visits.events, List.append_assoc, nextBlock?_calls]
    rfl

/-! ## Frames and their callees -/

/-- A frame that ends in its last block adds the block and its result. -/
theorem follow_ending {id : BlockId} {block : Block} {callees : List (List Predicate)}
    (ending : Ending) (hblock : program.block? f.method id = .ok (some block))
    (hlength : callees.length = (block.body.filterMap Frame.calledMethod?).length)
    (htraced : f.traced = Frame.waiting (block.body.filterMap Frame.calledMethod?) callees)
    (hholds : f.builder.Holds parts) (below : List Frame) (rest : Trace) (entered : Nat) :
    ∃ frame, follow program (ending.event f.method id :: rest) (f :: below) entered =
        leave frame below (fun frames => follow program rest frames entered) ∧
      frame.site = f.site ∧
      frame.builder.Holds (parts ++ (phiBindings f.names f.previous block.phis ++
        spliced f.names block.body callees ++
        resultBinding f.names (f.taker program below.isEmpty) ending block.terminator)) := by
  obtain ⟨builder, hreplay, hbuilder⟩ := Frame.replayBlock_eq none rfl hblock hlength htraced hholds
  rw [Option.toList_none, List.flatMap_nil, List.append_nil, List.append_assoc] at hbuilder
  cases ending with
  | threw value =>
    refine ⟨{ f with builder, traced := [] }, ?_, rfl, by simpa [resultBinding] using hbuilder⟩
    rw [Ending.event, follow, hreplay]
    rfl
  | returned =>
    refine ⟨({ f with builder, traced := [] } : Frame).pushAll (resultBinding f.names
      (f.taker program below.isEmpty) .returned block.terminator), ?_, rfl, ?_⟩
    · have hbind := Frame.bindReturned_eq program
        ({ f with builder, traced := [] } : Frame) below.isEmpty block.terminator
      rw [Ending.event, follow, hreplay]
      exact congrArg (fun frame => leave frame below fun frames =>
        follow program rest frames entered) hbind
    · rw [← List.append_assoc]
      exact hbuilder.pushAll _

/-- The frame of a method entered by a call that the frame has announced. -/
def Frame.callee (program : Program) (f : Frame) (announced : PendingCall) (method : Method)
    (number : Nat) : Frame :=
  nestedFrame program method (f.announce announced).pending number

/-- A call that is announced and can dispatch to the method entered opens its frame. -/
theorem follow_entry {announced : PendingCall}
    (hdispatches : dispatches program announced.method method = true) (below : List Frame)
    (rest : Trace) (entered : Nat) :
    follow program (announced.event :: .entered method :: rest) (f :: below) entered =
      follow program rest
        (f.callee program announced method (entered + 1) :: { f with pending := none } :: below)
        (entered + 1) := by
  rw [PendingCall.event, follow, follow]
  simp only [Frame.announce, Option.filter, hdispatches]
  rfl

theorem length_flatten (names : Names) :
    ∀ (calls : Calls) (entered : Nat),
      (calls.flatten program names entered).length = calls.sites.length
  | .done, _ => rfl
  | .call _ _ _ rest, _ => congrArg Nat.succ (length_flatten names rest _)

mutual

/-- The events of the blocks that a frame passes through leave it with their flattening. -/
theorem follow_visits (program : Program) :
    ∀ (visits : Visits) {f : Frame} {parts : List Predicate}, visits.Fits program f.method →
      f.traced = [] → f.builder.Holds parts →
      ∀ (below : List Frame) (rest : Trace) (entered : Nat),
      ∃ frame, follow program (visits.events f.method ++ rest) (f :: below) entered =
          leave frame below (fun frames => follow program rest frames (entered + visits.entries)) ∧
        frame.site = f.site ∧
        frame.builder.Holds (parts ++ visits.flatten program f.names
          (f.taker program below.isEmpty) f.previous entered)
  | .last id block calls ending, f, parts, hfits, htraced, hholds, below, rest, entered => by
    obtain ⟨hblock, hsites, hcalls⟩ := hfits
    obtain ⟨pending, hfollow⟩ := follow_calls program calls (f := f) hcalls below
      ([ending.event f.method id] ++ rest) entered
    rw [htraced, List.nil_append, ← hsites] at hfollow
    rw [Visits.events, List.append_assoc, hfollow]
    exact follow_ending (f := { f with
        pending
        traced := Frame.waiting (block.body.filterMap Frame.calledMethod?)
          (calls.flatten program f.names entered) }) ending hblock
      (by rw [length_flatten, hsites]) rfl hholds below rest _
  | .next id block calls visits, f, parts, hfits, htraced, hholds, below, rest, entered => by
    obtain ⟨hblock, hsites, hcalls, hvisits⟩ := hfits
    obtain ⟨pending, hfollow⟩ := follow_calls program calls (f := f) hcalls below
      (.passed f.method id :: (visits.events f.method ++ rest)) entered
    rw [htraced, List.nil_append, ← hsites] at hfollow
    rw [Visits.events, List.append_assoc, List.cons_append, hfollow, follow, nextBlock?_visits]
    obtain ⟨builder, hreplay, hbuilder⟩ := Frame.replayBlock_eq (f := { f with
        pending
        traced := Frame.waiting (block.body.filterMap Frame.calledMethod?)
          (calls.flatten program f.names entered) }) (some visits.first) rfl hblock
      (by rw [length_flatten, hsites]) rfl hholds
    rw [hreplay]
    obtain ⟨frame, hrest, hsite, hframe⟩ := follow_visits program visits
      (f := { f with pending, builder, traced := [], previous := some id }) hvisits rfl hbuilder
      below rest (entered + calls.entries)
    refine ⟨frame, ?_, hsite, ?_⟩
    · rw [Visits.entries, ← Nat.add_assoc]
      exact hrest
    · simp only [Visits.flatten, Option.toList_some, List.flatMap_singleton,
        List.append_assoc] at hframe ⊢
      exact hframe

/-- The events of calls leave the caller with their flattenings, to be claimed by the block. -/
theorem follow_calls (program : Program) :
    ∀ (calls : Calls) {f : Frame}, calls.Fits program →
      ∀ (below : List Frame) (rest : Trace) (entered : Nat),
      ∃ pending, follow program (calls.events ++ rest) (f :: below) entered =
        follow program rest
          ({ f with
              pending
              traced := f.traced ++
                Frame.waiting calls.sites (calls.flatten program f.names entered) } :: below)
          (entered + calls.entries)
  | .done, f, _, below, rest, entered => by
    refine ⟨f.pending, ?_⟩
    simp [Calls.events, Calls.sites, Calls.flatten, Calls.entries, Frame.waiting]
  | .call announced method visits calls, f, hfits, below, rest, entered => by
    obtain ⟨hdispatches, hvisits, hcalls⟩ := hfits
    obtain ⟨callee, hcallee, hsite, hholds⟩ := follow_visits program visits
      (f := f.callee program announced method (entered + 1)) hvisits rfl StateBuilder.holds_new
      ({ f with pending := none } :: below) (calls.events ++ rest) (entered + 1)
    obtain ⟨pending, hfollow⟩ := follow_calls program calls
      (f := ({ f with pending := none } : Frame).receive callee) hcalls below rest
      (entered + 1 + visits.entries)
    refine ⟨pending, ?_⟩
    rw [Calls.events, List.cons_append, List.cons_append, follow_entry hdispatches,
      List.append_assoc]
    refine hcallee.trans (hfollow.trans ?_)
    have hflat : callee.builder.toState = .basic (visits.flatten program
        (calleeNames program f.names announced method (entered + 1))
        (fun _ => announced.target.map (Names.term f.names)) none (entered + 1)) := by
      rw [hholds.toState]
      rfl
    have hcount : entered + 1 + visits.entries + calls.entries =
        entered + (1 + visits.entries + calls.entries) := by omega
    simp only [Frame.receive, hflat, hsite, hcount, Calls.sites, Calls.flatten, Frame.waiting,
      List.zipWith_cons_cons, Calls.entries, List.append_assoc, List.singleton_append]
    rfl

end

/-- Following the events of a run gives its flattening, whatever comes after them. -/
theorem follow_callTree {tree : CallTree} (hfits : tree.Fits program) (rest : Trace) :
    follow program (tree.events ++ rest) [] 0 = .ok (.basic (tree.flatten program)) := by
  obtain ⟨frame, hfollow, -, hholds⟩ := follow_visits program tree.visits
    (f := { method := tree.method }) hfits rfl StateBuilder.holds_new [] rest 0
  rw [CallTree.events, List.cons_append, follow]
  refine hfollow.trans ?_
  rw [leave, hholds.toState]
  simp only [List.nil_append, State.simplify]
  rfl

end Replay
end Concolic
