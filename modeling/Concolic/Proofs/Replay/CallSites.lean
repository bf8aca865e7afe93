import Concolic.Proofs.Replay.Growth
import Mathlib.Data.List.Forall2
import Mathlib.Data.List.TakeWhile

/-!
# Traced callees and their call sites

The call predicates of a block are matched in order against the callees that were traced in it.
A predicate claims the first callee that waits and that the method it names can dispatch to, by
name and descriptor. That need not be the callee of its own call: when its own was not traced, a
predicate may claim one that belongs to a later call.

## Main statements

* `follow_seenCalls` — the announced calls of a block leave their traced callees waiting, in order.
* `claims_eq_iff` — when every predicate claims its own callee.
* `replay_calls` — what replaying the block puts in the place of its call predicates.
* `misplaced_body` — a callee put in the place of a call that was not traced.
-/

namespace Concolic

namespace Trace

/-- Whether the events lead just to the end of the last of so many frames. -/
def endsFrames : (frames : Nat) → Trace → Bool
  | _, [] => false
  | frames, .entered _ :: rest => endsFrames (frames + 1) rest
  | 1, .returned _ _ :: rest => rest.isEmpty
  | 1, .threw _ _ _ :: rest => rest.isEmpty
  | frames + 2, .returned _ _ :: rest => endsFrames (frames + 1) rest
  | frames + 2, .threw _ _ _ :: rest => endsFrames (frames + 1) rest
  | frames, _ :: rest => endsFrames frames rest

/-- The events of a frame behind its entry, its end included. -/
def IsRun (run : Trace) : Prop := endsFrames 1 run = true

/-- A frame that ends leaves some block next. -/
theorem isSome_nextBlock? {run : Trace} {depth frames : Nat} (h : endsFrames frames run = true)
    (hdepth : depth < frames) : (nextBlock? depth run).isSome = true := by
  induction run generalizing depth frames with
  | nil => simp [endsFrames] at h
  | cons e rest ih =>
    cases e with
    | entered =>
      rw [endsFrames] at h
      rw [nextBlock?]
      exact ih h (Nat.succ_lt_succ hdepth)
    | returned | threw =>
      cases depth with
      | zero => rfl
      | succ depth =>
        obtain ⟨frames, rfl⟩ : ∃ n, frames = n + 2 := ⟨frames - 2, by omega⟩
        rw [endsFrames] at h
        rw [nextBlock?]
        exact ih h (Nat.lt_of_succ_lt_succ hdepth)
    | passed =>
      simp only [endsFrames] at h
      cases depth with
      | zero => rfl
      | succ depth => exact ih h hdepth
    | called | initializing | initialized =>
      simp only [endsFrames] at h
      cases depth with
      | zero => exact ih h hdepth
      | succ depth => exact ih h hdepth

end Trace

namespace Replay

variable {program : Program}

/-! ## Callees on their own -/

/-- The method named for the last of some frames. -/
def lastSite : Frame → List Frame → Method
  | top, [] => top.site
  | _, f :: rest => lastSite f rest

/-- Whatever called the last of the frames and whatever follows their events, following the events
fails, or hands one outcome to the caller. -/
def Finishes (program : Program) (run : Trace) (top : Frame) (rest : List Frame) (number : Nat) :
    Prop :=
  (∃ failure, ∀ caller below more,
      follow program (run ++ more) (top :: (rest ++ caller :: below)) number = .error failure) ∨
    ∃ outcome number', outcome.site = lastSite top rest ∧ ∀ caller below more,
      follow program (run ++ more) (top :: (rest ++ caller :: below)) number =
        follow program more (caller.receive outcome :: below) number'

theorem Finishes.step {e : Event} {run : Trace} {top top' : Frame} {rest rest' : List Frame}
    {number number' : Nat} (h : Finishes program run top' rest' number')
    (hsite : lastSite top rest = lastSite top' rest')
    (hfollow : ∀ caller below more,
      follow program (e :: (run ++ more)) (top :: (rest ++ caller :: below)) number =
        follow program (run ++ more) (top' :: (rest' ++ caller :: below)) number') :
    Finishes program (e :: run) top rest number := by
  refine h.imp ?_ ?_
  · rintro ⟨failure, hfailure⟩
    exact ⟨failure, fun caller below more => (hfollow caller below more).trans (hfailure _ _ _)⟩
  · rintro ⟨outcome, number'', houtcome, hrest⟩
    exact ⟨outcome, number'', houtcome.trans hsite.symm, fun caller below more =>
      (hfollow caller below more).trans (hrest _ _ _)⟩

/-- The frame in use is left. -/
theorem Finishes.leave {e : Event} {run : Trace} {top frame : Frame} {rest : List Frame}
    {number : Nat} (hframe : frame.site = top.site)
    (hend : rest = [] → run = [])
    (hrest : ∀ top' rest', rest = top' :: rest' →
      Finishes program run (top'.receive frame) rest' number)
    (hfollow : ∀ caller below more,
      follow program (e :: (run ++ more)) (top :: (rest ++ caller :: below)) number =
        leave frame (rest ++ caller :: below) fun frames =>
          follow program (run ++ more) frames number) :
    Finishes program (e :: run) top rest number := by
  cases rest with
  | nil =>
    obtain rfl := hend rfl
    exact .inr ⟨frame, number, hframe, fun caller below more => hfollow caller below more⟩
  | cons top' rest' =>
    refine (hrest top' rest' rfl).step ?_ hfollow
    cases rest' <;> rfl

/-- Following the events of frames to the end of the last one depends on these frames only. -/
theorem finishes_of_endsFrames (run : Trace) : ∀ (top : Frame) (rest : List Frame) (number : Nat),
    Trace.endsFrames (rest.length + 1) run = true → Finishes program run top rest number := by
  induction run with
  | nil =>
    intro top rest number h
    simp [Trace.endsFrames] at h
  | cons e run ih =>
    intro top rest number h
    -- What a frame leaves next lies within the events, as it ends there.
    have hnext (hrest : Trace.endsFrames (rest.length + 1) run = true) (more : Trace) :
        Trace.nextBlock? 0 (run ++ more) = Trace.nextBlock? 0 run := by
      obtain ⟨next, hnext⟩ := Option.isSome_iff_exists.mp
        (Trace.isSome_nextBlock? hrest (Nat.succ_pos _))
      rw [hnext, Trace.nextBlock?_append more hnext]
    cases e with
    | entered method =>
      rw [Trace.endsFrames] at h
      exact (ih (nestedFrame program method
          (top.pending.filter fun call => dispatches program call.method method) (number + 1))
        ({ top with pending := none } :: rest) (number + 1) h).step (by cases rest <;> rfl)
        fun _ _ _ => rfl
    | called method receiver arguments target =>
      simp only [Trace.endsFrames] at h
      exact (ih (top.announce ⟨method, receiver, arguments, target⟩) rest number h).step
        (by cases rest <;> rfl) fun _ _ _ => rfl
    | passed method block =>
      simp only [Trace.endsFrames] at h
      cases hblock : top.replayBlock program method block (Trace.nextBlock? 0 run) with
      | error failure =>
        refine .inl ⟨failure, fun caller below more => ?_⟩
        rw [List.cons_append, follow, hnext h, hblock]
        rfl
      | ok result =>
        obtain ⟨builder, hresult⟩ := Frame.replayBlock_frame hblock
        refine (ih { result.1 with previous := some block } rest number h).step ?_
          fun caller below more => ?_
        · cases rest with
          | nil => rw [lastSite, lastSite, hresult]
          | cons => rfl
        · rw [follow, hnext h, hblock]
          rfl
    | returned method block =>
      cases hblock : top.replayBlock program method block none with
      | error failure =>
        refine .inl ⟨failure, fun caller below more => ?_⟩
        rw [List.cons_append, follow, hblock]
        rfl
      | ok result =>
        obtain ⟨builder, hresult⟩ := Frame.replayBlock_frame hblock
        have hsite := Frame.site_bindReturned program result.1 false result.2
        refine .leave (hsite.trans (by rw [hresult])) ?_ ?_ fun caller below more => ?_
        · rintro rfl
          simpa [Trace.endsFrames] using h
        · rintro top' rest' rfl
          exact ih _ rest' number (by simpa [Trace.endsFrames] using h)
        · have hbelow : (rest ++ caller :: below).isEmpty = false := by simp
          rw [follow, hblock, hbelow]
          rfl
    | threw method block value =>
      cases hblock : top.replayBlock program method block none with
      | error failure =>
        refine .inl ⟨failure, fun caller below more => ?_⟩
        rw [List.cons_append, follow, hblock]
        rfl
      | ok result =>
        obtain ⟨builder, hresult⟩ := Frame.replayBlock_frame hblock
        have hsite : result.1.site = top.site := by rw [hresult]
        refine .leave hsite ?_ ?_ fun caller below more => ?_
        · rintro rfl
          simpa [Trace.endsFrames] using h
        · rintro top' rest' rfl
          exact ih _ rest' number (by simpa [Trace.endsFrames] using h)
        · rw [follow, hblock]
          rfl
    | initializing | initialized =>
      simp only [Trace.endsFrames] at h
      exact (ih top rest number h).step rfl fun _ _ _ => rfl

/-! ## The calls of a block -/

/-- A call that a trace shows: what is announced, and the events of the callee behind its entry,
if it was traced. -/
structure SeenCall where
  call : PendingCall
  run : Option Trace

namespace SeenCall

def site (c : SeenCall) : Method := c.call.method

def events (c : SeenCall) : Trace :=
  c.call.event :: c.run.elim [] fun run => .entered c.site :: run

/-- No callee is traced behind the call that the predicate of this untraced call could claim. -/
def Apart (program : Program) (c d : SeenCall) : Prop :=
  c.run = none → d.run.isSome = true → dispatches program c.site d.site = false

end SeenCall

/-- What was traced of each call of a block, if anything: the state that the events of the callee
come to in a frame of their own, with `number` frames entered before the first call. -/
inductive Traced (program : Program) (f : Frame) :
    List SeenCall → (number : Nat) → List (Option SymbolicState) → Nat → Prop
  | nil {number : Nat} : Traced program f [] number [] number
  | untraced {call : PendingCall} {calls : List SeenCall} {number number' : Nat}
      {bodies : List (Option SymbolicState)} :
      Traced program f calls number bodies number' →
      Traced program f (⟨call, none⟩ :: calls) number (none :: bodies) number'
  | traced {call : PendingCall} {run : Trace} {calls : List SeenCall} {outcome : Frame}
      {number between number' : Nat} {bodies : List (Option SymbolicState)} :
      (∀ caller below more,
        follow program (run ++ more)
            (f.callee program call call.method (number + 1) :: caller :: below) (number + 1) =
          follow program more (caller.receive outcome :: below) between) →
      outcome.site = call.method →
      Traced program f calls between bodies number' →
      Traced program f (⟨call, some run⟩ :: calls) number
        (some outcome.builder.toState :: bodies) number'

/-- The callees that wait behind the calls of a block. -/
def waitingCallees : List SeenCall → List (Option SymbolicState) → List TracedCall
  | c :: calls, some state :: bodies => ⟨c.site, state⟩ :: waitingCallees calls bodies
  | _ :: calls, none :: bodies => waitingCallees calls bodies
  | _, _ => []

/-- The announced calls of a block leave their traced callees waiting, in order. -/
theorem follow_seenCalls (f : Frame) (calls : List SeenCall)
    (hruns : ∀ c ∈ calls, ∀ run, c.run = some run → run.IsRun) :
    ∀ (traced : List TracedCall) (pending : Option PendingCall) (number : Nat),
    (∃ failure, ∀ below more, follow program (calls.flatMap SeenCall.events ++ more)
        ({ f with traced, pending } :: below) number = .error failure) ∨
      ∃ bodies number' pending', Traced program f calls number bodies number' ∧
        ∀ below more, follow program (calls.flatMap SeenCall.events ++ more)
            ({ f with traced, pending } :: below) number =
          follow program more ({ f with
            traced := traced ++ waitingCallees calls bodies
            pending := pending' } :: below) number' := by
  induction calls with
  | nil =>
    intro traced pending number
    exact .inr ⟨[], number, pending, .nil, fun below more => by simp [waitingCallees]⟩
  | cons c calls ih =>
    intro traced pending number
    rw [List.forall_mem_cons] at hruns
    obtain ⟨call, run⟩ := c
    cases run with
    | none =>
      rcases ih hruns.2 traced (({ f with traced, pending } : Frame).announce call).pending number
        with ⟨failure, hfailure⟩ | ⟨bodies, number', pending', hbodies, hfollow⟩
      · exact .inl ⟨failure, fun below more => hfailure below more⟩
      · exact .inr ⟨none :: bodies, number', pending', .untraced hbodies,
          fun below more => hfollow below more⟩
    | some run =>
      have hentry (below : List Frame) (more : Trace) :
          follow program ((SeenCall.mk call (some run) :: calls).flatMap SeenCall.events ++ more)
              ({ f with traced, pending } :: below) number =
            follow program (run ++ (calls.flatMap SeenCall.events ++ more))
              (f.callee program call call.method (number + 1) ::
                { f with traced, pending := none } :: below) (number + 1) := by
        rw [List.flatMap_cons, List.append_assoc]
        exact follow_entry (Frame.dispatches_self program call.method) below _ number
      have hfinishes : Finishes program run (f.callee program call call.method (number + 1)) []
          (number + 1) := finishes_of_endsFrames run _ [] _ (hruns.1 run rfl)
      rcases hfinishes with
        ⟨failure, hfailure⟩ | ⟨outcome, between, hsite, houtcome⟩
      · exact .inl ⟨failure, fun below more => (hentry below more).trans (hfailure _ _ _)⟩
      have hreceive (below : List Frame) (more : Trace) :=
        (hentry below more).trans (houtcome { f with traced, pending := none } below _)
      rcases ih hruns.2 (traced ++ [⟨outcome.site, outcome.builder.toState⟩]) none between with
        ⟨failure, hfailure⟩ | ⟨bodies, number', pending', hbodies, hfollow⟩
      · exact .inl ⟨failure, fun below more => (hreceive below more).trans (hfailure below more)⟩
      · have hsite : outcome.site = call.method := hsite
        refine .inr ⟨some outcome.builder.toState :: bodies, number', pending',
          .traced houtcome hsite hbodies, fun below more => ?_⟩
        rw [hreceive, waitingCallees, SeenCall.site, ← hsite, List.append_cons]
        exact hfollow below more

/-! ## Claims -/

/-- What predicates that name these methods claim: each the first callee that is left and that it
can dispatch to. -/
def claims (program : Program) : List Method → List TracedCall → List (Option SymbolicState)
  | [], _ => []
  | site :: sites, traced =>
    match traced.dropWhile fun call => !dispatches program site call.site with
    | [] => none :: claims program sites traced
    | call :: rest => some call.state :: claims program sites rest

/-- The items of a body with states in the place of some of its call predicates. -/
def withBodies (names : Names) :
    List Predicate → List (Option SymbolicState) → List (State.Item Predicate)
  | [], _ => []
  | p :: body, bodies =>
    match Frame.calledMethod? p, bodies with
    | some _, some state :: bodies => state.items ++ withBodies names body bodies
    | some _, none :: bodies => .part (names.predicate p) :: withBodies names body bodies
    | _, bodies => .part (names.predicate p) :: withBodies names body bodies

/-- A body is added with what its call predicates claim in their places. -/
theorem items_addPredicates (f : Frame) (body : List Predicate) :
    (body.foldl (Frame.addPredicate program) f).builder.toState.items =
      f.builder.toState.items ++
        withBodies f.names body (claims program (body.filterMap Frame.calledMethod?) f.traced) := by
  induction body generalizing f with
  | nil => simp [withBodies]
  | cons p body ih =>
    rw [List.foldl_cons, ih]
    cases hp : Frame.calledMethod? p with
    | none =>
      have hitems := Frame.items_pushAll f [Names.predicate f.names p]
      rw [Frame.addPredicate_of_none hp, hitems, List.filterMap_cons_none hp, withBodies,
        List.append_assoc]
      · rfl
      all_goals simp [hp]
    | some site =>
      rw [List.filterMap_cons_some hp, claims]
      cases hdrop : f.traced.dropWhile fun call => !dispatches program site call.site with
      | nil =>
        have hadd : Frame.addPredicate program f p = f.pushAll [Names.predicate f.names p] := by
          simp only [Frame.addPredicate, Frame.claim?, hp, Option.bind_eq_bind, Option.bind_some,
            hdrop]
          rfl
        have hitems := Frame.items_pushAll f [Names.predicate f.names p]
        rw [hadd, hitems, withBodies, List.append_assoc]
        · rfl
        case heq => exact hp
      | cons call rest =>
        have hadd : Frame.addPredicate program f p =
            { f with builder := f.builder.append call.state, traced := rest } := by
          simp only [Frame.addPredicate, Frame.claim?, hp, Option.bind_eq_bind, Option.bind_some,
            hdrop]
        rw [hadd, StateBuilder.items_toState_append, withBodies, List.append_assoc]
        case heq => exact hp

theorem Traced.isSome_eq {f : Frame} {calls : List SeenCall} {number number' : Nat}
    {bodies : List (Option SymbolicState)} (h : Traced program f calls number bodies number') :
    List.Forall₂ (fun c body => c.run.isSome = body.isSome) calls bodies := by
  induction h with
  | nil => exact .nil
  | untraced _ ih => exact .cons rfl ih
  | traced _ _ _ ih => exact .cons rfl ih

theorem sites_waitingCallees {calls : List SeenCall} {bodies : List (Option SymbolicState)}
    (h : List.Forall₂ (fun c body => c.run.isSome = body.isSome) calls bodies) :
    (waitingCallees calls bodies).map TracedCall.site =
      (calls.filter fun c => c.run.isSome).map SeenCall.site := by
  induction h with
  | nil => rfl
  | @cons c body calls bodies hbody _ ih =>
    cases body with
    | some state => simp [waitingCallees, hbody, ih]
    | none => simp [waitingCallees, hbody, ih]

/-- A predicate claims nothing just when it can claim no traced callee. -/
theorem dropWhile_waitingCallees {calls : List SeenCall} {bodies : List (Option SymbolicState)}
    (h : List.Forall₂ (fun c body => c.run.isSome = body.isSome) calls bodies) (site : Method) :
    ((waitingCallees calls bodies).dropWhile fun call => !dispatches program site call.site) = [] ↔
      ∀ d ∈ calls, d.run.isSome = true → dispatches program site d.site = false := by
  have hsites : (∀ call ∈ waitingCallees calls bodies, dispatches program site call.site = false) ↔
      ∀ entered ∈ (waitingCallees calls bodies).map TracedCall.site,
        dispatches program site entered = false := by
    rw [List.forall_mem_map]
  rw [sites_waitingCallees h, List.forall_mem_map] at hsites
  simpa [List.dropWhile_eq_nil_iff, List.mem_filter] using hsites

/-- Every predicate claims the callee of its own call just when no untraced call comes before a
traced one that its predicate could claim. -/
theorem claims_eq_iff {calls : List SeenCall} {bodies : List (Option SymbolicState)}
    (h : List.Forall₂ (fun c body => c.run.isSome = body.isSome) calls bodies) :
    claims program (calls.map SeenCall.site) (waitingCallees calls bodies) = bodies ↔
      calls.Pairwise (SeenCall.Apart program) := by
  induction h with
  | nil => simp [claims]
  | @cons c body calls bodies hbody hrest ih =>
    rw [List.map_cons, List.pairwise_cons, ← ih, claims]
    cases body with
    | some state =>
      have hrun : c.run ≠ none := fun hnone => by simp [hnone] at hbody
      rw [waitingCallees, List.dropWhile_cons_of_neg (by simp [Frame.dispatches_self])]
      simp [SeenCall.Apart, hrun]
    | none =>
      have hrun : c.run = none := by simpa using hbody
      have hapart : (∀ d ∈ calls, c.Apart program d) ↔
          ∀ d ∈ calls, d.run.isSome = true → dispatches program c.site d.site = false := by
        simp [SeenCall.Apart, hrun]
      rw [waitingCallees, hapart, ← dropWhile_waitingCallees hrest]
      split
      · next hdrop => simp [hdrop]
      · next call rest hdrop => simp [hdrop]

/-! ## Blocks -/

/-- What a frame has gathered behind a block, given what takes the place of its call predicates
and which block comes next. -/
def Frame.itemsBehind (f : Frame) (block : Block) (bodies : List (Option SymbolicState))
    (next : Option BlockId) : List (State.Item Predicate) :=
  f.builder.toState.items ++ (phiBindings f.names f.previous block.phis).map .part ++
    withBodies f.names block.body bodies ++
    (next.toList.flatMap fun next => passage f.names next block.terminator).map .part

/-- A block of the frame's method can be replayed. -/
theorem Frame.replayBlock_of_block {f : Frame} {id : BlockId} {block : Block}
    (hblock : program.block? f.method id = .ok (some block)) (next : Option BlockId) :
    f.replayBlock program f.method id next =
      .ok ((f.addBlock program block).addPassage block.terminator next,
        (f.addBlock program block).returnedValue? block.terminator) := by
  rw [replayBlock, if_neg (not_not_intro rfl), hblock]
  rfl

/-- A block is replayed with what its call predicates claim. -/
theorem Frame.items_addPassage_addBlock (f : Frame) (block : Block) (next : Option BlockId) :
    ((f.addBlock program block).addPassage block.terminator next).builder.toState.items =
      f.itemsBehind block (claims program (block.body.filterMap calledMethod?) f.traced) next := by
  have hbody : (f.addBlock program block).builder.toState.items =
      f.builder.toState.items ++ (phiBindings f.names f.previous block.phis).map .part ++
        withBodies f.names block.body
          (claims program (block.body.filterMap calledMethod?) f.traced) := by
    rw [addBlock, enterBlock_eq, items_addPredicates, items_pushAll]
    rfl
  obtain ⟨builder, hframe⟩ := addBlock_frame program f block
  have hnames : (f.addBlock program block).names = f.names := by rw [hframe]
  cases next with
  | none => rw [addPassage_none, hbody, itemsBehind]; simp
  | some next => rw [addPassage_eq, items_pushAll, hbody, hnames, itemsBehind]; simp

/-- **Call predicates and what was traced of them.** Take a block and a trace of its calls, in
order, in which the callee of each is traced to its end or not at all. Following the calls fails in
a callee, or the block is replayed with what its call predicates claim of the traced callees. Each
has what was traced behind its own call, if anything, just when no untraced call comes before a
traced one that its predicate could claim. -/
theorem replay_calls {f : Frame} {id : BlockId} {block : Block} {calls : List SeenCall}
    (number : Nat) (htraced : f.traced = [])
    (hblock : program.block? f.method id = .ok (some block))
    (hsites : block.body.filterMap Frame.calledMethod? = calls.map SeenCall.site)
    (hruns : ∀ c ∈ calls, ∀ run, c.run = some run → run.IsRun) :
    (∃ failure, ∀ below more, follow program (calls.flatMap SeenCall.events ++ more)
        (f :: below) number = .error failure) ∨
      ∃ bodies number' g, Traced program f calls number bodies number' ∧
        (∀ below more, follow program (calls.flatMap SeenCall.events ++ more)
            (f :: below) number = follow program more (g :: below) number') ∧
        (∀ next, ∃ h value, g.replayBlock program f.method id next = .ok (h, value) ∧
          h.builder.toState.items = f.itemsBehind block
            (claims program (calls.map SeenCall.site) (waitingCallees calls bodies)) next) ∧
        (claims program (calls.map SeenCall.site) (waitingCallees calls bodies) = bodies ↔
          calls.Pairwise (SeenCall.Apart program)) := by
  have hf : f = { f with traced := [], pending := f.pending } := by rw [← htraced]
  rcases follow_seenCalls f calls hruns [] f.pending number with
    ⟨failure, hfailure⟩ | ⟨bodies, number', pending, hbodies, hfollow⟩
  · exact .inl ⟨failure, by rwa [← hf] at hfailure⟩
  rw [← hf] at hfollow
  let g : Frame := { f with pending, traced := waitingCallees calls bodies }
  refine .inr ⟨bodies, number', g, hbodies, hfollow, fun next => ?_, claims_eq_iff hbodies.isSome_eq⟩
  refine ⟨_, _, Frame.replayBlock_of_block (f := g) hblock next, ?_⟩
  rw [Frame.items_addPassage_addBlock, hsites]
  rfl

end Replay

/-!
## Two methods of one name

A method looks its argument up in a cache that is not traced, and then in a store that is.
-/

namespace Lookup

open Replay

def run : Method := ⟨"Lookup", "run", "(I)V"⟩

def cacheGet : Method := ⟨"Cache", "get", "(I)I"⟩

def storeGet : Method := ⟨"Store", "get", "(I)I"⟩

def key : Term := .argument .int 0

def cached : Term := .value .int "cached"

def stored : Term := .value .int "stored"

def callInto (result : Term) (method : Method) : Predicate :=
  ⟨.state, .binary .callInto result (.call .int method .null [key]), {}⟩

def block : Block := ⟨⟨0⟩, [], [callInto cached cacheGet, callInto stored storeGet], .return none⟩

def program : Program :=
  Program.Table.toProgram { methods := [
    { info := ⟨run, [.int], .void, true, false, false⟩, blocks := [block], body := .absent },
    { info := ⟨storeGet, [.int], .int, true, false, false⟩
      blocks := [⟨⟨0⟩, [], [], .return (some key)⟩]
      body := .absent }] }

def frame : Frame := { method := run }

def storeCall : PendingCall := ⟨storeGet, none, [key], some stored⟩

/-- The calls in the order in which they are made. -/
def calls : List SeenCall :=
  [⟨⟨cacheGet, none, [key], some cached⟩, none⟩, ⟨storeCall, some [.returned storeGet ⟨0⟩]⟩]

/-- The frame of the store at its end: it gives its argument back. -/
def storeFrame : Frame := (frame.callee program storeCall storeGet 1).push .state (.equal stored key)

theorem traced_calls :
    Traced program frame calls 0 [none, some storeFrame.builder.toState] 1 :=
  have hfollow (caller : Frame) (below : List Frame) (more : Trace) :
      follow program (.returned storeGet ⟨0⟩ :: more)
          (frame.callee program storeCall storeGet 1 :: caller :: below) 1 =
        follow program more (caller.receive storeFrame :: below) 1 := rfl
  .untraced (.traced hfollow rfl .nil)

/-- The predicate of the cache claims what was traced of the store. -/
theorem claims_of_lookup : (∀ c ∈ calls, ∀ run, c.run = some run → run.IsRun) ∧
    ∃ bodies number' g, Traced program frame calls 0 bodies number' ∧
      (∀ below more, follow program (calls.flatMap SeenCall.events ++ more) (frame :: below) 0 =
        follow program more (g :: below) number') ∧
      (∀ next, ∃ h value, g.replayBlock program run ⟨0⟩ next = .ok (h, value) ∧
        h.builder.toState.items = frame.itemsBehind block
          (claims program (calls.map SeenCall.site) (waitingCallees calls bodies)) next) ∧
      claims program (calls.map SeenCall.site) (waitingCallees calls bodies) ≠ bodies := by
  have hruns : ∀ c ∈ calls, ∀ run, c.run = some run → run.IsRun := by
    simp [calls, Trace.IsRun, Trace.endsFrames]
  have hblock : program.block? frame.method ⟨0⟩ = .ok (some block) := rfl
  refine ⟨hruns, ?_⟩
  rcases replay_calls 0 rfl hblock rfl hruns with
    ⟨failure, hfailure⟩ | ⟨bodies, number', g, htraced, hfollow, hreplay, hclaims⟩
  · cases hfailure [] []
  · refine ⟨bodies, number', g, htraced, hfollow, hreplay, fun hown => ?_⟩
    have hapart := hclaims.mp hown
    simp [calls, SeenCall.Apart, SeenCall.site, dispatches, storeCall, cacheGet, storeGet] at hapart

/-- The frame behind the calls: the store has been traced, the cache has not. -/
def behind : Frame := { frame with traced := [⟨storeGet, storeFrame.builder.toState⟩] }

/-- A predicate may claim the callee of a later call. -/
theorem misplaced_body : ¬∀ (program : Program) (f g h : Frame) (id : BlockId) (block : Block)
    (calls : List SeenCall) (number number' : Nat) (bodies : List (Option SymbolicState))
    (next : Option BlockId) (value : Option Term), f.traced = [] →
      program.block? f.method id = .ok (some block) →
      block.body.filterMap Frame.calledMethod? = calls.map SeenCall.site →
      Traced program f calls number bodies number' →
      (∀ below more, follow program (calls.flatMap SeenCall.events ++ more) (f :: below) number =
        follow program more (g :: below) number') →
      g.replayBlock program f.method id next = .ok (h, value) →
      h.builder.toState.items = f.itemsBehind block bodies next := by
  intro hall
  have hblock : program.block? behind.method ⟨0⟩ = .ok (some block) := rfl
  have hitems := hall program frame behind _ ⟨0⟩ block calls 0 1 _ none none rfl rfl rfl traced_calls
    (fun _ _ => rfl) (Frame.replayBlock_of_block hblock none)
  cases hitems

end Lookup
end Concolic
