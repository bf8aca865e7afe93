import Concolic.Proofs.Replay.Growth
import Concolic.Proofs.Term.Equality

/-!
# Replays of traces that are cut short

A trace may end anywhere. What replay gathers up to a cut is a start of what it gathers from the
whole trace, as long as no callee that is in progress at the cut is left behind it. A callee that
is left is put in the place of its call, behind what the block of the call adds, and the way on
from the block before is only known then; so a cut inside it shows the callee without what
precedes it.

## Main statements

* `items_of_cut` — a replay starts with that of the trace cut short.
* `path_of_cut` — so does its path condition.
* `branch_behind_callee` — a cut inside a callee that is left later loses a branch of the caller.
-/

namespace Concolic

namespace Trace

variable {kept whole rest more : Trace} {target : Method}

/-! ## What concerns a method -/

theorem outsideInitializers_mono (h : kept <+: whole) :
    ∀ level : Nat, outsideInitializers level kept <+: outsideInitializers level whole := by
  obtain ⟨more, rfl⟩ := h
  induction kept with
  | nil => exact fun _ => List.nil_prefix
  | cons e kept ih =>
    intro level
    cases e with
    | initializing => exact ih (level + 1)
    | initialized => exact ih (level - 1)
    | entered | passed | returned | threw | called =>
      simp only [List.cons_append, outsideInitializers]
      split
      · exact (List.cons_prefix_cons.mpr ⟨rfl, ih level⟩)
      · exact ih level

theorem relevant_mono (target : Method) (h : kept <+: whole) :
    kept.relevant target <+: whole.relevant target := by
  obtain ⟨more, hmore⟩ := outsideInitializers_mono h 0
  rw [relevant, relevant, ← hmore, List.dropWhile_append]
  split
  · next hnone =>
    rw [List.isEmpty_iff.mp hnone]
    exact List.nil_prefix
  · exact List.prefix_append _ _

theorem length_outsideInitializers_concat (kept : Trace) (e : Event) : ∀ (level : Nat),
    (outsideInitializers level (kept ++ [e])).length ≤
      (outsideInitializers level kept).length + 1 := by
  induction kept with
  | nil =>
    intro level
    cases e with
    | initializing | initialized => simp [outsideInitializers]
    | entered | passed | returned | threw | called =>
      simp only [List.nil_append, outsideInitializers]
      split <;> simp
  | cons d kept ih =>
    intro level
    cases d with
    | initializing => exact ih (level + 1)
    | initialized => exact ih (level - 1)
    | entered | passed | returned | threw | called =>
      simp only [List.cons_append, outsideInitializers]
      split
      · exact Nat.succ_le_succ (ih level)
      · exact ih level

/-- One more event adds at most itself. -/
theorem length_relevant_concat (kept : Trace) (e : Event) (target : Method) :
    ((kept ++ [e]).relevant target).length ≤ (kept.relevant target).length + 1 := by
  obtain ⟨more, hmore⟩ := outsideInitializers_mono (List.prefix_append kept [e]) 0
  have hlength := length_outsideInitializers_concat kept e 0
  rw [relevant, relevant, ← hmore, List.dropWhile_append]
  rw [← hmore, List.length_append] at hlength
  have hdrop := (List.dropWhile_suffix (fun e => !isEntry target e) (l := more)).length_le
  split
  · next hnone =>
    rw [List.isEmpty_iff.mp hnone, List.length_nil]
    omega
  · rw [List.length_append]
    omega

/-- What concerns a method can be cut short by cutting the trace short. -/
theorem exists_cut_of_relevant {cut : Trace} (hkept : kept.relevant target <+: cut) :
    cut <+: (kept ++ rest).relevant target →
      ∃ part : Trace, kept <+: part ∧ part <+: kept ++ rest ∧ part.relevant target = cut := by
  induction rest generalizing kept with
  | nil =>
    intro hcut
    rw [List.append_nil] at hcut ⊢
    exact ⟨kept, List.prefix_rfl, List.prefix_rfl,
      hkept.eq_of_length (Nat.le_antisymm hkept.length_le hcut.length_le)⟩
  | cons e rest ih =>
    intro hcut
    by_cases hsame : kept.relevant target = cut
    · exact ⟨kept, List.prefix_rfl, List.prefix_append _ _, hsame⟩
    · have hassoc : kept ++ e :: rest = kept ++ [e] ++ rest := by simp
      have hlonger : (kept.relevant target).length < cut.length :=
        Nat.lt_of_le_of_ne hkept.length_le fun h => hsame (hkept.eq_of_length h)
      have hone := length_relevant_concat kept e target
      rw [hassoc] at hcut ⊢
      have hnext : (kept ++ [e]).relevant target <+: cut :=
        List.prefix_of_prefix_length_le (relevant_mono target (List.prefix_append _ _)) hcut
          (by omega)
      obtain ⟨part, hpart, hwhole, hrelevant⟩ := ih hnext hcut
      exact ⟨part, (List.prefix_append _ _).trans hpart, hwhole, hrelevant⟩

/-! ## Frames in progress -/

/-- The number of frames after the events, given the number before; none are entered once the
last one is left. -/
def framesAfter : (frames : Nat) → Trace → Nat
  | frames, [] => frames
  | frames, .entered _ :: rest => framesAfter (frames + 1) rest
  | 1, .returned _ _ :: _ => 0
  | 1, .threw _ _ _ :: _ => 0
  | frames + 2, .returned _ _ :: rest => framesAfter (frames + 1) rest
  | frames + 2, .threw _ _ _ :: rest => framesAfter (frames + 1) rest
  | frames, _ :: rest => framesAfter frames rest

/-- The number of callees of the method that are in progress at the end of the trace. -/
def callDepth (trace : Trace) (target : Method) : Nat := framesAfter 0 (trace.relevant target) - 1

/-- When a frame above others is left, the others remain. -/
theorem exists_cut_of_leaves (below : Nat) {above : Nat} (h : leaves above more = true) :
    ∃ cut, cut <+: more ∧ framesAfter (above + below + 2) cut = below + 1 := by
  induction more generalizing above with
  | nil => simp [leaves] at h
  | cons e rest ih =>
    have hcons {frames : Nat} {above : Nat} (hrest : leaves above rest = true)
        (hframes : ∀ cut, framesAfter frames (e :: cut) = framesAfter (above + below + 2) cut) :
        ∃ cut, cut <+: e :: rest ∧ framesAfter frames cut = below + 1 := by
      obtain ⟨cut, hcut, hafter⟩ := ih hrest
      exact ⟨e :: cut, List.cons_prefix_cons.mpr ⟨rfl, hcut⟩, (hframes cut).trans hafter⟩
    cases e with
    | entered =>
      rw [leaves] at h
      refine hcons h fun cut => ?_
      rw [framesAfter, Nat.add_right_comm above, Nat.add_right_comm _ 1]
    | returned | threw =>
      cases above with
      | zero =>
        refine ⟨[_], List.cons_prefix_cons.mpr ⟨rfl, List.nil_prefix⟩, ?_⟩
        rw [Nat.zero_add, framesAfter, framesAfter]
      | succ above =>
        rw [leaves] at h
        refine hcons h fun cut => ?_
        rw [show above + 1 + below + 2 = above + below + 1 + 2 by omega, framesAfter]
    | passed | called | initializing | initialized =>
      simp only [leaves] at h
      exact hcons h fun cut => by simp only [framesAfter]

/-- Frames below one that is not left do not go on. -/
theorem nextBlock?_of_not_leaves (index : Nat) {above : Nat} (h : leaves above more = false) :
    nextBlock? (above + index + 1) more = none := by
  induction more generalizing above with
  | nil => rw [nextBlock?]
  | cons e rest ih =>
    cases e with
    | entered =>
      rw [leaves] at h
      rw [nextBlock?, ← ih h, Nat.add_right_comm above]
    | returned | threw =>
      cases above with
      | zero => simp [leaves] at h
      | succ above =>
        rw [leaves] at h
        rw [nextBlock?, ← ih h, Nat.add_right_comm above]
    | passed | called | initializing | initialized =>
      simp only [leaves] at h
      simp only [nextBlock?, ih h]

end Trace

namespace Replay

variable {program : Program}

/-! ## Following a trace and its cut -/

/-- A frame at some depth leaves a next block that is only seen behind the cut. -/
def Resumes (rest more : Trace) (depth : Nat) : Prop :=
  Trace.nextBlock? depth rest = none ∧ (Trace.nextBlock? depth (rest ++ more)).isSome = true

/-- Frames of which some have gathered more than their counterparts: those that are known to go
on, by what is said of their depths. -/
inductive Ahead : (goesOn : Nat → Prop) → List Frame → List Frame → Prop
  | nil {goesOn : Nat → Prop} : Ahead goesOn [] []
  | cons {goesOn : Nat → Prop} {f : Frame} {extra : List Predicate} {fs gs : List Frame} :
      f.IsLinear → (extra ≠ [] → goesOn 0) → Ahead (fun depth => goesOn (depth + 1)) fs gs →
      Ahead goesOn (f.pushAll extra :: fs) (f :: gs)

namespace Ahead

variable {goesOn goesOn' : Nat → Prop} {f : Frame} {fs gs : List Frame}

theorem same (hf : f.IsLinear) (h : Ahead (fun depth => goesOn (depth + 1)) fs gs) :
    Ahead goesOn (f :: fs) (f :: gs) :=
  have hnone : Ahead goesOn (f.pushAll [] :: fs) (f :: gs) :=
    .cons hf (fun hne => absurd rfl hne) h
  hnone

theorem mono (h : Ahead goesOn fs gs) (hgoesOn : ∀ depth, goesOn depth → goesOn' depth) :
    Ahead goesOn' fs gs := by
  induction h generalizing goesOn' with
  | nil => exact .nil
  | cons hf hextra _ ih =>
    exact .cons hf (fun hne => hgoesOn 0 (hextra hne)) (ih fun depth => hgoesOn (depth + 1))

/-- Where no frame goes on, all have gathered the same. -/
theorem eq (h : Ahead goesOn fs gs) (hnone : gs ≠ [] → ∀ depth, ¬goesOn depth) : fs = gs := by
  induction h with
  | nil => rfl
  | cons _ hextra _ ih =>
    have hnone := hnone (List.cons_ne_nil _ _)
    rw [ih fun _ depth => hnone (depth + 1), Classical.not_not.mp fun hne => hnone 0 (hextra hne),
      Frame.pushAll_nil]

theorem linear (h : Ahead goesOn fs gs) : ∀ g ∈ gs, g.IsLinear := by
  induction h with
  | nil => exact List.forall_mem_nil _
  | cons hf _ _ ih => exact List.forall_mem_cons.mpr ⟨hf, ih⟩

end Ahead

/-- From here on the trace and its cut either come to the same, or the cut is reached with frames
that the trace goes on from, where the cut takes them as unfinished. -/
def Parallel (program : Program) (more rest : Trace) (fs gs : List Frame) (entered : Nat) : Prop :=
  follow program (rest ++ more) fs entered = follow program rest gs entered ∨
    ∃ fs' gs' entered', Ahead (Resumes [] more) fs' gs' ∧
      follow program (rest ++ more) fs entered = follow program more fs' entered' ∧
      follow program rest gs entered = .ok (unfinished gs').simplify ∧
      ∀ cut, Trace.framesAfter gs.length (rest ++ cut) = Trace.framesAfter gs'.length cut

theorem Parallel.step {e : Event} {more rest : Trace} {fs gs fs' gs' : List Frame}
    {entered entered' : Nat} (h : Parallel program more rest fs' gs' entered')
    (hfs : follow program (e :: (rest ++ more)) fs entered =
      follow program (rest ++ more) fs' entered')
    (hgs : follow program (e :: rest) gs entered = follow program rest gs' entered')
    (hframes : ∀ cut, Trace.framesAfter gs.length (e :: cut) =
      Trace.framesAfter gs'.length cut) : Parallel program more (e :: rest) fs gs entered := by
  rw [Parallel, List.cons_append, hfs, hgs]
  refine h.imp_right ?_
  rintro ⟨fs'', gs'', entered'', hahead, hmore, hcut, hafter⟩
  exact ⟨fs'', gs'', entered'', hahead, hmore, hcut, fun cut => (hframes _).trans (hafter cut)⟩

theorem isLinear_entered (method : Method) : ({ method } : Frame).IsLinear :=
  ⟨State.isLinear_empty, by simp⟩

/-- A block is left and the frame goes on. -/
theorem Parallel.passed {method : Method} {block : BlockId} {more rest : Trace}
    {f : Frame} {fs gs : List Frame} {entered : Nat} (hf : f.IsLinear)
    (h : Ahead (fun depth => Resumes rest more (depth + 1)) fs gs)
    (hrest : ∀ fs gs entered, Ahead (Resumes rest more) fs gs →
      Parallel program more rest fs gs entered) :
    Parallel program more (.passed method block :: rest) (f :: fs) (f :: gs) entered := by
  rcases f.replayBlock_next method block with ⟨failure, hfailure⟩ | ⟨g, value, hblock⟩
  · refine .inl ?_
    rw [List.cons_append, follow, follow, hfailure, hfailure]
    rfl
  · obtain ⟨extra, hextra, hcut⟩ := hblock (Trace.nextBlock? 0 rest)
    have hg : (g.pushAll extra).IsLinear := Frame.isLinear_replayBlock hf hcut
    have hgrown : ∃ extra', (extra' ≠ [] → Resumes rest more 0) ∧
        f.replayBlock program method block (Trace.nextBlock? 0 (rest ++ more)) =
          .ok ((g.pushAll extra).pushAll extra', value) := by
      cases hnext : Trace.nextBlock? 0 rest with
      | some next =>
        refine ⟨[], fun hne => absurd rfl hne, ?_⟩
        rw [Trace.nextBlock?_append more hnext, ← hnext, hcut, Frame.pushAll_nil]
      | none =>
        obtain ⟨extra', hextra', hwhole⟩ := hblock (Trace.nextBlock? 0 (rest ++ more))
        refine ⟨extra', fun hne => ⟨hnext, ?_⟩, ?_⟩
        · exact Option.isSome_iff_ne_none.mpr fun hnone => hne (hextra' hnone)
        · rw [hwhole, hextra hnext, Frame.pushAll_nil]
    obtain ⟨extra', hextra', hwhole⟩ := hgrown
    refine (hrest (({ g.pushAll extra with previous := some block } : Frame).pushAll extra' :: fs)
      ({ g.pushAll extra with previous := some block } :: gs) entered
      (.cons ⟨hg.builder, hg.traced⟩ hextra' h)).step ?_ ?_ fun cut => ?_
    · rw [follow, hwhole]
      rfl
    · rw [follow, hcut]
      rfl
    · simp only [Trace.framesAfter, List.length_cons]

/-- A frame is left, and its caller goes on. -/
theorem Parallel.left {e : Event} {more rest : Trace} {f frame : Frame} {fs gs : List Frame}
    {entered : Nat} (hframe : frame.IsLinear) (h : Ahead (Resumes rest more) fs gs)
    (hrest : ∀ fs gs entered, Ahead (Resumes rest more) fs gs →
      Parallel program more rest fs gs entered)
    (hfs : follow program (e :: (rest ++ more)) (f :: fs) entered =
      leave frame fs fun frames => follow program (rest ++ more) frames entered)
    (hgs : follow program (e :: rest) (f :: gs) entered =
      leave frame gs fun frames => follow program rest frames entered)
    (hframes : ∀ frames cut, Trace.framesAfter (frames + 2) (e :: cut) =
      Trace.framesAfter (frames + 1) cut) :
    Parallel program more (e :: rest) (f :: fs) (f :: gs) entered := by
  cases h with
  | nil => exact .inl (by rw [List.cons_append, hfs, hgs]; rfl)
  | @cons _ caller extra fs gs hcaller hextra htail =>
    have hreceived := Frame.isLinear_receive hcaller hframe
    exact (hrest ((caller.receive frame).pushAll extra :: fs) (caller.receive frame :: gs)
      entered (.cons hreceived hextra htail)).step hfs hgs fun cut => hframes _ cut

/-- A trace and its cut are followed alike, up to what only the trace shows to come next. -/
theorem parallel_follow (more : Trace) : ∀ (rest : Trace) (fs gs : List Frame) (entered : Nat),
    Ahead (Resumes rest more) fs gs → Parallel program more rest fs gs entered := by
  intro rest
  induction rest with
  | nil =>
    intro fs gs entered h
    exact .inr ⟨fs, gs, entered, h, rfl, by rw [follow], fun cut => rfl⟩
  | cons e rest ih =>
    intro fs gs entered h
    cases h with
    | nil =>
      cases e with
      | entered method =>
        exact (ih [{ method }] [{ method }] entered (.same (isLinear_entered method) .nil)).step
          rfl rfl fun cut => rfl
      | called | passed | returned | threw | initializing | initialized =>
        exact (ih [] [] entered .nil).step rfl rfl fun cut => by
          simp only [List.length_nil, Trace.framesAfter]
    | @cons _ f extra fs gs hf hextra htail =>
      -- Only a frame that is not left before the cut is known to go on behind it.
      have hnone (hnext : (Trace.nextBlock? 0 (e :: rest)).isSome = true) : extra = [] :=
        Classical.not_not.mp fun hne => by simp [(hextra hne).1] at hnext
      cases e with
      | entered method =>
        let frame := nestedFrame program method
          (f.pending.filter fun call => dispatches program call.method method) (entered + 1)
        exact (ih (frame :: ({ f with pending := none } : Frame).pushAll extra :: fs)
          (frame :: { f with pending := none } :: gs) (entered + 1)
          (.same (isLinear_nestedFrame _ _ _) (.cons ⟨hf.builder, hf.traced⟩ hextra htail))).step
          rfl rfl fun cut => rfl
      | called method receiver arguments target =>
        let call : PendingCall := ⟨method, receiver, arguments, target⟩
        exact (ih ((f.announce call).pushAll extra :: fs) (f.announce call :: gs) entered
          (.cons ⟨hf.builder, hf.traced⟩ hextra htail)).step rfl rfl fun cut => by
            simp only [List.length_cons, Trace.framesAfter]
      | passed method block =>
        obtain rfl := hnone rfl
        exact .passed hf htail ih
      | returned method block =>
        obtain rfl := hnone rfl
        rw [Frame.pushAll_nil]
        have hisEmpty : fs.isEmpty = gs.isEmpty := by cases htail <;> rfl
        cases hblock : f.replayBlock program method block none with
        | error failure =>
          refine .inl ?_
          rw [List.cons_append, follow, follow, hblock]
          rfl
        | ok result =>
          have hresult := Frame.isLinear_replayBlock hf hblock
          refine .left (Frame.isLinear_bindReturned program hresult gs.isEmpty result.2) htail ih
            ?_ ?_ fun frames cut => by rw [Trace.framesAfter]
          · rw [follow, hblock, hisEmpty]
            rfl
          · rw [follow, hblock]
            rfl
      | threw method block value =>
        obtain rfl := hnone rfl
        rw [Frame.pushAll_nil]
        cases hblock : f.replayBlock program method block none with
        | error failure =>
          refine .inl ?_
          rw [List.cons_append, follow, follow, hblock]
          rfl
        | ok result =>
          refine .left (Frame.isLinear_replayBlock hf hblock) htail ih ?_ ?_
            fun frames cut => by rw [Trace.framesAfter]
          · rw [follow, hblock]
            rfl
          · rw [follow, hblock]
            rfl
      | initializing | initialized =>
        exact (ih (f.pushAll extra :: fs) (f :: gs) entered (.cons hf hextra htail)).step rfl rfl
          fun cut => by simp only [List.length_cons, Trace.framesAfter]

/-! ## Traces that are cut short -/

theorem startsWith_of_items {s t : SymbolicState} (h : t.items <+: s.items) :
    s.startsWith t = true :=
  State.startsWith_iff_key.mpr (h.map State.Item.toClass)

/-- A path condition of a linear state starts with that of a linear start of the state. -/
theorem path_startsWith_of_items {s t : SymbolicState} (hs : s.IsLinear) (ht : t.IsLinear)
    (h : t.items <+: s.items) : s.path.startsWith t.path = true := by
  refine startsWith_of_items ?_
  rw [State.items_path hs, State.items_path ht]
  exact ((h.filterMap State.Item.part?).filter Clause.isPath).map State.Item.part

variable {target : Method} {kept whole : Trace} {s : SymbolicState}

/-- Once the cut is reached, what the cut takes as unfinished is a start of what the whole trace
replays to, if a callee on top is not left. -/
theorem prefix_of_ahead {more : Trace} {fs gs : List Frame} {entered : Nat}
    (h : Ahead (Resumes [] more) fs gs) (hleaves : 2 ≤ gs.length → Trace.leaves 0 more = false)
    (hs : follow program more fs entered = .ok s) : (unfinished gs).items <+: s.items := by
  have hlinear := h.linear
  cases h with
  | nil =>
    rw [unfinished, List.foldl_nil, State.items_empty]
    exact List.nil_prefix
  | @cons _ f extra fs gs hf hextra htail =>
    have hnot : gs ≠ [] → Trace.leaves 0 more = false := fun hne =>
      hleaves (Nat.succ_le_succ (List.length_pos_iff.mpr hne))
    have hbelow : fs = gs := htail.eq fun hne depth hdepth => by
      have hnone := Trace.nextBlock?_of_not_leaves depth (hnot hne)
      rw [Nat.zero_add] at hnone
      simp [Resumes, hnone] at hdepth
    have hstays : Stays (f.pushAll extra) gs 0 (f.pushAll extra :: gs) :=
      ⟨List.forall_mem_cons.mpr ⟨hf.pushAll extra, (List.forall_mem_cons.mp hlinear).2⟩,
        [], f.pushAll extra, rfl, rfl, List.prefix_rfl⟩
    rw [hbelow] at hs
    refine List.IsPrefix.trans ?_ (prefix_follow more _ entered 0 hstays hnot s hs)
    rw [items_unfinished_cons, items_unfinished_cons]
    exact (List.prefix_append_right_inj _).mpr (Frame.prefix_pushAll f extra)

/-- If no callee in progress at the cut is left behind it, replaying what is kept gives a start of
what the whole trace replays to. -/
theorem items_of_cut (hstart : kept <+: whole)
    (hstays : ∀ cut : Trace, kept <+: cut → cut <+: whole → kept.callDepth target ≤ cut.callDepth target)
    (hs : build program target whole = .ok s) :
    ∃ s', build program target kept = .ok s' ∧ s'.items <+: s.items := by
  obtain ⟨more, hmore⟩ := Trace.relevant_mono target hstart
  rw [build, ← hmore] at hs
  rcases parallel_follow more (kept.relevant target) [] [] 0 .nil with
    hsame | ⟨fs, gs, entered, hahead, hwhole, hcut, hframes⟩
  · exact ⟨s, hsame.symm.trans hs, List.prefix_rfl⟩
  · refine ⟨_, hcut, ?_⟩
    rw [State.items_simplify_of_isLinear _ (isLinear_unfinished hahead.linear)]
    refine prefix_of_ahead hahead (fun hgs => ?_) (hwhole.symm.trans hs)
    rw [Bool.eq_false_iff]
    intro hleft
    obtain ⟨below, hbelow⟩ := Nat.exists_eq_add_of_le' hgs
    obtain ⟨cut, hcutmore, hafter⟩ := Trace.exists_cut_of_leaves below hleft
    obtain ⟨tail, rfl⟩ := hstart
    obtain ⟨part, hpart, hpartwhole, hrelevant⟩ :=
      Trace.exists_cut_of_relevant (List.prefix_append (kept.relevant target) cut)
        (hmore ▸ (List.prefix_append_right_inj _).mpr hcutmore)
    have hdepth := hstays part hpart hpartwhole
    have hkept := hframes []
    rw [List.append_nil, Trace.framesAfter] at hkept
    rw [Nat.zero_add] at hafter
    simp only [Trace.callDepth, hrelevant] at hdepth
    have hlength : ([] : List Frame).length = 0 := rfl
    rw [← hlength, hkept, hframes, hbelow, hafter] at hdepth
    omega

/-- **Cut traces.** Take a trace and a start of it behind which no callee that is in progress is
left. If the whole trace can be replayed, so can the start of it, and the path condition of the
whole starts with that of the start. -/
theorem path_of_cut (hstart : kept <+: whole)
    (hstays : ∀ cut : Trace, kept <+: cut → cut <+: whole → kept.callDepth target ≤ cut.callDepth target)
    (hs : build program target whole = .ok s) :
    ∃ s', build program target kept = .ok s' ∧ s.path.startsWith s'.path = true := by
  obtain ⟨s', hs', hitems⟩ := items_of_cut hstart hstays hs
  exact ⟨s', hs', path_startsWith_of_items (isLinear_build hs) (isLinear_build hs') hitems⟩

end Replay

/-!
## A call behind a branch

A method that branches and then calls another one, which branches as well.
-/

namespace Detour

open Replay

def outer : Method := ⟨"Detour", "outer", "(ZZ)V"⟩

def inner : Method := ⟨"Detour", "inner", "(Z)V"⟩

def first : Term := .argument .bool 0

def second : Term := .argument .bool 1

def program : Program :=
  Program.Table.toProgram { methods := [
    { info := ⟨outer, [.bool, .bool], .void, true, false, false⟩
      blocks := [⟨⟨0⟩, [], [], .branch first ⟨1⟩ ⟨2⟩⟩,
        ⟨⟨1⟩, [], [⟨.state, .unary .call (.call .void inner .null [second]), {}⟩], .jump ⟨2⟩⟩,
        ⟨⟨2⟩, [], [], .return none⟩]
      body := .absent },
    { info := ⟨inner, [.bool], .void, true, false, false⟩
      blocks := [⟨⟨0⟩, [], [], .branch first ⟨1⟩ ⟨2⟩⟩, ⟨⟨1⟩, [], [], .jump ⟨2⟩⟩,
        ⟨⟨2⟩, [], [], .return none⟩]
      body := .absent }] }

/-- Both branches are taken; the callee is entered by the fourth event and left by the seventh. -/
def trace : Trace :=
  [.entered outer, .passed outer ⟨0⟩, .called inner none [second] none, .entered inner,
    .passed inner ⟨0⟩, .passed inner ⟨1⟩, .returned inner ⟨2⟩, .passed outer ⟨1⟩,
    .returned outer ⟨2⟩]

def taken (condition : Term) : Predicate := ⟨.path, .equal condition (.bool true), {}⟩

theorem build_trace : build program outer trace = .ok (.basic [taken first, taken second]) := rfl

/-- Cut inside the callee, the trace does not show where the branch before the call has led. -/
theorem build_inside_callee :
    build program outer (trace.take 6) = .ok (.basic [taken second]) := rfl

/-- What is kept of a trace may lack a branch of the whole that comes before others. -/
theorem branch_behind_callee : ¬∀ (program : Program) (target : Method) (kept whole : Trace)
    (s s' : SymbolicState), kept <+: whole → build program target whole = .ok s →
      build program target kept = .ok s' → s.path.startsWith s'.path = true := by
  intro hall
  have hstarts := hall program outer (trace.take 6) trace _ _ ( List.take_prefix 6 trace)
    build_trace build_inside_callee
  exact absurd hstarts (by decide)

/-- Cut behind the call, the trace shows both branches. -/
theorem path_behind_call : ∃ s', build program outer (trace.take 8) = .ok s' ∧
    (State.basic [taken first, taken second]).path.startsWith s'.path = true :=
  path_of_cut ( List.take_prefix 8 trace) (fun _ _ _ => Nat.zero_le _) build_trace

end Detour
end Concolic
