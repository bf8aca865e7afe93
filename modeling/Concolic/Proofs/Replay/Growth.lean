import Concolic.Proofs.Replay.Flattening
import Concolic.Proofs.Replay.Linear

/-!
# Frames only gather more

Whatever events are followed, what a frame has gathered stays at the front of what it gathers
later. As long as a frame is not left, nothing changes in those below it.

## Main statements

* `Frame.replayBlock_next` — knowing the next block can only add the way to it.
* `prefix_follow` — what frames have gathered starts what the rest of the trace leads to.
-/

namespace Concolic

namespace Trace

/-- Whether a frame is left, given the number of frames above it. -/
def leaves : (above : Nat) → Trace → Bool
  | _, [] => false
  | above, .entered _ :: rest => leaves (above + 1) rest
  | 0, .returned _ _ :: _ => true
  | 0, .threw _ _ _ :: _ => true
  | above + 1, .returned _ _ :: rest => leaves above rest
  | above + 1, .threw _ _ _ :: rest => leaves above rest
  | above, _ :: rest => leaves above rest

/-- The next block is known where it is known from less. -/
theorem nextBlock?_append {rest : Trace} {id : BlockId} {depth : Nat} (more : Trace)
    (h : nextBlock? depth rest = some id) : nextBlock? depth (rest ++ more) = some id := by
  induction rest generalizing depth with
  | nil => simp [nextBlock?] at h
  | cons e rest ih =>
    cases e with
    | entered =>
      rw [nextBlock?] at h
      rw [List.cons_append, nextBlock?, ih h]
    | returned | threw | passed | called | initializing | initialized =>
      cases depth with
      | zero =>
        simp only [nextBlock?, Event.block?, Option.some_or, Option.none_or] at h
        simp only [List.cons_append, nextBlock?, Event.block?, Option.some_or, Option.none_or]
        first | exact h | exact ih h
      | succ depth =>
        simp only [nextBlock?] at h
        simp only [List.cons_append, nextBlock?, ih h]

end Trace

namespace Replay

variable {program : Program}

/-! ## What frames have gathered -/

theorem Frame.pushAll_nil (f : Frame) : f.pushAll [] = f := rfl

theorem Frame.items_pushAll (f : Frame) (more : List Predicate) :
    (f.pushAll more).builder.toState.items = f.builder.toState.items ++ more.map .part := by
  induction more generalizing f with
  | nil => simp [Frame.pushAll_nil]
  | cons p more ih =>
    have hcons : f.pushAll (p :: more) = (f.pushAll [p]).pushAll more := rfl
    have hone : (f.pushAll [p]).builder.toState.items = f.builder.toState.items ++ [.part p] :=
      StateBuilder.items_toState_push f.builder p
    rw [hcons, ih, hone, List.map_cons, List.append_assoc, List.singleton_append]

theorem Frame.IsLinear.pushAll {f : Frame} (h : f.IsLinear) (more : List Predicate) :
    (f.pushAll more).IsLinear := by
  induction more generalizing f with
  | nil => exact h
  | cons p more ih => exact ih (f := f.pushAll [p]) ⟨h.builder, h.traced⟩

theorem items_unfinished_cons (f : Frame) (frames : List Frame) :
    (unfinished (f :: frames)).items = (unfinished frames).items ++ f.builder.toState.items := by
  have hfoldl (frames : List Frame) (s : SymbolicState) :
      (frames.foldl (fun s f => f.builder.toState.concat s) s).items =
        (unfinished frames).items ++ s.items := by
    induction frames generalizing s with
    | nil => simp [unfinished]
    | cons g frames ih =>
      rw [unfinished, List.foldl_cons, List.foldl_cons, ih, ih (_ : SymbolicState)]
      simp
  rw [unfinished, List.foldl_cons, hfoldl]
  simp

/-- Frames below others, with one above them that has gathered at least as much as the given one
and so many frames above that. -/
structure Stays (f : Frame) (below : List Frame) (count : Nat) (frames : List Frame) : Prop where
  linear : ∀ g ∈ frames, g.IsLinear
  above : ∃ above g, frames = above ++ g :: below ∧ above.length = count ∧
    f.builder.toState.items <+: g.builder.toState.items

namespace Stays

variable {f top top' : Frame} {below rest : List Frame} {count : Nat}

theorem push (h : Stays f below count rest) (htop : top.IsLinear) :
    Stays f below (count + 1) (top :: rest) := by
  obtain ⟨above, g, rfl, rfl, hg⟩ := h.above
  exact ⟨List.forall_mem_cons.mpr ⟨htop, h.linear⟩, top :: above, g, rfl, rfl, hg⟩

theorem pop (h : Stays f below (count + 1) (top :: rest)) : Stays f below count rest := by
  obtain ⟨_ | ⟨_, above⟩, g, hframes, hcount, hg⟩ := h.above
  · cases hcount
  · obtain ⟨-, rfl⟩ := List.cons.inj hframes
    exact ⟨(List.forall_mem_cons.mp h.linear).2, above, g, rfl, Nat.succ.inj hcount, hg⟩

/-- The frame in use may gather more. -/
theorem grow (h : Stays f below count (top :: rest)) (hlinear : top'.IsLinear)
    (hitems : top.builder.toState.items <+: top'.builder.toState.items) :
    Stays f below count (top' :: rest) := by
  refine ⟨List.forall_mem_cons.mpr ⟨hlinear, (List.forall_mem_cons.mp h.linear).2⟩, ?_⟩
  obtain ⟨_ | ⟨_, above⟩, g, hframes, hcount, hg⟩ := h.above
  · obtain ⟨rfl, rfl⟩ := List.cons.inj hframes
    exact ⟨[], top', rfl, hcount, hg.trans hitems⟩
  · obtain ⟨rfl, rfl⟩ := List.cons.inj hframes
    exact ⟨top' :: above, g, rfl, hcount, hg⟩

end Stays

/-! ## Frames only gather more -/

namespace Frame

variable {f g : Frame} {method : Method} {id : BlockId} {value : Option Term}

theorem prefix_pushAll (f : Frame) (more : List Predicate) :
    f.builder.toState.items <+: (f.pushAll more).builder.toState.items := by
  rw [items_pushAll]
  exact List.prefix_append _ _

theorem prefix_addPredicate (f : Frame) (p : Predicate) :
    f.builder.toState.items <+: (addPredicate program f p).builder.toState.items := by
  unfold addPredicate
  split
  · rw [StateBuilder.items_toState_append]
    exact List.prefix_append _ _
  · rw [StateBuilder.items_toState_push]
    exact List.prefix_append _ _

/-- Knowing the next block can only add the way to it. -/
theorem addPassage_eq_pushAll (f : Frame) (terminator : Terminator) (next : Option BlockId) :
    ∃ extra, (next = none → extra = []) ∧ f.addPassage terminator next = f.pushAll extra := by
  cases next with
  | none => exact ⟨[], fun _ => rfl, addPassage_none f terminator⟩
  | some next => exact ⟨_, nofun, addPassage_eq f terminator next⟩

/-- The frame behind the body of a block. -/
def addBlock (program : Program) (f : Frame) (block : Block) : Frame :=
  { block.body.foldl (addPredicate program) (f.enterBlock block.phis) with traced := [] }

/-- A block cannot be replayed, whatever comes next, or is a block of the frame's method. -/
theorem replayBlock_cases (program : Program) (f : Frame) (method : Method) (id : BlockId) :
    (∃ failure, ∀ next, f.replayBlock program method id next = .error failure) ∨
      ∃ block, ∀ next, f.replayBlock program method id next =
        .ok ((f.addBlock program block).addPassage block.terminator next,
          (f.addBlock program block).returnedValue? block.terminator) := by
  by_cases hmethod : f.method = method
  · rcases hblock : program.block? method id with failure | _ | block
    · refine .inl ⟨failure, fun next => ?_⟩
      rw [replayBlock, if_neg (by simp [hmethod]), hblock]
      rfl
    · refine .inl ⟨.program (.unknownBlock id method), fun next => ?_⟩
      rw [replayBlock, if_neg (by simp [hmethod]), hblock]
      rfl
    · refine .inr ⟨block, fun next => ?_⟩
      rw [replayBlock, if_neg (by simp [hmethod]), hblock]
      rfl
  · exact .inl ⟨.execution (.leftFrame id method f.method), fun next => if_pos hmethod⟩

theorem addBlock_frame (program : Program) (f : Frame) (block : Block) :
    ∃ builder, f.addBlock program block = { f with builder, traced := [] } := by
  have hbody (body : List Predicate) (f : Frame) : ∃ builder traced,
      body.foldl (addPredicate program) f = { f with builder, traced } := by
    induction body generalizing f with
    | nil => exact ⟨f.builder, f.traced, rfl⟩
    | cons p body ih =>
      obtain ⟨builder, traced, hp⟩ : ∃ builder traced,
          addPredicate program f p = { f with builder, traced } := by
        unfold addPredicate
        split <;> exact ⟨_, _, rfl⟩
      obtain ⟨builder', traced', hbody⟩ := ih { f with builder, traced }
      exact ⟨builder', traced', by rw [List.foldl_cons, hp, hbody]⟩
  obtain ⟨builder, traced, h⟩ := hbody block.body (f.enterBlock block.phis)
  refine ⟨builder, ?_⟩
  rw [addBlock, h, enterBlock_eq]
  rfl

/-- Replaying a block changes what the frame has gathered and what waits in it. -/
theorem replayBlock_frame {next : Option BlockId}
    (h : f.replayBlock program method id next = .ok (g, value)) :
    ∃ builder, g = { f with builder, traced := [] } := by
  rcases replayBlock_cases program f method id with ⟨failure, hfailure⟩ | ⟨block, hblock⟩
  · rw [hfailure] at h
    cases h
  · rw [hblock] at h
    obtain ⟨rfl, -⟩ := Prod.mk.inj (Except.ok.inj h)
    obtain ⟨extra, -, hpassage⟩ :=
      addPassage_eq_pushAll (f.addBlock program block) block.terminator next
    obtain ⟨builder, hframe⟩ := addBlock_frame program f block
    rw [hpassage, hframe]
    exact ⟨_, rfl⟩

theorem site_bindReturned (program : Program) (f : Frame) (isTarget : Bool)
    (value : Option Term) : (value.elim f (f.bindResult program isTarget)).site = f.site := by
  cases value with
  | none => rfl
  | some value =>
    rw [Option.elim_some, bindResult_eq]
    rfl

/-- What a block adds apart from the way to the next does not depend on the next. -/
theorem replayBlock_next (f : Frame) (method : Method) (id : BlockId) :
    (∃ failure, ∀ next, f.replayBlock program method id next = .error failure) ∨
      ∃ (g : Frame) (value : Option Term), ∀ next, ∃ extra, (next = none → extra = []) ∧
        f.replayBlock program method id next = .ok (g.pushAll extra, value) := by
  refine (replayBlock_cases program f method id).imp_right ?_
  rintro ⟨block, hblock⟩
  refine ⟨f.addBlock program block, (f.addBlock program block).returnedValue? block.terminator,
    fun next => ?_⟩
  obtain ⟨extra, hextra, hpassage⟩ :=
    addPassage_eq_pushAll (f.addBlock program block) block.terminator next
  exact ⟨extra, hextra, by rw [hblock, hpassage]⟩

theorem prefix_addBlock (f : Frame) (block : Block) :
    f.builder.toState.items <+: (f.addBlock program block).builder.toState.items := by
  have hbody (body : List Predicate) (f : Frame) : f.builder.toState.items <+:
      (body.foldl (addPredicate program) f).builder.toState.items := by
    induction body generalizing f with
    | nil => exact List.prefix_rfl
    | cons p body ih => exact (prefix_addPredicate f p).trans (ih _)
  refine List.IsPrefix.trans ?_ (hbody block.body (f.enterBlock block.phis))
  rw [enterBlock_eq]
  exact prefix_pushAll f _

theorem prefix_replayBlock {next : Option BlockId}
    (h : f.replayBlock program method id next = .ok (g, value)) :
    f.builder.toState.items <+: g.builder.toState.items := by
  rcases replayBlock_cases program f method id with ⟨failure, hfailure⟩ | ⟨block, hblock⟩
  · rw [hfailure] at h
    cases h
  · rw [hblock] at h
    obtain ⟨rfl, -⟩ := Prod.mk.inj (Except.ok.inj h)
    obtain ⟨extra, -, hpassage⟩ :=
      addPassage_eq_pushAll (f.addBlock program block) block.terminator next
    rw [hpassage]
    exact (prefix_addBlock f block).trans (prefix_pushAll _ extra)

theorem prefix_bindReturned (program : Program) (f : Frame) (isTarget : Bool)
    (value : Option Term) : f.builder.toState.items <+:
      (value.elim f (f.bindResult program isTarget)).builder.toState.items := by
  cases value with
  | none => exact List.prefix_rfl
  | some value =>
    rw [Option.elim_some, bindResult_eq]
    exact prefix_pushAll f _

theorem isLinear_bindReturned (program : Program) (h : f.IsLinear) (isTarget : Bool)
    (value : Option Term) : (value.elim f (f.bindResult program isTarget)).IsLinear := by
  cases value with
  | none => exact h
  | some value => exact isLinear_bindResult h _ _

end Frame

/-- A frame is left that is not the one that stays, or is the last one. -/
theorem Stays.prefix_leave {f frame : Frame} {below rest : List Frame} {count : Nat}
    {goOn : List Frame → Except Failure SymbolicState} {s : SymbolicState}
    (h : Stays f below count (frame :: rest)) (hcount : below ≠ [] → count ≠ 0)
    (hgoOn : ∀ n, count = n + 1 → ∀ frames, Stays f below n frames → goOn frames = .ok s →
      (unfinished (f :: below)).items <+: s.items)
    (hs : leave frame rest goOn = .ok s) : (unfinished (f :: below)).items <+: s.items := by
  cases count with
  | zero =>
    obtain rfl : below = [] := Classical.not_not.mp fun hne => hcount hne rfl
    obtain ⟨above, g, hframes, habove, hg⟩ := h.above
    rw [List.eq_nil_of_length_eq_zero habove, List.nil_append] at hframes
    obtain ⟨rfl, rfl⟩ := List.cons.inj hframes
    obtain rfl := Except.ok.inj hs
    have hlinear := (List.forall_mem_cons.mp h.linear).1
    rw [State.items_simplify_of_isLinear _ (StateBuilder.isLinear_toState hlinear.builder),
      items_unfinished_cons]
    exact hg
  | succ n =>
    have hrest := h.pop
    cases rest with
    | nil =>
      obtain ⟨above, g, hframes, -⟩ := hrest.above
      simp at hframes
    | cons caller rest =>
      have hcaller := (List.forall_mem_cons.mp hrest.linear).1
      have hframe := (List.forall_mem_cons.mp h.linear).1
      exact hgoOn n rfl _ (hrest.grow (Frame.isLinear_receive hcaller hframe) List.prefix_rfl) hs

/-- A frame that is never left, or that has none below, keeps what it has gathered, and so do
those below it. -/
theorem prefix_follow {f : Frame} {below : List Frame} (trace : Trace) (frames : List Frame)
    (entered : Nat) : ∀ count, Stays f below count frames →
      (below ≠ [] → Trace.leaves count trace = false) →
      ∀ s, follow program trace frames entered = .ok s →
        (unfinished (f :: below)).items <+: s.items := by
  induction trace, frames, entered using follow.induct program with
  | case1 entered frames =>
    intro count h _ s hs
    rw [follow] at hs
    obtain rfl := Except.ok.inj hs
    rw [State.items_simplify_of_isLinear _ (isLinear_unfinished h.linear)]
    obtain ⟨above, g, rfl, -, hg⟩ := h.above
    clear h hs
    induction above with
    | nil =>
      rw [List.nil_append, items_unfinished_cons, items_unfinished_cons]
      exact (List.prefix_append_right_inj _).mpr hg
    | cons frame above ih =>
      rw [List.cons_append, items_unfinished_cons frame]
      exact ih.trans (List.prefix_append _ _)
  | case2 method rest entered ih =>
    intro count h
    obtain ⟨above, g, hframes, -⟩ := h.above
    simp at hframes
  | case3 method rest caller below entered call frame ih =>
    intro count h hleaves s hs
    rw [follow] at hs
    have hcaller := (List.forall_mem_cons.mp h.linear).1
    exact ih (count + 1) (.push (h.grow ⟨hcaller.builder, hcaller.traced⟩ List.prefix_rfl)
      (isLinear_nestedFrame _ _ _)) hleaves s hs
  | case4 method receiver arguments target rest frame below entered ih =>
    intro count h hleaves s hs
    rw [follow] at hs
    have hframe := (List.forall_mem_cons.mp h.linear).1
    refine ih count (h.grow ⟨hframe.builder, hframe.traced⟩ List.prefix_rfl) (fun hne => ?_) s hs
    simpa only [Trace.leaves] using hleaves hne
  | case5 method block rest frame below entered ih =>
    intro count h hleaves s hs
    rw [follow] at hs
    obtain ⟨⟨frame', value⟩, hblock, hs⟩ := bind_eq_ok.mp hs
    have hframe := Frame.isLinear_replayBlock (List.forall_mem_cons.mp h.linear).1 hblock
    have hitems := Frame.prefix_replayBlock hblock
    refine ih frame' count (h.grow ⟨hframe.builder, hframe.traced⟩ hitems) (fun hne => ?_) s hs
    simpa only [Trace.leaves] using hleaves hne
  | case6 method block rest frame below entered ih =>
    intro count h hleaves s hs
    rw [follow] at hs
    obtain ⟨⟨frame', value⟩, hblock, hs⟩ := bind_eq_ok.mp hs
    have hframe := Frame.isLinear_replayBlock (List.forall_mem_cons.mp h.linear).1 hblock
    have hleft := h.grow (Frame.isLinear_bindReturned program hframe below.isEmpty value)
      ((Frame.prefix_replayBlock hblock).trans (Frame.prefix_bindReturned _ _ _ _))
    refine hleft.prefix_leave (fun hne hcount => ?_) (fun n hn frames hframes hgo => ?_) hs
    · simpa [hcount, Trace.leaves] using hleaves hne
    · exact ih frames n hframes (fun hne => by simpa only [hn, Trace.leaves] using hleaves hne) s hgo
  | case7 method block value rest frame below entered ih =>
    intro count h hleaves s hs
    rw [follow] at hs
    obtain ⟨⟨frame', value⟩, hblock, hs⟩ := bind_eq_ok.mp hs
    have hframe := Frame.isLinear_replayBlock (List.forall_mem_cons.mp h.linear).1 hblock
    have hleft := h.grow hframe (Frame.prefix_replayBlock hblock)
    refine hleft.prefix_leave (fun hne hcount => ?_) (fun n hn frames hframes hgo => ?_) hs
    · simpa [hcount, Trace.leaves] using hleaves hne
    · exact ih frames n hframes (fun hne => by simpa only [hn, Trace.leaves] using hleaves hne) s hgo
  | case8 head rest frames entered _ hentered hcalled hpassed hreturned hthrew ih =>
    intro count h hleaves s hs
    rw [follow] at hs
    · refine ih count h (fun hne => ?_) s hs
      -- With a frame in use, what is passed over starts or ends an initialization.
      obtain ⟨top, rest', rfl⟩ : ∃ top rest', frames = top :: rest' := by
        obtain ⟨_ | ⟨top, above⟩, g, rfl, -⟩ := h.above <;> exact ⟨_, _, rfl⟩
      cases head with
      | entered => exact (hentered _ _ _ rfl rfl).elim
      | called => exact (hcalled _ _ _ _ _ _ rfl rfl).elim
      | passed => exact (hpassed _ _ _ _ rfl rfl).elim
      | returned => exact (hreturned _ _ _ _ rfl rfl).elim
      | threw => exact (hthrew _ _ _ _ _ rfl rfl).elim
      | initializing | initialized => simpa only [Trace.leaves] using hleaves hne
    all_goals assumption

end Replay
end Concolic
