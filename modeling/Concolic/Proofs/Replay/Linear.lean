import Concolic.Proofs.State.Linear
import Concolic.Replay

/-!
# Replays are linear

A trace takes one way through the program, so the state that it replays to has no choice in
it. Every frame gathers predicates and the states of finished frames, nothing else.
-/

namespace Concolic

theorem StateBuilder.isLinear_push {α : Type} {b : StateBuilder α} (h : b.finished.IsLinear)
    (a : α) : (b.push a).finished.IsLinear := h

theorem StateBuilder.isLinear_toState {α : Type} {b : StateBuilder α}
    (h : b.finished.IsLinear) : b.toState.IsLinear := by
  unfold toState
  split
  · exact h
  · exact State.isLinear_concat.mpr ⟨h, State.isLinear_basic _⟩

theorem StateBuilder.isLinear_append {α : Type} {b : StateBuilder α} {s : State α}
    (h : b.finished.IsLinear) (hs : s.IsLinear) : (b.append s).finished.IsLinear :=
  State.isLinear_concat.mpr ⟨isLinear_toState h, hs⟩

namespace Replay

/-- What a frame has gathered is linear, and so is what was traced of its calls. -/
structure Frame.IsLinear (f : Frame) : Prop where
  builder : f.builder.finished.IsLinear
  traced : ∀ call ∈ f.traced, call.state.IsLinear

namespace Frame

variable {program : Program} {f : Frame}

theorem isLinear_push (h : f.IsLinear) (role : Role) (assertion : Assertion Term) :
    (f.push role assertion).IsLinear := ⟨h.builder, h.traced⟩

theorem isLinear_enterBlock (h : f.IsLinear) (phis : List Phi) : (f.enterBlock phis).IsLinear := by
  unfold enterBlock
  split
  · exact h
  · refine List.foldlRecOn phis _ h fun f hf phi _ => ?_
    split
    · exact isLinear_push hf _ _
    · exact hf

theorem claim?_mem {traced rest : List TracedCall} {p : Predicate} {call : TracedCall}
    (h : claim? program traced p = some (call, rest)) :
    call ∈ traced ∧ ∀ c ∈ rest, c ∈ traced := by
  simp only [claim?, Option.bind_eq_bind, Option.bind_eq_some_iff] at h
  obtain ⟨method, -, h⟩ := h
  have hsub := List.dropWhile_subset
    (p := fun call : TracedCall => !dispatches program method call.site) (l := traced)
  split at h
  · cases h
  · next found remaining hdrop =>
    obtain ⟨rfl, rfl⟩ := Prod.mk.inj (Option.some.inj h)
    rw [hdrop] at hsub
    exact ⟨hsub (List.mem_cons_self ..), fun c hc => hsub (List.mem_cons_of_mem _ hc)⟩

theorem isLinear_addPredicate (h : f.IsLinear) (p : Predicate) :
    (addPredicate program f p).IsLinear := by
  unfold addPredicate
  split
  · next call rest hclaim =>
    obtain ⟨hcall, hrest⟩ := claim?_mem hclaim
    exact ⟨StateBuilder.isLinear_append h.builder (h.traced call hcall),
      fun c hc => h.traced c (hrest c hc)⟩
  · exact ⟨h.builder, h.traced⟩

theorem isLinear_addPassage (h : f.IsLinear) (terminator : Terminator) (next : Option BlockId) :
    (f.addPassage terminator next).IsLinear := by
  unfold addPassage
  split
  · split
    · exact h
    · split
      · exact isLinear_push h _ _
      · split
        · exact isLinear_push h _ _
        · exact h
  · split
    · exact isLinear_push h _ _
    · split
      · exact List.foldlRecOn _ _ h fun f hf entry _ => isLinear_push hf _ _
      · exact h
  · exact h

theorem isLinear_dropTraced (h : f.IsLinear) : IsLinear { f with traced := [] } :=
  ⟨h.builder, by simp⟩

theorem isLinear_replayBlock (h : f.IsLinear) {method : Method} {id : BlockId}
    {next : Option BlockId} {result : Frame × Option Term}
    (hblock : f.replayBlock program method id next = .ok result) : result.1.IsLinear := by
  unfold replayBlock at hblock
  split at hblock
  · cases hblock
  · obtain ⟨found, -, hfound⟩ := bind_eq_ok.mp hblock
    cases found with
    | none => cases hfound
    | some block =>
      obtain rfl := Except.ok.inj hfound
      have hbody : (block.body.foldl (addPredicate program) (f.enterBlock block.phis)).IsLinear :=
        List.foldlRecOn _ _ (isLinear_enterBlock h _) fun f hf p _ => isLinear_addPredicate hf p
      exact isLinear_addPassage (isLinear_dropTraced hbody) _ _

theorem isLinear_bindResult (h : f.IsLinear) (isTarget : Bool) (value : Term) :
    (bindResult program f isTarget value).IsLinear := by
  unfold bindResult
  generalize (if isTarget then _ else f.target : Option Term) = taker
  cases taker with
  | none => exact h
  | some taker => exact isLinear_push h _ _

end Frame

variable {program : Program}

theorem isLinear_nestedFrame (method : Method) (call : Option PendingCall) (number : Nat) :
    (nestedFrame program method call number).IsLinear := by
  cases call <;> exact ⟨State.isLinear_empty, by simp [nestedFrame]⟩

theorem isLinear_unfinished {frames : List Frame} (h : ∀ f ∈ frames, f.IsLinear) :
    (unfinished frames).IsLinear :=
  List.foldlRecOn frames _ State.isLinear_empty fun _ hs f hf =>
    State.isLinear_concat.mpr ⟨StateBuilder.isLinear_toState (h f hf).builder, hs⟩

theorem Frame.isLinear_receive {caller callee : Frame} (h : caller.IsLinear)
    (k : callee.IsLinear) : (caller.receive callee).IsLinear where
  builder := h.builder
  traced call hcall := by
    rcases List.mem_append.mp hcall with hold | hnew
    · exact h.traced call hold
    · obtain rfl := List.mem_singleton.mp hnew
      exact StateBuilder.isLinear_toState k.builder

/-- Leaving a linear frame leads to a linear state, if going on from linear frames does. -/
theorem isLinear_leave {frame : Frame} {below : List Frame}
    {goOn : List Frame → Except Failure SymbolicState} {s : SymbolicState} (hframe : frame.IsLinear)
    (hbelow : ∀ f ∈ below, f.IsLinear)
    (hgoOn : ∀ frames, (∀ f ∈ frames, f.IsLinear) → goOn frames = .ok s → s.IsLinear)
    (hs : leave frame below goOn = .ok s) : s.IsLinear := by
  cases below with
  | nil =>
    obtain rfl := Except.ok.inj hs
    exact (StateBuilder.isLinear_toState hframe.builder).simplify
  | cons caller below =>
    rw [List.forall_mem_cons] at hbelow
    exact hgoOn _ (List.forall_mem_cons.mpr
      ⟨Frame.isLinear_receive hbelow.1 hframe, hbelow.2⟩) hs

/-- Following events with linear frames leads to a linear state. The induction is that of
`follow`. -/
theorem isLinear_follow (trace : Trace) (frames : List Frame) (entered : Nat) :
    (∀ f ∈ frames, f.IsLinear) →
      ∀ s, follow program trace frames entered = .ok s → s.IsLinear := by
  induction trace, frames, entered using follow.induct program with
  | case1 entered frames =>
    intro h s hs
    rw [follow] at hs
    obtain rfl := Except.ok.inj hs
    exact (isLinear_unfinished h).simplify
  | case2 method rest entered ih =>
    intro h s hs
    rw [follow] at hs
    refine ih ?_ s hs
    rw [List.forall_mem_singleton]
    exact ⟨State.isLinear_empty, by simp⟩
  | case3 method rest caller below entered call frame ih =>
    intro h s hs
    rw [follow] at hs
    rw [List.forall_mem_cons] at h
    exact ih (List.forall_mem_cons.mpr ⟨isLinear_nestedFrame _ _ _,
      List.forall_mem_cons.mpr ⟨⟨h.1.builder, h.1.traced⟩, h.2⟩⟩) s hs
  | case4 method receiver arguments target rest frame below entered ih =>
    intro h s hs
    rw [follow] at hs
    rw [List.forall_mem_cons] at h
    exact ih (List.forall_mem_cons.mpr ⟨⟨h.1.builder, h.1.traced⟩, h.2⟩) s hs
  | case5 method block rest frame below entered ih =>
    intro h s hs
    rw [follow] at hs
    rw [List.forall_mem_cons] at h
    obtain ⟨result, hblock, hs⟩ := bind_eq_ok.mp hs
    have hframe := Frame.isLinear_replayBlock h.1 hblock
    exact ih result.1 (List.forall_mem_cons.mpr ⟨⟨hframe.builder, hframe.traced⟩, h.2⟩) s hs
  | case6 method block rest frame below entered ih =>
    intro h s hs
    rw [follow] at hs
    rw [List.forall_mem_cons] at h
    obtain ⟨result, hblock, hs⟩ := bind_eq_ok.mp hs
    have hframe := Frame.isLinear_replayBlock h.1 hblock
    refine isLinear_leave ?_ h.2 (fun frames hframes hgo => ih frames hframes s hgo) hs
    cases result.2 with
    | none => exact hframe
    | some value => exact Frame.isLinear_bindResult hframe _ _
  | case7 method block value rest frame below entered ih =>
    intro h s hs
    rw [follow] at hs
    rw [List.forall_mem_cons] at h
    obtain ⟨result, hblock, hs⟩ := bind_eq_ok.mp hs
    exact isLinear_leave (Frame.isLinear_replayBlock h.1 hblock) h.2
      (fun frames hframes hgo => ih frames hframes s hgo) hs
  | case8 head rest frames entered _ _ _ _ _ _ ih =>
    intro h s hs
    rw [follow] at hs
    · exact ih h s hs
    all_goals assumption

/-- The state that a trace replays to has no choice in it. -/
theorem isLinear_build {target : Method} {trace : Trace} {s : SymbolicState}
    (h : build program target trace = .ok s) : s.IsLinear :=
  isLinear_follow _ _ _ (by simp) s h

end Replay
end Concolic
