import Concolic.Proofs.Search.Run
import Concolic.Visit

/-!
# How far failures reach

Of everything that can fail in a visit, only a contradiction reaches beyond the method. What is
built from the solver's model fails for one attempt; replaying fails for one attempt or for the
method, as long as the model of the program fails for no more. So a visit fails exactly when an
attempt on one of its candidates is refused a query because of a contradiction.

## Main statement

* `Engine.visit_eq_error_iff` — when a visit fails, and with what.
-/

namespace Concolic

/-! ## What computations fail with -/

/-- A sequence of two steps fails as the first does, or as the second does behind it. -/
theorem bind_eq_error {ε α β : Type} {x : Except ε α} {f : α → Except ε β} {failure : ε} :
    (x >>= f) = .error failure ↔ x = .error failure ∨ ∃ a, x = .ok a ∧ f a = .error failure := by
  cases x <;> simp [bind, Except.bind]

theorem map_eq_error {ε α β : Type} {x : Except ε α} {f : α → β} {failure : ε} :
    x.map f = .error failure ↔ x = .error failure := by
  cases x <;> simp [Except.map]

/-- Whatever the computation fails with is of the given sort: its failures could be told apart
from all others. -/
def ThrowsOnly {m : Type → Type} [Monad m] {α : Type} (may : Failure → Prop)
    (x : ExceptT Failure m α) : Prop :=
  ∃ y : ExceptT { failure // may failure } m α, x.run = Except.mapError Subtype.val <$> y.run

namespace ThrowsOnly

variable {m : Type → Type} [Monad m] [LawfulMonad m] {α β : Type} {may : Failure → Prop}

theorem pure (a : α) : ThrowsOnly may (pure a : ExceptT Failure m α) :=
  ⟨Pure.pure a, by rw [ExceptT.run_pure, ExceptT.run_pure, map_pure]; rfl⟩

theorem throw {failure : Failure} (h : may failure) :
    ThrowsOnly may (throw failure : ExceptT Failure m α) :=
  ⟨MonadExcept.throw ⟨failure, h⟩, by rw [ExceptT.run_throw, ExceptT.run_throw, map_pure]; rfl⟩

theorem lift (x : m α) : ThrowsOnly may (ExceptT.lift x : ExceptT Failure m α) :=
  ⟨ExceptT.lift x, by rw [ExceptT.run_lift, ExceptT.run_lift, Functor.map_map]; rfl⟩

theorem bind {x : ExceptT Failure m α} {f : α → ExceptT Failure m β} (hx : ThrowsOnly may x)
    (hf : ∀ a, ThrowsOnly may (f a)) : ThrowsOnly may (x >>= f) := by
  obtain ⟨y, hy⟩ := hx
  refine ⟨y >>= fun a => (hf a).choose, ?_⟩
  rw [ExceptT.run_bind, ExceptT.run_bind, hy, bind_map_left, map_bind]
  congr 1
  funext result
  cases result with
  | ok a => exact (hf a).choose_spec
  | error failure => exact (map_pure (Except.mapError Subtype.val) (Except.error failure)).symm

theorem forM (xs : List α) {f : α → ExceptT Failure m PUnit} (h : ∀ a, ThrowsOnly may (f a)) :
    ThrowsOnly may (xs.forM f) := by
  induction xs with
  | nil => exact pure _
  | cons a xs ih => exact bind (h a) fun _ => ih

theorem mapM (xs : List α) {f : α → ExceptT Failure m β} (h : ∀ a, ThrowsOnly may (f a)) :
    ThrowsOnly may (xs.mapM f) := by
  induction xs with
  | nil => exact pure _
  | cons a xs ih =>
    rw [List.mapM_cons]
    exact bind (h a) fun _ => bind ih fun _ => pure _

section

variable {σ : Type} {n : Type → Type} [Monad n] [LawfulMonad n]

theorem get : ThrowsOnly may (MonadState.get : ExceptT Failure (StateT σ n) σ) :=
  lift (m := StateT σ n) MonadState.get

theorem set (s : σ) : ThrowsOnly may (MonadStateOf.set s : ExceptT Failure (StateT σ n) PUnit) :=
  lift (m := StateT σ n) (MonadStateOf.set s)

theorem modifyGet (f : σ → α × σ) :
    ThrowsOnly may (MonadStateOf.modifyGet f : ExceptT Failure (StateT σ n) α) :=
  lift (m := StateT σ n) (MonadStateOf.modifyGet f)

end

theorem of_mapError (result : Except { failure // may failure } α) {failure : Failure}
    (h : result.mapError Subtype.val = .error failure) : may failure := by
  cases result with
  | ok a => cases h
  | error found =>
    obtain rfl := Except.error.inj h
    exact found.2

theorem of_run {σ τ : Type} {x : ExceptT Failure (StateT σ (StateM τ)) α} {s : σ} {r : τ}
    {failure : Failure} (h : ThrowsOnly may x) (hx : ((x.run.run s).run r).1.1 = .error failure) :
    may failure := by
  obtain ⟨y, hy⟩ := h
  rw [hy] at hx
  exact of_mapError ((y.run.run s).run r).1.1 hx

theorem of_run_state {σ : Type} {x : ExceptT Failure (StateM σ) α} {s : σ} {failure : Failure}
    (h : ThrowsOnly may x) (hx : (x.run.run s).1 = .error failure) : may failure := by
  obtain ⟨y, hy⟩ := h
  rw [hy] at hx
  exact of_mapError (y.run.run s).1 hx

end ThrowsOnly

/-- The failure ends one attempt. -/
def Failure.IsMinor (failure : Failure) : Prop := failure.severity = .attempt

theorem Failure.IsMinor.ne_run {failure : Failure} (h : failure.IsMinor) :
    failure.severity ≠ .run := fun hrun => by cases h.symm.trans hrun

namespace Reanimation

theorem throwsOnly_add (n : Node) : ThrowsOnly Failure.IsMinor (add n) :=
  .modifyGet _

theorem throwsOnly_addNamed (build : Arena → StateM NameSupply (Handle × Arena)) :
    ThrowsOnly Failure.IsMinor (addNamed build) :=
  .bind .get fun _ => .bind (.lift _) fun _ => .bind (.set _) fun _ => .pure _

section

variable {heap : Nat → ValueType → Build Handle}
  (hheap : ∀ address type, ThrowsOnly Failure.IsMinor (heap address type))
include hheap

theorem throwsOnly_slotValue (value : ModelValue) (type : ValueType) :
    ThrowsOnly Failure.IsMinor (slotValue heap value type) := by
  unfold slotValue
  split
  · exact hheap _ _
  · split
    · exact throwsOnly_add _
    · exact .throw rfl

theorem throwsOnly_fillFields (owner : Handle) (fields : List FieldValue) :
    ThrowsOnly Failure.IsMinor (fillFields heap owner fields) :=
  .forM _ fun _ => .bind (throwsOnly_slotValue hheap _ _) fun _ => .modifyGet _

theorem throwsOnly_fillElements (owner : Handle) (type : ValueType)
    (elements : List (Int32 × ModelValue)) :
    ThrowsOnly Failure.IsMinor (fillElements heap owner type elements) :=
  .forM _ fun _ => .bind (throwsOnly_slotValue hheap _ _) fun _ => .modifyGet _

end

theorem throwsOnly_heapValue (m : Model) (fuel address : Nat) (declared : ValueType) :
    ThrowsOnly Failure.IsMinor (heapValue m fuel address declared) := by
  induction fuel generalizing address declared with
  | zero =>
    unfold heapValue
    refine .bind .get fun r => ?_
    split
    · exact .pure _
    · split
      · exact .bind (throwsOnly_addNamed _) fun _ => .bind (.modifyGet _) fun _ => .pure _
      · exact .bind (throwsOnly_addNamed _) fun _ => .bind (.modifyGet _) fun _ => .pure _
      · exact .throw rfl
  | succ fuel ih =>
    unfold heapValue
    refine .bind .get fun r => ?_
    split
    · exact .pure _
    · split
      · exact .bind (throwsOnly_addNamed _) fun _ => .bind (.modifyGet _) fun _ =>
          .bind (throwsOnly_fillElements ih _ _ _) fun _ => .pure _
      · exact .bind (throwsOnly_addNamed _) fun _ => .bind (.modifyGet _) fun _ =>
          .bind (throwsOnly_fillFields ih _ _) fun _ => .pure _
      · exact .throw rfl

theorem throwsOnly_value (m : Model) (v : ModelValue) (type : ValueType) :
    ThrowsOnly Failure.IsMinor (value m v type) :=
  throwsOnly_slotValue (throwsOnly_heapValue m _) v type

theorem throwsOnly_ofTerm (m : Model) (t : Term) : ThrowsOnly Failure.IsMinor (ofTerm m t) := by
  unfold ofTerm
  split
  · exact throwsOnly_value m _ _
  · exact throwsOnly_addNamed _

theorem throwsOnly_holderOf (holders : List (String × Handle)) (owner : String) :
    ThrowsOnly Failure.IsMinor (holderOf holders owner) := by
  unfold holderOf
  split
  · exact .pure _
  · exact .bind (.modifyGet _) fun _ => .pure _

theorem throwsOnly_fillHolders (m : Model) (loads : List Term) (holders : List (String × Handle)) :
    ThrowsOnly Failure.IsMinor (fillHolders m loads holders) := by
  induction loads generalizing holders with
  | nil => exact .pure _
  | cons load loads ih =>
    unfold fillHolders
    split
    · exact .bind (throwsOnly_holderOf _ _) fun _ => .bind (throwsOnly_value m _ _) fun _ =>
        .bind (.modifyGet _) fun _ => ih _
    · exact ih _

theorem throwsOnly_parameters (m : Model) (info : MethodInfo) (s : SymbolicState) :
    ThrowsOnly Failure.IsMinor (parameters m info s) := by
  have hrest (receiver : Option Handle) := ThrowsOnly.bind
    (ThrowsOnly.mapM (info.arguments.mapIdx fun index type => Term.argument type index)
      (throwsOnly_ofTerm m)) fun arguments =>
    ThrowsOnly.bind (throwsOnly_fillHolders m (s.collect fun t => (staticField? t).isSome) [])
      fun holders => ThrowsOnly.pure
        (Parameters.mk receiver arguments (holders.map (·.2)))
  unfold parameters
  dsimp only
  split
  · exact .bind (.pure _) hrest
  · refine .bind ?_ hrest
    rw [← bind_pure_comp]
    exact .bind (throwsOnly_ofTerm m _) fun _ => .pure _

end Reanimation

namespace Arena

theorem isMinor_of_substitute {program : Program} {least : Visibility} {className : String}
    {failure : Failure} (h : substitute program least className = .error failure) :
    failure.IsMinor := by
  unfold substitute at h
  split at h
  · cases h
  · split at h
    · split at h
      · cases h
      · cases h
        rfl
    · cases h
      rfl

theorem throwsOnly_concretizeNode (program : Program) (least : Visibility) (h : Handle) :
    ThrowsOnly Failure.IsMinor (concretizeNode program least h) := by
  unfold concretizeNode
  refine .bind .get fun a => ?_
  dsimp only
  split
  · split
    · exact .pure _
    · exact .modifyGet _
    · next hsubstitute => exact .throw (isMinor_of_substitute hsubstitute)
  · exact .pure _

theorem throwsOnly_concretizeParameters (program : Program) (settings : Config.DescriptorSettings)
    (parameters : Parameters Handle) :
    ThrowsOnly Failure.IsMinor (concretizeParameters program settings parameters) := by
  unfold concretizeParameters
  refine .bind (.forM _ fun root => .bind .get fun _ =>
    .forM _ (throwsOnly_concretizeNode program settings.visibility)) fun _ =>
      .bind (.modifyGet _) fun _ => ?_
  split
  · exact .modifyGet _
  · exact .pure _

end Arena

/-! ## Replay -/

/-- The model of the program fails for no more than the method. -/
structure Program.FailsMildly (program : Program) : Prop where
  block (method : Method) (id : BlockId) (failure : Failure) :
    program.block? method id = .error failure → failure.severity ≠ .run

/-- Tables answer every question about blocks. -/
theorem Program.Table.failsMildly (table : Table) : table.toProgram.FailsMildly :=
  ⟨fun _ _ _ h => nomatch h⟩

namespace Replay

variable {program : Program} {failure : Failure}

/-- What a replay can fail with: a block event of another method than the frame's, a block that
the program does not have, and whatever the model of the program fails with. -/
inductive FailsWith (program : Program) : Failure → Prop
  | leftFrame (block : BlockId) (traced frame : Method) :
    FailsWith program (.execution (.leftFrame block traced frame))
  | unknownBlock (block : BlockId) (method : Method) :
    FailsWith program (.program (.unknownBlock block method))
  | asked {method : Method} {id : BlockId} {failure : Failure}
    (h : program.block? method id = .error failure) : FailsWith program failure

theorem failsWith_of_replayBlock {f : Frame} {method : Method} {id : BlockId}
    {next : Option BlockId} (h : f.replayBlock program method id next = .error failure) :
    FailsWith program failure := by
  unfold Frame.replayBlock at h
  split at h
  · cases h
    exact .leftFrame ..
  · rcases bind_eq_error.mp h with hblock | ⟨found, -, h⟩
    · exact .asked hblock
    · cases found with
      | none =>
        obtain rfl := Except.error.inj h
        exact .unknownBlock ..
      | some block => cases h

theorem failsWith_of_leave {frame : Frame} {below : List Frame}
    {goOn : List Frame → Except Failure SymbolicState}
    (hgoOn : ∀ frames, goOn frames = .error failure → FailsWith program failure)
    (h : leave frame below goOn = .error failure) : FailsWith program failure := by
  cases below with
  | nil => cases h
  | cons caller below => exact hgoOn _ h

/-- The induction is that of `follow`: it fails where a block cannot be replayed. -/
theorem failsWith_of_follow (trace : Trace) (frames : List Frame) (entered : Nat) :
    follow program trace frames entered = .error failure → FailsWith program failure := by
  induction trace, frames, entered using follow.induct program with
  | case1 entered frames =>
    intro h
    rw [follow] at h
    cases h
  | case2 method rest entered ih =>
    intro h
    rw [follow] at h
    exact ih h
  | case3 method rest caller below entered call frame ih =>
    intro h
    rw [follow] at h
    exact ih h
  | case4 method receiver arguments target rest frame below entered ih =>
    intro h
    rw [follow] at h
    exact ih h
  | case5 method block rest frame below entered ih =>
    intro h
    rw [follow] at h
    rcases bind_eq_error.mp h with hblock | ⟨result, -, hrest⟩
    · exact failsWith_of_replayBlock hblock
    · exact ih result.1 hrest
  | case6 method block rest frame below entered ih =>
    intro h
    rw [follow] at h
    rcases bind_eq_error.mp h with hblock | ⟨result, -, hrest⟩
    · exact failsWith_of_replayBlock hblock
    · exact failsWith_of_leave (fun frames hframes => ih frames hframes) hrest
  | case7 method block value rest frame below entered ih =>
    intro h
    rw [follow] at h
    rcases bind_eq_error.mp h with hblock | ⟨result, -, hrest⟩
    · exact failsWith_of_replayBlock hblock
    · exact failsWith_of_leave (fun frames hframes => ih frames hframes) hrest
  | case8 head rest frames entered _ _ _ _ _ _ ih =>
    intro h
    rw [follow] at h
    · exact ih h
    all_goals assumption

theorem failsWith_of_build {target : Method} {trace : Trace}
    (h : build program target trace = .error failure) : FailsWith program failure :=
  failsWith_of_follow _ _ _ h

theorem FailsWith.severity (h : FailsWith program failure) (hprogram : program.FailsMildly) :
    failure.severity ≠ .run := by
  cases h with
  | leftFrame | unknownBlock => simp [Failure.severity]
  | asked hblock => exact hprogram.block _ _ _ hblock

end Replay

/-! ## Exploring -/

namespace Task

variable {σ : Type} {t : Task σ} {failure : Failure}

theorem failsWith_of_pathOf {trace : Trace} (h : t.pathOf trace = .error failure) :
    Replay.FailsWith t.engine.program failure := Replay.failsWith_of_build (map_eq_error.mp h)

/-- Inputs are built from the model, and then made concrete. -/
theorem inputs_run (t : Task σ) (m : Model) (s : SymbolicState) (names : NameSupply) :
    ((t.inputs m s).run names).1 =
      let built := (((Reanimation.parameters m t.info s).run.run {}).run names).1
      built.1.bind fun parameters =>
        let concrete := (Arena.concretizeParameters t.engine.program t.engine.settings.descriptor
          parameters).run.run built.2.arena
        concrete.1.map fun _ => (concrete.2, parameters) := rfl

/-- Inputs that cannot be built from a model fail for the attempt. -/
theorem isMinor_of_inputs {m : Model} {s : SymbolicState} {names : NameSupply}
    (h : ((t.inputs m s).run names).1 = .error failure) : failure.IsMinor := by
  rw [inputs_run] at h
  rcases bind_eq_error.mp h with hbuilt | ⟨parameters, -, hmapped⟩
  · exact (Reanimation.throwsOnly_parameters m t.info s).of_run hbuilt
  · have hconcrete := Arena.throwsOnly_concretizeParameters t.engine.program
      t.engine.settings.descriptor parameters
    exact hconcrete.of_run_state (map_eq_error.mp hmapped)

variable {w w' rest : World σ} {mutated path : SymbolicState} {result : Except Failure Finding}

/-- Exploring a path fails for the whole run only without a query. -/
theorem Explores.refused_of_severity (h : t.Explores mutated path w (.error failure) w')
    (hprogram : t.engine.program.FailsMildly) (hseverity : failure.severity = .run) :
    ((Query.prepare t.engine.program t.engine.policy t.engine.settings mutated).run
      w.names).1 = .error failure := by
  cases h with
  | refused hquery => exact congrArg Prod.fst hquery
  | cancelled | late => cases hseverity
  | unbuilt _ _ hbuilt =>
    exact absurd hseverity (isMinor_of_inputs (congrArg Prod.fst hbuilt)).ne_run
  | unexecuted => cases hseverity
  | unreplayed _ _ hpath =>
    exact absurd hseverity ((failsWith_of_pathOf hpath).severity hprogram)

/-- Without a query exploring a path fails as preparing it does. -/
theorem Explores.eq_error_of_refused (h : t.Explores mutated path w result w')
    (hrefused : ((Query.prepare t.engine.program t.engine.policy t.engine.settings mutated).run
      w.names).1 = .error failure) : result = .error failure :=
  (h.unique (.refused (Prod.ext hrefused rfl))).1

/-- The candidate leads to a state for which there is no query. -/
def Refused (t : Task σ) (s : Search) (candidate : Trace) (names : NameSupply)
    (failure : Failure) : Prop :=
  ∃ mutated, t.flip? s candidate = some mutated ∧
    ((Query.prepare t.engine.program t.engine.policy t.engine.settings mutated).run
      names).1 = .error failure

/-! ## Attempts and runs -/

variable {s s' after : Search} {candidate : Trace} {outcome : Except Failure Attempt}

/-- An attempt fails for the whole run when it is refused its query, and only then. -/
theorem Concludes.eq_error_iff (h : t.Concludes s candidate w after outcome rest)
    (hprogram : t.engine.program.FailsMildly) (hseverity : failure.severity = .run) :
    outcome = .error failure ↔ t.Refused s candidate w.names failure := by
  -- An attempt that explores a path and does not fail for the whole run was not refused.
  have hunrefused {mutated : SymbolicState} {result : Except Failure Finding} {w' : World σ}
      (hflip : t.flip? s candidate = some mutated)
      (hexplored : (t.explore mutated mutated.path).run.run w = (result, w'))
      (hne : result ≠ .error failure) : ¬t.Refused s candidate w.names failure := by
    rintro ⟨mutated', hflip', hrefused⟩
    obtain rfl := Option.some.inj (hflip.symm.trans hflip')
    exact hne ((explores_of_run hexplored).eq_error_of_refused hrefused)
  cases h with
  | unreplayable hbuild =>
    constructor
    · intro h
      obtain rfl := Except.error.inj h
      exact absurd hseverity ((Replay.failsWith_of_build hbuild).severity hprogram)
    · rintro ⟨mutated, hflip, -⟩
      simp [flip?, hbuild] at hflip
  | duplicate _ hnone =>
    refine ⟨by simp, ?_⟩
    rintro ⟨mutated, hflip, -⟩
    simp [hnone] at hflip
  | accepted hflip hexplored | infeasible hflip hexplored | unconfirmed hflip hexplored =>
    refine ⟨by simp, fun hrefused => ?_⟩
    exact absurd hrefused (hunrefused hflip hexplored (by simp))
  | failed hflip hexplored hminor =>
    refine ⟨by simp, fun hrefused => absurd hrefused (hunrefused hflip hexplored fun h => ?_)⟩
    rw [Except.error.inj h, hseverity] at hminor
    cases hminor
  | cancelled hflip hexplored =>
    have hne : (.error .cancelled : Except Failure Finding) ≠ .error failure := by
      intro h
      rw [← Except.error.inj h] at hseverity
      cases hseverity
    exact ⟨fun h => absurd (congrArg Except.error (Except.error.inj h)) hne,
      fun hrefused => absurd hrefused (hunrefused hflip hexplored hne)⟩
  | ended hflip hexplored =>
    constructor
    · intro h
      obtain rfl := Except.error.inj h
      exact ⟨_, hflip, (explores_of_run hexplored).refused_of_severity hprogram hseverity⟩
    · rintro ⟨mutated', hflip', hrefused⟩
      obtain rfl := Option.some.inj (hflip.symm.trans hflip')
      exact congrArg Except.error
        (Except.error.inj ((explores_of_run hexplored).eq_error_of_refused hrefused))

/-- A search that ends after an attempt has failed for the run when the attempt has. -/
theorem EndsWith.error_iff {result : Except Failure Outcome} (h : EndsWith outcome result)
    (hseverity : failure.severity = .run) :
    result = .error failure ↔ outcome = .error failure := by
  cases h with
  | cancelled =>
    refine ⟨nofun, fun h => ?_⟩
    obtain rfl := Except.error.inj h
    cases hseverity
  | failed => simp

/-- A round without a turn never fails for the whole run. -/
theorem Halts.severity (h : t.Halts s w s' (.error failure) w')
    (hprogram : t.engine.program.FailsMildly) : failure.severity ≠ .run := by
  cases h with
  | unreplayable _ _ hseeds =>
    obtain ⟨_, _, -, hpath⟩ := hseeds.exists_of_error
    exact (failsWith_of_pathOf hpath).severity hprogram

/-- A run of the search fails for the whole run when a turn is refused its query, and only
then. -/
theorem run_eq_error_iff (hprogram : t.engine.program.FailsMildly)
    (hseverity : failure.severity = .run) (rounds : Nat) (s : Search) (w : World σ) :
    ((t.run rounds s).run w).1.2 = .error failure ↔
      ∃ u ∈ t.turns rounds s w, t.Refused u.before u.candidate u.world.names failure := by
  induction rounds generalizing s w with
  | zero =>
    constructor
    · intro h
      cases h
    · rintro ⟨u, hu, -⟩
      cases hu
  | succ rounds ih =>
    rw [run, Act.run_bind, turns]
    rcases t.round_cases s w with
      ⟨u, hturn, htakes, hround⟩ | ⟨hturn, s', result, w', hhalts, hround⟩
    · have hattempt := htakes.concludes.eq_error_iff hprogram hseverity
      rw [hround, hturn]
      dsimp only
      cases hnext : u.next with
      | going s' =>
        have houtcome : u.outcome ≠ .error failure := by
          intro houtcome
          rw [Turn.next, houtcome] at hnext
          exact after_error_of_severity (by rw [hseverity]; simp) hnext
        dsimp only
        rw [ih]
        constructor
        · rintro ⟨v, hv, hrefused⟩
          exact ⟨v, List.mem_cons_of_mem u hv, hrefused⟩
        · rintro ⟨v, hv, hrefused⟩
          rcases List.mem_cons.mp hv with rfl | hv
          · exact absurd (hattempt.mpr hrefused) houtcome
          · exact ⟨v, hv, hrefused⟩
      | ended s' result =>
        have hresult := (after_eq_ended hnext).2.error_iff hseverity
        simp only [List.mem_singleton, exists_eq_left]
        rw [← hattempt, ← hresult]
        rfl
    · rw [hround, hturn]
      constructor
      · intro h
        obtain rfl : result = .error failure := h
        exact absurd hseverity (hhalts.severity hprogram)
      · rintro ⟨u, hu, -⟩
        cases hu

end Task

/-! ## Visits -/

/-- The search of a visit. -/
def Engine.taskOf {σ : Type} (e : Engine σ) (info : MethodInfo) (w : World σ) : Task σ :=
  ⟨e, info, w.outside.clock.child e.token e.settings.search.timeLimitMs⟩

theorem outcomeOf_eq_error_iff {result : Except Failure Outcome} {failure : Failure} :
    outcomeOf result = .error failure ↔ failure.severity = .run ∧ result = .error failure := by
  cases result with
  | ok outcome => exact ⟨nofun, fun h => nomatch h.2⟩
  | error found =>
    rw [outcomeOf]
    by_cases hfound : found.severity = .run
    · rw [if_pos hfound]
      refine ⟨fun h => ⟨?_, h⟩, And.right⟩
      rw [← Except.error.inj h]
      exact hfound
    · rw [if_neg hfound]
      refine ⟨nofun, fun ⟨hseverity, h⟩ => ?_⟩
      rw [Except.error.inj h] at hfound
      exact absurd hseverity hfound

theorem Engine.search_run {σ : Type} (e : Engine σ) (rounds : Nat) (info : MethodInfo)
    (w : World σ) : (e.search rounds info).run w =
      ((e.taskOf info w).run rounds (e.taskOf info w).start).run w := by
  rw [Engine.search, Act.run_bind, Act.run_get]
  rfl

theorem Engine.visit_run_of_none {σ : Type} {e : Engine σ} {method : Method}
    (hinfo : (e.program.method? method).filter e.admits = none) (rounds : Nat) (w : World σ) :
    (e.visit rounds method).run w = (.ok none, w) := by
  rw [Engine.visit, hinfo]
  rfl

/-- A visit of an admitted method fails as its search does for the whole run, and reports on it
otherwise. -/
theorem Engine.visit_cases {σ : Type} {e : Engine σ} {method : Method} {info : MethodInfo}
    (hinfo : (e.program.method? method).filter e.admits = some info) (rounds : Nat)
    (w : World σ) : ∃ s result w₁,
      ((e.taskOf info w).run rounds (e.taskOf info w).start).run w = ((s, result), w₁) ∧
      ((∃ failure, outcomeOf result = .error failure ∧
          (e.visit rounds method).run w = (.error failure, w₁)) ∨
        ∃ outcome, outcomeOf result = .ok outcome ∧
          (e.visit rounds method).run w = (.ok (some (s.report info.method outcome)),
            { w₁ with suite := w₁.suite ++ [.finished method] })) := by
  rw [Engine.visit, hinfo]
  dsimp only
  rw [Act.run_bind, e.search_run]
  obtain ⟨⟨s, result⟩, w₁⟩ := ((e.taskOf info w).run rounds (e.taskOf info w).start).run w
  refine ⟨s, result, w₁, rfl, ?_⟩
  dsimp only
  cases outcomeOf result with
  | error failure => exact .inl ⟨failure, rfl, rfl⟩
  | ok outcome => exact .inr ⟨outcome, rfl, rfl⟩

/-- A visit fails as the search of its method does, if that fails for the whole run. -/
theorem Engine.visit_run_eq_error_iff {σ : Type} {e : Engine σ} {method : Method}
    {info : MethodInfo} (hinfo : (e.program.method? method).filter e.admits = some info)
    (rounds : Nat) (w : World σ) (failure : Failure) :
    ((e.visit rounds method).run w).1 = .error failure ↔ failure.severity = .run ∧
      (((e.taskOf info w).run rounds (e.taskOf info w).start).run w).1.2 = .error failure := by
  rw [← outcomeOf_eq_error_iff]
  obtain ⟨s, result, w₁, hrun, ⟨found, hfound, hvisit⟩ | ⟨outcome, hfound, hvisit⟩⟩ :=
    Engine.visit_cases hinfo rounds w
  · rw [hvisit, hrun, hfound]
    simp
  · rw [hvisit, hrun, hfound]
    simp

/-- A visit fails exactly when one of its attempts is refused its query by a contradiction. -/
theorem Engine.visit_eq_error_iff {σ : Type} {e : Engine σ} (hprogram : e.program.FailsMildly)
    (rounds : Nat) (method : Method) (w : World σ) (failure : Failure) :
    ((e.visit rounds method).run w).1 = .error failure ↔ failure.severity = .run ∧
      ∃ info, (e.program.method? method).filter e.admits = some info ∧
        ∃ u ∈ (e.taskOf info w).turns rounds (e.taskOf info w).start w,
          (e.taskOf info w).Refused u.before u.candidate u.world.names failure := by
  cases hinfo : (e.program.method? method).filter e.admits with
  | none =>
    rw [Engine.visit_run_of_none hinfo]
    exact ⟨nofun, fun ⟨_, _, h, _⟩ => nomatch h⟩
  | some info =>
    rw [Engine.visit_run_eq_error_iff hinfo]
    constructor
    · rintro ⟨hseverity, h⟩
      exact ⟨hseverity, info, rfl, (Task.run_eq_error_iff hprogram hseverity rounds _ w).mp h⟩
    · rintro ⟨hseverity, _, hsame, h⟩
      obtain rfl := Option.some.inj hsame
      exact ⟨hseverity, (Task.run_eq_error_iff hprogram hseverity rounds _ w).mpr h⟩

end Concolic
