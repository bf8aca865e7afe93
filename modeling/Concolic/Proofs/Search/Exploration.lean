import Concolic.Search

/-!
# Exploring a path

Nothing is known of the collaborators but that they are called: `Reaches` is what their calls
and the time between them lead to, `Returns` what traces they return. Exploring a state asks for a
query, for the solver's answer, for inputs and for their run, one after the other, and ends at the
first of these that fails, or when the token has fired by the time that the answer has come or the
inputs are built. `Explores` has a case for each end, with the world that it leaves; a run of
`explore` comes to one of them (`explore_explores`), and to no other (`Explores.run_eq`). Nothing
else that is said of explorations looks at the steps themselves.
-/

namespace Concolic

variable {σ α β : Type}

/-! ## Calls of the collaborators -/

/-- What calls of the collaborators, and time between them, lead to. -/
inductive Collaborators.Reaches (c : Collaborators σ) (o : Outside σ) : Outside σ → Prop
  | refl : c.Reaches o o
  | runRandom {o' : Outside σ} (m : Method) (h : c.Reaches o o') :
    c.Reaches o ((c.runRandom m).run o').2
  | runConcrete {o' : Outside σ} (m : Method) (arena : Arena) (parameters : Parameters Handle)
    (h : c.Reaches o o') : c.Reaches o ((c.runConcrete m arena parameters).run o').2
  | solve {o' : Outside σ} (query : Query) (h : c.Reaches o o') :
    c.Reaches o ((c.solve query).run o').2
  | record {o' : Outside σ} (m : Method) (trace : Trace) (h : c.Reaches o o') :
    c.Reaches o { o' with state := c.record m trace o'.state }
  | elapse {o' : Outside σ} (h : c.Reaches o o') : c.Reaches o (c.elapse.run o').2

theorem Collaborators.Reaches.trans {c : Collaborators σ} {o₁ o₂ o₃ : Outside σ}
    (h : c.Reaches o₁ o₂) (k : c.Reaches o₂ o₃) : c.Reaches o₁ o₃ := by
  induction k with
  | refl => exact h
  | runRandom m _ ih => exact .runRandom m ih
  | runConcrete m arena parameters _ ih => exact .runConcrete m arena parameters ih
  | solve query _ ih => exact .solve query ih
  | record m trace _ ih => exact .record m trace ih
  | elapse _ ih => exact .elapse ih

/-- A run of a method returns a trace, at some time from the given one on. -/
def Collaborators.Returns (c : Collaborators σ) (m : Method) (o : Outside σ) (trace : Trace) :
    Prop :=
  ∃ o', c.Reaches o o' ∧
    (((c.runRandom m).run o').1 = .ok trace ∨
      ∃ arena parameters, ((c.runConcrete m arena parameters).run o').1 = .ok trace)

theorem Collaborators.Returns.of_reaches {c : Collaborators σ} {m : Method} {o o' : Outside σ}
    {trace : Trace} (h : c.Reaches o o') (k : c.Returns m o' trace) : c.Returns m o trace := by
  obtain ⟨o₁, hreaches, hreturned⟩ := k
  exact ⟨o₁, h.trans hreaches, hreturned⟩

/-! ## Actions -/

namespace Act

variable {w w' : World σ} {a : α} {failure : Failure} {result : Except Failure α}

theorem run_bind (x : Act σ α) (f : α → Act σ β) (w : World σ) :
    (x >>= f).run w = (f (x.run w).1).run (x.run w).2 := rfl

theorem run_get (w : World σ) : (get : Act σ (World σ)).run w = (w, w) := rfl

theorem run_ask (act : StateM (Outside σ) α) (w : World σ) :
    (ask act).run w = ((act.run w.outside).1, { w with outside := (act.run w.outside).2 }) := rfl

theorem run_ite {c : Prop} [Decidable c] (x y : Act σ α) (w : World σ) :
    (if c then x else y).run w = if c then x.run w else y.run w := by
  split <;> rfl

/-- An action that may fail goes on from the result of its first part. -/
theorem run_bind_of_ok {x : ExceptT Failure (Act σ) α} {f : α → ExceptT Failure (Act σ) β}
    (h : x.run.run w = (.ok a, w')) : (x >>= f).run.run w = (f a).run.run w' := by
  have hrun : (x >>= f).run.run w =
      (ExceptT.bindCont f (x.run.run w).1).run (x.run.run w).2 := rfl
  rw [hrun, h]
  rfl

theorem run_bind_of_error {x : ExceptT Failure (Act σ) α} {f : α → ExceptT Failure (Act σ) β}
    (h : x.run.run w = (.error failure, w')) :
    (x >>= f).run.run w = (.error failure, w') := by
  have hrun : (x >>= f).run.run w =
      (ExceptT.bindCont f (x.run.run w).1).run (x.run.run w).2 := rfl
  rw [hrun, h]
  rfl

theorem run_mk_pure (result : Except Failure α) (w : World σ) :
    (ExceptT.mk (pure result) : ExceptT Failure (Act σ) α).run.run w = (result, w) := rfl

theorem run_mk_naming {act : StateM NameSupply (Except Failure α)} {names : NameSupply}
    (h : act.run w.names = (result, names)) :
    (ExceptT.mk (naming act)).run.run w = (result, { w with names }) := by
  have hrun : (ExceptT.mk (naming act)).run.run w =
    ((act.run w.names).1, { w with names := (act.run w.names).2 }) := rfl
  rw [hrun, h]

theorem run_lift_ask {act : StateM (Outside σ) α} {outside : Outside σ}
    (h : act.run w.outside = (a, outside)) :
    (ExceptT.lift (ask act) : ExceptT Failure (Act σ) α).run.run w =
      (.ok a, { w with outside }) := by
  have hrun : (ExceptT.lift (ask act) : ExceptT Failure (Act σ) α).run.run w =
    (.ok (act.run w.outside).1, { w with outside := (act.run w.outside).2 }) := rfl
  rw [hrun, h]

end Act

/-! ## Explorations -/

namespace Task

variable {t : Task σ} {mutated path : SymbolicState} {w w' : World σ} {trace : Trace}
  {query : Query} {answer : Answer} {result : Except Failure Finding}

/-- The world once a trace is taken into the coverage. -/
def recorded (t : Task σ) (trace : Trace) (w : World σ) : World σ := ((t.record trace).run w).2

theorem run_lift_record (t : Task σ) (trace : Trace) (w : World σ) :
    (ExceptT.lift (t.record trace) : ExceptT Failure (Act σ) Unit).run.run w =
      (.ok (), t.recorded trace w) := rfl

theorem reaches_recorded (t : Task σ) (trace : Trace) (w : World σ) :
    t.engine.collaborators.Reaches w.outside (t.recorded trace w).outside :=
  .record t.method trace .refl

/-- The token has fired. -/
def HasFired (t : Task σ) (w : World σ) : Prop := w.outside.clock.isCancelled t.token = true

instance (t : Task σ) (w : World σ) : Decidable (t.HasFired w) :=
  inferInstanceAs (Decidable (_ = true))

/-- The world in which the token is looked at next. -/
def later (t : Task σ) (w : World σ) : World σ :=
  { w with outside := (t.engine.collaborators.elapse.run w.outside).2 }

theorem reaches_later (t : Task σ) (w : World σ) :
    t.engine.collaborators.Reaches w.outside (t.later w).outside := .elapse .refl

theorem run_poll (t : Task σ) (w : World σ) :
    t.poll.run w = ((t.later w).outside.clock.isCancelled t.token, t.later w) := rfl

theorem run_checkpoint_of_fired (h : t.HasFired (t.later w)) :
    t.checkpoint.run.run w = (.error .cancelled, t.later w) := by
  have hrun : t.checkpoint.run.run w = (ite (t.HasFired (t.later w)) (throw Failure.cancelled)
    (pure ()) : ExceptT Failure (Act σ) Unit).run.run (t.later w) := rfl
  rw [hrun, if_pos h]
  rfl

theorem run_checkpoint (h : ¬t.HasFired (t.later w)) :
    t.checkpoint.run.run w = (.ok (), t.later w) := by
  have hrun : t.checkpoint.run.run w = (ite (t.HasFired (t.later w)) (throw Failure.cancelled)
    (pure ()) : ExceptT Failure (Act σ) Unit).run.run (t.later w) := rfl
  rw [hrun, if_neg h]
  rfl

/-- There is a query for the state, and this is what the solver says of it. -/
structure Answers (t : Task σ) (mutated : SymbolicState) (w : World σ) (query : Query)
    (answer : Answer) (w' : World σ) : Prop where
  prepared : (Query.prepare t.engine.program t.engine.policy t.engine.settings mutated).run
    w.names = (.ok query, w'.names)
  solved : (t.engine.collaborators.solve query).run w.outside = (answer, w'.outside)
  suite : w'.suite = w.suite

/-- The model stands for these inputs. -/
structure Builds (t : Task σ) (query : Query) (m : Model) (w : World σ) (arena : Arena)
    (parameters : Parameters Handle) (w' : World σ) : Prop where
  built : (t.inputs m query.state).run w.names = (.ok (arena, parameters), w'.names)
  outside : w'.outside = w.outside
  suite : w'.suite = w.suite

/-- The model stands for these inputs, and this is what their run returns. The token has not fired
when the answer is looked at, nor when the inputs are built. -/
structure Executes (t : Task σ) (query : Query) (m : Model) (w : World σ) (arena : Arena)
    (parameters : Parameters Handle) (returned : Except String Trace) (w' : World σ) : Prop where
  answered : ¬t.HasFired (t.later w)
  built : (t.inputs m query.state).run w.names = (.ok (arena, parameters), w'.names)
  ready : ¬t.HasFired (t.later (t.later w))
  executed : (t.engine.collaborators.runConcrete t.method arena parameters).run
    (t.later (t.later w)).outside = (returned, w'.outside)
  suite : w'.suite = w.suite

/-- What exploring a state comes to, and the world that it leaves. -/
inductive Explores (t : Task σ) (mutated path : SymbolicState) (w : World σ) :
    Except Failure Finding → World σ → Prop
  | refused {failure : Failure} {names : NameSupply}
    (hquery : (Query.prepare t.engine.program t.engine.policy t.engine.settings mutated).run
      w.names = (.error failure, names)) :
    Explores t mutated path w (.error failure) { w with names }
  | cancelled {query : Query} {answer : Answer} {w₁ : World σ}
    (hanswers : t.Answers mutated w query answer w₁) (hfired : t.HasFired (t.later w₁)) :
    Explores t mutated path w (.error .cancelled) (t.later w₁)
  | infeasible {query : Query} {w₁ : World σ} (hanswers : t.Answers mutated w query .unsat w₁)
    (hgoing : ¬t.HasFired (t.later w₁)) :
    Explores t mutated path w (.ok .infeasible) (t.later w₁)
  | undecided {query : Query} {reason : String} {w₁ : World σ}
    (hanswers : t.Answers mutated w query (.unknown reason) w₁)
    (hgoing : ¬t.HasFired (t.later w₁)) :
    Explores t mutated path w (.ok .unconfirmed) (t.later w₁)
  | unbuilt {query : Query} {m : Model} {w₁ : World σ} {failure : Failure} {names : NameSupply}
    (hanswers : t.Answers mutated w query (.sat m) w₁) (hgoing : ¬t.HasFired (t.later w₁))
    (hbuilt : (t.inputs m query.state).run w₁.names = (.error failure, names)) :
    Explores t mutated path w (.error failure) { t.later w₁ with names }
  | late {query : Query} {m : Model} {w₁ w₂ : World σ} {arena : Arena}
    {parameters : Parameters Handle} (hanswers : t.Answers mutated w query (.sat m) w₁)
    (hgoing : ¬t.HasFired (t.later w₁))
    (hbuilds : t.Builds query m (t.later w₁) arena parameters w₂)
    (hfired : t.HasFired (t.later w₂)) :
    Explores t mutated path w (.error .cancelled) (t.later w₂)
  | unexecuted {query : Query} {m : Model} {w₁ w₂ : World σ} {arena : Arena}
    {parameters : Parameters Handle} {message : String}
    (hanswers : t.Answers mutated w query (.sat m) w₁)
    (hexecutes : t.Executes query m w₁ arena parameters (.error message) w₂) :
    Explores t mutated path w (.error (.execution (.reported message))) w₂
  | unreplayed {query : Query} {m : Model} {w₁ w₂ : World σ} {arena : Arena}
    {parameters : Parameters Handle} {trace : Trace} {failure : Failure}
    (hanswers : t.Answers mutated w query (.sat m) w₁)
    (hexecutes : t.Executes query m w₁ arena parameters (.ok trace) w₂)
    (hpath : t.pathOf trace = .error failure) :
    Explores t mutated path w (.error failure) (t.recorded trace w₂)
  | diverged {query : Query} {m : Model} {w₁ w₂ : World σ} {arena : Arena}
    {parameters : Parameters Handle} {trace : Trace} {replayed : SymbolicState}
    (hanswers : t.Answers mutated w query (.sat m) w₁)
    (hexecutes : t.Executes query m w₁ arena parameters (.ok trace) w₂)
    (hpath : t.pathOf trace = .ok replayed) (hstarts : replayed.startsWith path = false) :
    Explores t mutated path w (.ok .unconfirmed) (t.recorded trace w₂)
  | confirmed {query : Query} {m : Model} {w₁ w₂ : World σ} {arena : Arena}
    {parameters : Parameters Handle} {trace : Trace} {replayed : SymbolicState}
    (hanswers : t.Answers mutated w query (.sat m) w₁)
    (hexecutes : t.Executes query m w₁ arena parameters (.ok trace) w₂)
    (hpath : t.pathOf trace = .ok replayed) (hstarts : replayed.startsWith path = true) :
    Explores t mutated path w (.ok (.confirmed trace arena parameters)) (t.recorded trace w₂)

theorem explore_explores (t : Task σ) (mutated path : SymbolicState) (w : World σ) :
    t.Explores mutated path w ((t.explore mutated path).run.run w).1
      ((t.explore mutated path).run.run w).2 := by
  unfold explore
  rcases hprepared : (Query.prepare t.engine.program t.engine.policy t.engine.settings
    mutated).run w.names with ⟨failure | query, names⟩
  · rw [Act.run_bind_of_error (Act.run_mk_naming hprepared)]
    exact .refused hprepared
  rw [Act.run_bind_of_ok (Act.run_mk_naming hprepared)]
  rcases hsolved : (t.engine.collaborators.solve query).run w.outside with ⟨answer, outside⟩
  have hanswers : t.Answers mutated w query answer { w with names, outside } :=
    ⟨hprepared, hsolved, rfl⟩
  rw [Act.run_bind_of_ok (Act.run_lift_ask (w := { w with names }) hsolved)]
  generalize ({ w with names, outside } : World σ) = w₁ at hanswers ⊢
  by_cases hfired : t.HasFired (t.later w₁)
  · rw [Act.run_bind_of_error (run_checkpoint_of_fired hfired)]
    exact .cancelled hanswers hfired
  rw [Act.run_bind_of_ok (run_checkpoint hfired)]
  cases answer with
  | unsat => exact .infeasible hanswers hfired
  | unknown reason => exact .undecided hanswers hfired
  | sat m =>
    dsimp only
    rcases hbuilt : (t.inputs m query.state).run w₁.names with
      ⟨failure | ⟨arena, parameters⟩, names⟩
    · rw [Act.run_bind_of_error (Act.run_mk_naming (w := t.later w₁) hbuilt)]
      exact .unbuilt hanswers hfired hbuilt
    rw [Act.run_bind_of_ok (Act.run_mk_naming (w := t.later w₁) hbuilt)]
    by_cases hlate : t.HasFired (t.later (t.later w₁))
    · rw [Act.run_bind_of_error (run_checkpoint_of_fired (w := { t.later w₁ with names }) hlate)]
      exact .late hanswers hfired ⟨hbuilt, rfl, rfl⟩ hlate
    rw [Act.run_bind_of_ok (run_checkpoint (w := { t.later w₁ with names }) hlate)]
    rcases hexecuted : (t.engine.collaborators.runConcrete t.method arena parameters).run
      (t.later (t.later w₁)).outside with ⟨returned, outside⟩
    have hexecutes : t.Executes query m w₁ arena parameters returned
        { t.later { t.later w₁ with names } with outside } :=
      ⟨hfired, hbuilt, hlate, hexecuted, rfl⟩
    rw [Act.run_bind_of_ok (Act.run_lift_ask (w := t.later { t.later w₁ with names }) hexecuted)]
    generalize ({ t.later { t.later w₁ with names } with outside } : World σ) = w₂ at hexecutes ⊢
    cases returned with
    | error message => exact .unexecuted hanswers hexecutes
    | ok trace =>
      dsimp only
      rw [Act.run_bind_of_ok (run_lift_record t trace w₂)]
      cases hpath : t.pathOf trace with
      | error failure =>
        rw [Act.run_bind_of_error (Act.run_mk_pure ..)]
        exact .unreplayed hanswers hexecutes hpath
      | ok replayed =>
        rw [Act.run_bind_of_ok (Act.run_mk_pure ..)]
        by_cases hstarts : replayed.startsWith path = true
        · rw [if_pos hstarts]
          exact .confirmed hanswers hexecutes hpath hstarts
        · rw [if_neg hstarts]
          exact .diverged hanswers hexecutes hpath (Bool.not_eq_true _ ▸ hstarts)

theorem explores_of_run (h : (t.explore mutated path).run.run w = (result, w')) :
    t.Explores mutated path w result w' := by
  have hexplores := t.explore_explores mutated path w
  rwa [h] at hexplores

/-! ## Explorations as runs -/

/-- Behind the query and its answer an exploration goes on from them. -/
theorem Answers.run_bind (h : t.Answers mutated w query answer w')
    (f : Query → Answer → ExceptT Failure (Act σ) α) :
    (do
      let query ← ExceptT.mk (Act.naming
        (Query.prepare t.engine.program t.engine.policy t.engine.settings mutated))
      let answer ← ExceptT.lift (Act.ask (t.engine.collaborators.solve query))
      f query answer : ExceptT Failure (Act σ) α).run.run w = (f query answer).run.run w' := by
  have hrest : ({ w with names := w'.names, outside := w'.outside } : World σ) = w' := by
    rw [← h.suite]
  rw [Act.run_bind_of_ok (Act.run_mk_naming h.prepared),
    Act.run_bind_of_ok (Act.run_lift_ask (w := { w with names := w'.names }) h.solved), hrest]

theorem Builds.run_bind {m : Model} {arena : Arena} {parameters : Parameters Handle}
    (h : t.Builds query m w arena parameters w')
    (f : Arena × Parameters Handle → ExceptT Failure (Act σ) α) :
    (ExceptT.mk (Act.naming (t.inputs m query.state)) >>= f).run.run w =
      (f (arena, parameters)).run.run w' := by
  have hrest : ({ w with names := w'.names } : World σ) = w' := by
    rw [← h.suite, ← h.outside]
  rw [Act.run_bind_of_ok (Act.run_mk_naming h.built), hrest]

theorem Executes.run_bind {m : Model} {arena : Arena} {parameters : Parameters Handle}
    {returned : Except String Trace} (h : t.Executes query m w arena parameters returned w')
    (f : Arena × Parameters Handle → Except String Trace → ExceptT Failure (Act σ) α) :
    (do
      let inputs ← ExceptT.mk (Act.naming (t.inputs m query.state))
      t.checkpoint
      let returned ← ExceptT.lift (Act.ask
        (t.engine.collaborators.runConcrete t.method inputs.1 inputs.2))
      f inputs returned : ExceptT Failure (Act σ) α).run.run (t.later w) =
        (f (arena, parameters) returned).run.run w' := by
  have hrest : ({ w with names := w'.names, outside := w'.outside } : World σ) = w' := by
    rw [← h.suite]
  rw [Act.run_bind_of_ok (Act.run_mk_naming (w := t.later w) h.built),
    Act.run_bind_of_ok (run_checkpoint (w := { t.later w with names := w'.names }) h.ready),
    Act.run_bind_of_ok (Act.run_lift_ask
      (w := t.later { t.later w with names := w'.names }) h.executed)]
  exact congrArg (f (arena, parameters) returned).run.run hrest

/-- What exploring a state comes to is what a run of it gives. -/
theorem Explores.run_eq (h : t.Explores mutated path w result w') :
    (t.explore mutated path).run.run w = (result, w') := by
  unfold explore
  cases h with
  | refused hquery => rw [Act.run_bind_of_error (Act.run_mk_naming hquery)]
  | cancelled hanswers hfired =>
    rw [hanswers.run_bind, Act.run_bind_of_error (run_checkpoint_of_fired hfired)]
  | infeasible hanswers hgoing | undecided hanswers hgoing =>
    rw [hanswers.run_bind, Act.run_bind_of_ok (run_checkpoint hgoing)]
    rfl
  | unbuilt hanswers hgoing hbuilt =>
    rw [hanswers.run_bind, Act.run_bind_of_ok (run_checkpoint hgoing)]
    exact Act.run_bind_of_error (Act.run_mk_naming (w := t.later _) hbuilt)
  | late hanswers hgoing hbuilds hfired =>
    rw [hanswers.run_bind, Act.run_bind_of_ok (run_checkpoint hgoing)]
    exact (hbuilds.run_bind _).trans (Act.run_bind_of_error (run_checkpoint_of_fired hfired))
  | unexecuted hanswers hexecutes =>
    rw [hanswers.run_bind, Act.run_bind_of_ok (run_checkpoint hexecutes.answered)]
    exact hexecutes.run_bind _
  | unreplayed hanswers hexecutes hpath =>
    rw [hanswers.run_bind, Act.run_bind_of_ok (run_checkpoint hexecutes.answered)]
    refine (hexecutes.run_bind _).trans ?_
    dsimp only
    rw [Act.run_bind_of_ok (run_lift_record ..), hpath, Act.run_bind_of_error (Act.run_mk_pure ..)]
  | diverged hanswers hexecutes hpath hstarts =>
    rw [hanswers.run_bind, Act.run_bind_of_ok (run_checkpoint hexecutes.answered)]
    refine (hexecutes.run_bind _).trans ?_
    dsimp only
    rw [Act.run_bind_of_ok (run_lift_record ..), hpath, Act.run_bind_of_ok (Act.run_mk_pure ..),
      if_neg (by simp [hstarts])]
    rfl
  | confirmed hanswers hexecutes hpath hstarts =>
    rw [hanswers.run_bind, Act.run_bind_of_ok (run_checkpoint hexecutes.answered)]
    refine (hexecutes.run_bind _).trans ?_
    dsimp only
    rw [Act.run_bind_of_ok (run_lift_record ..), hpath, Act.run_bind_of_ok (Act.run_mk_pure ..),
      if_pos hstarts]
    rfl

/-- An exploration comes to one end only. -/
theorem Explores.unique {result' : Except Failure Finding} {w'' : World σ}
    (h : t.Explores mutated path w result w') (h' : t.Explores mutated path w result' w'') :
    result = result' ∧ w' = w'' :=
  Prod.mk.inj (h.run_eq.symm.trans h'.run_eq)

/-! ## What an exploration leaves -/

theorem Answers.reaches (h : t.Answers mutated w query answer w') :
    t.engine.collaborators.Reaches w.outside w'.outside := by
  have hreaches : t.engine.collaborators.Reaches w.outside
    ((t.engine.collaborators.solve query).run w.outside).2 := .solve query .refl
  rwa [h.solved] at hreaches

theorem Answers.reaches_later (h : t.Answers mutated w query answer w') :
    t.engine.collaborators.Reaches w.outside (t.later w').outside := .elapse h.reaches

theorem Builds.reaches_later {m : Model} {arena : Arena} {parameters : Parameters Handle}
    (h : t.Builds query m w arena parameters w') :
    t.engine.collaborators.Reaches w.outside (t.later w').outside :=
  .elapse (h.outside ▸ .refl)

theorem Executes.reaches {m : Model} {arena : Arena} {parameters : Parameters Handle}
    {returned : Except String Trace} (h : t.Executes query m w arena parameters returned w') :
    t.engine.collaborators.Reaches w.outside w'.outside := by
  have hreaches : t.engine.collaborators.Reaches w.outside
    ((t.engine.collaborators.runConcrete t.method arena parameters).run
      (t.later (t.later w)).outside).2 :=
    .runConcrete t.method arena parameters (.elapse (.elapse .refl))
  rwa [h.executed] at hreaches

theorem Explores.reaches (h : t.Explores mutated path w result w') :
    t.engine.collaborators.Reaches w.outside w'.outside := by
  cases h with
  | refused => exact .refl
  | cancelled hanswers | infeasible hanswers | undecided hanswers => exact hanswers.reaches_later
  | unbuilt hanswers => exact hanswers.reaches_later
  | late hanswers _ hbuilds => exact hanswers.reaches_later.trans hbuilds.reaches_later
  | unexecuted hanswers hexecutes => exact hanswers.reaches.trans hexecutes.reaches
  | unreplayed hanswers hexecutes | diverged hanswers hexecutes | confirmed hanswers hexecutes =>
    exact (hanswers.reaches.trans hexecutes.reaches).trans (t.reaches_recorded ..)

/-- Tests are not found while a path is explored. -/
theorem Explores.suite (h : t.Explores mutated path w result w') : w'.suite = w.suite := by
  cases h with
  | refused => rfl
  | cancelled hanswers | infeasible hanswers | undecided hanswers => exact hanswers.suite
  | unbuilt hanswers => exact hanswers.suite
  | late hanswers _ hbuilds => exact hbuilds.suite.trans hanswers.suite
  | unexecuted hanswers hexecutes => exact hexecutes.suite.trans hanswers.suite
  | unreplayed hanswers hexecutes | diverged hanswers hexecutes | confirmed hanswers hexecutes =>
    exact hexecutes.suite.trans hanswers.suite

/-- A confirmed path is one that a returned trace takes. -/
theorem Explores.takes {arena : Arena} {parameters : Parameters Handle}
    (h : t.Explores mutated path w (.ok (.confirmed trace arena parameters)) w') :
    (∃ replayed, t.pathOf trace = .ok replayed ∧ replayed.startsWith path = true) ∧
      t.engine.collaborators.Returns t.method w.outside trace := by
  cases h with
  | confirmed hanswers hexecutes hpath hstarts =>
    exact ⟨⟨_, hpath, hstarts⟩, (t.later (t.later _)).outside, .elapse (.elapse hanswers.reaches),
      .inr ⟨arena, parameters, congrArg Prod.fst hexecutes.executed⟩⟩

end Task
end Concolic
