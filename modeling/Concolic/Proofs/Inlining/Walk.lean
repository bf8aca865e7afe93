import Concolic.Proofs.Inlining
import Concolic.Proofs.Inlining.Binding

/-!
# The walk of a round

A round walks over a state and sends each predicate, or what takes the place of the call it makes,
to the builder in use. What becomes of the state, and how far the round gets, is said by a relation
without builders and effects that has one rule for each way a state is put together.

## Main statements

* `sends_onState` — the walk over a state.
* `exists_round` — what a round makes of a state.
-/

namespace Concolic

open Inlining

/-! ## Predicates and the calls they make -/

namespace Clause

variable {p : Predicate} {method method' : Method}

/-- The predicate calls a method. -/
def Calls (p : Predicate) (method : Method) : Prop :=
  ∃ target? type receiver arguments,
    callOf? p = some (target?, .call type method receiver arguments)

theorem Calls.unique (h : p.Calls method) (h' : p.Calls method') : method = method' := by
  obtain ⟨target?, type, receiver, arguments, hcall⟩ := h
  obtain ⟨target?', type', receiver', arguments', hcall'⟩ := h'
  obtain ⟨-, hcall⟩ := Prod.mk.inj (Option.some.inj (hcall.symm.trans hcall'))
  exact (Term.call.inj hcall).2.1

/-- What the predicate calls is a call, and no function stands in it. -/
structure IsOrdinary (p : Predicate) : Prop where
  isProper : p.IsProper
  firstOrder : Term.areFirstOrder p.operands = true

end Clause

/-- No function stands in the state, and what its predicates call are calls. -/
def State.IsOrdinary (s : SymbolicState) : Prop := ∀ p, s.Occurs p → p.IsOrdinary

/-! ## Builders -/

/-- The state is another one with its parts put together differently. -/
structure State.Regroups (s' s : SymbolicState) : Prop where
  occurs (p : Predicate) : s'.Occurs p → s.Occurs p
  items : s'.items = s.items

theorem State.Regroups.satisfiedBy {s' s : SymbolicState} (h : s'.Regroups s)
    (holds : Predicate → Prop) : s'.SatisfiedBy holds ↔ s.SatisfiedBy holds := by
  rw [SatisfiedBy, SatisfiedBy, h.items]

namespace StateBuilder

variable {b b' b'' : StateBuilder Predicate} {s t : SymbolicState} {p : Predicate}

/-- The predicate is among what the builder has gathered. -/
def Gathers (b : StateBuilder Predicate) (p : Predicate) : Prop :=
  b.finished.Occurs p ∨ p ∈ b.pending

theorem gathers_of_occurs (h : b.toState.Occurs p) : b.Gathers p := by
  unfold toState at h
  split at h
  · exact .inl h
  · exact (State.occurs_of_concat h).imp_right State.occurs_basic.mp

/-- The builder has gathered a state more. -/
structure Gains (b' b : StateBuilder Predicate) (s : SymbolicState) : Prop where
  gathers (p : Predicate) : b'.Gathers p → b.Gathers p ∨ s.Occurs p
  items : b'.toState.items = b.toState.items ++ s.items

theorem Gains.nothing (b : StateBuilder Predicate) : b.Gains b (.basic []) :=
  ⟨fun _ hp => .inl hp, by simp⟩

theorem Gains.trans (h : b'.Gains b s) (k : b''.Gains b' t) : b''.Gains b (.chain s t) := by
  refine ⟨fun p hp => ?_, ?_⟩
  · rcases k.gathers p hp with hp | hp
    · exact (h.gathers p hp).imp_right .first
    · exact .inr (.second hp)
  · rw [k.items, h.items, State.items_chain, List.append_assoc]

theorem gains_push (b : StateBuilder Predicate) (p : Predicate) : (b.push p).Gains b (.basic [p]) :=
  ⟨fun q hq => hq.elim (fun hq => .inl (.inl hq)) fun hq =>
    (List.mem_append.mp hq).imp .inr .basic, by simp⟩

theorem gains_append (b : StateBuilder Predicate) (s : SymbolicState) : (b.append s).Gains b s :=
  ⟨fun p hp => hp.elim
    (fun hp => (State.occurs_of_concat hp).imp_left gathers_of_occurs) nofun, by simp⟩

theorem gains_pushAll (b : StateBuilder Predicate) (parts : List Predicate) :
    (parts.foldl push b).Gains b (.basic parts) := by
  induction parts generalizing b with
  | nil => exact .nothing b
  | cons p parts ih =>
    have h := (b.gains_push p).trans (ih (b.push p))
    refine ⟨fun q hq => (h.gathers q hq).imp_right fun hq => ?_, ?_⟩
    · rw [State.occurs_basic, List.mem_cons]
      exact (State.occurs_chain.mp hq).imp State.occurs_singleton.mp State.occurs_basic.mp
    · rw [List.foldl_cons, h.items]
      simp

/-- What a builder of its own has gathered. -/
theorem Gains.regroups (h : b.Gains {} s) : b.toState.Regroups s := by
  refine ⟨fun p hp => (h.gathers p (gathers_of_occurs hp)).resolve_left ?_, h.items⟩
  rintro (hp | hp)
  · cases State.occurs_basic.mp hp
  · cases hp

end StateBuilder

/-! ## Terms are left alone -/

/-- Rules that leave terms alone leave assertions alone. -/
theorem Rules.onAssertion_of_inert {m : Type → Type} [Monad m] [LawfulMonad m] {R : Rules m}
    {recollecting : Bool} (hshortcut : ∀ t, R.shortcut t = none) (hterm : ∀ t, R.term t = pure t)
    {a : Assertion Term} (h : Term.areFirstOrder a.operands = true) :
    R.onAssertion recollecting a = pure a := by
  have hterms : ∀ t ∈ a.operands, R.onTerm recollecting t = pure (id t) := fun t ht =>
    onTerm_of_inert hshortcut hterm t (Term.areFirstOrder_iff.mp h t ht)
  rw [onAssertion_of_pure hterms, Assertion.map_id]

/-! ## The body for a call -/

namespace Inlining

variable {S : Setting} {α β : Type} {method : Method} {info : MethodInfo} {body : SymbolicState}
  {failure : Failure}

/-- Calls of the method are replaced by a body. -/
def Setting.IsInlinable (S : Setting) (method : Method) : Prop :=
  ∃ info body, S.Inlines method info body

/-- The program's model fails when it is asked for the body of the method, which may be inlined. -/
def Setting.Refuses (S : Setting) (method : Method) (failure : Failure) : Prop :=
  ∃ info, S.program.method? method = some info ∧ S.admits info = true ∧
    S.program.body? info.method = .error failure

/-- The program's model does not fail when it is asked for the body of a method that may be
inlined. -/
def Setting.IsReadable (S : Setting) : Prop :=
  ∀ method info failure, S.program.method? method = some info → S.admits info = true →
    S.program.body? info.method ≠ .error failure

theorem Setting.IsReadable.not_refuses (h : S.IsReadable) (method : Method) (failure : Failure) :
    ¬S.Refuses method failure := fun ⟨info, hmethod, hadmits, hbody⟩ =>
  h method info failure hmethod hadmits hbody

/-- A body that is there is not refused. -/
theorem Setting.Inlines.not_refuses (h : S.Inlines method info body) :
    ¬S.Refuses method failure := by
  rintro ⟨info', hmethod, -, hbody⟩
  obtain rfl := Option.some.inj (h.known.symm.trans hmethod)
  cases h.stated.symm.trans hbody

theorem bodyFor_of_inlines (h : S.Inlines method info body) (round : Round) :
    (bodyFor S method).run round = (some (info, body), round) := by
  have hrun : (bodyFor S method).run round =
      (if body.isEmpty = true then none else some (info, body), round) := by
    rw [bodyFor, h.known]
    dsimp only
    rw [if_neg (by simp [h.admitted]), h.stated]
    rfl
  rw [hrun, if_neg (by simp [h.nonempty])]

theorem bodyFor_of_refuses (h : S.Refuses method failure) (round : Round) :
    (bodyFor S method).run round =
      (none, { round with failure := round.failure.or (some failure) }) := by
  obtain ⟨info, hmethod, hadmits, hbody⟩ := h
  rw [bodyFor, hmethod]
  dsimp only
  rw [if_neg (by simp [hadmits]), hbody]
  rfl

theorem bodyFor_of_not (hinlinable : ¬S.IsInlinable method)
    (hrefuses : ∀ failure, ¬S.Refuses method failure) (round : Round) :
    (bodyFor S method).run round = (none, round) := by
  rw [bodyFor]
  cases hmethod : S.program.method? method with
  | none => rfl
  | some info =>
    dsimp only
    cases hadmits : S.admits info with
    | false => rfl
    | true =>
      rw [if_neg (by simp)]
      rcases hbody : S.program.body? info.method with failure | _ | body
      · exact absurd ⟨info, hmethod, hadmits, hbody⟩ (hrefuses failure)
      · rfl
      · cases hempty : body.isEmpty with
        | true =>
          change (if body.isEmpty = true then none else some (info, body), round) = _
          rw [if_pos hempty]
        | false => exact absurd ⟨info, body, hmethod, hadmits, hbody, hempty⟩ hinlinable

/-! ## What becomes of predicates and states -/

/-- What becomes of a predicate in a round. -/
inductive Yields (S : Setting) (p : Predicate) (round : Round) (names : NameSupply) :
    SymbolicState → Round → NameSupply → Prop
  /-- There is no body to put in its place. -/
  | kept : (∀ method, p.Calls method →
        ¬S.IsInlinable method ∧ ∀ failure, ¬S.Refuses method failure) →
      Yields S p round names (.basic [p]) round names
  /-- The body is refused, and the first such failure remembered. -/
  | refused {method : Method} {failure : Failure} : p.Calls method → S.Refuses method failure →
      Yields S p round names (.basic [p])
        { round with failure := round.failure.or (some failure) } names
  /-- The body takes the place of the call. -/
  | inlined {target? : Option Term} {type : ValueType} {method : Method} {receiver : Term}
      {arguments : List Term} {info : MethodInfo} {body : SymbolicState}
      {defining : List Predicate} {inlined : SymbolicState} {names' : NameSupply} :
      callOf? p = some (target?, .call type method receiver arguments) →
      S.Inlines method info body →
      (expansion ("inlined" ++ toString round.next) info method target? receiver arguments
        body).run names = ((defining, inlined), names') →
      Yields S p round names (.chain (.basic defining) inlined)
        { round with next := round.next + 1, inlined := round.inlined + 1 } names'

mutual

/-- What becomes of a state in a round. -/
inductive Becomes (S : Setting) : SymbolicState → Round → NameSupply →
    SymbolicState → Round → NameSupply → Prop
  | nil {round : Round} {names : NameSupply} :
      Becomes S (.basic []) round names (.basic []) round names
  | cons {p : Predicate} {parts : List Predicate} {s t : SymbolicState}
      {round round₁ round₂ : Round} {names names₁ names₂ : NameSupply} :
      Yields S p round names s round₁ names₁ →
      Becomes S (.basic parts) round₁ names₁ t round₂ names₂ →
      Becomes S (.basic (p :: parts)) round names (.chain s t) round₂ names₂
  | chain {s s' t t' : SymbolicState} {round round₁ round₂ : Round}
      {names names₁ names₂ : NameSupply} :
      Becomes S s round names s' round₁ names₁ → Becomes S t round₁ names₁ t' round₂ names₂ →
      Becomes S (.chain s t) round names (.chain s' t') round₂ names₂
  | choice {alternatives alternatives' : List SymbolicState} {round round' : Round}
      {names names' : NameSupply} :
      BecomeAll S alternatives round names alternatives' round' names' →
      Becomes S (.choice alternatives) round names (.choice alternatives') round' names'
  /-- How the parts are put together does not matter. -/
  | regroup {s t t' : SymbolicState} {round round' : Round} {names names' : NameSupply} :
      Becomes S s round names t round' names' → t'.Regroups t →
      Becomes S s round names t' round' names'

/-- What becomes of the alternatives of a choice. -/
inductive BecomeAll (S : Setting) : List SymbolicState → Round → NameSupply →
    List SymbolicState → Round → NameSupply → Prop
  | nil {round : Round} {names : NameSupply} : BecomeAll S [] round names [] round names
  | cons {s s' : SymbolicState} {rest rest' : List SymbolicState} {round round₁ round₂ : Round}
      {names names₁ names₂ : NameSupply} :
      Becomes S s round names s' round₁ names₁ →
      BecomeAll S rest round₁ names₁ rest' round₂ names₂ →
      BecomeAll S (s :: rest) round names (s' :: rest') round₂ names₂

end

/-! ## The walk -/

/-- What a walk comes to: its result, the builders, the progress of the round and the names left. -/
def outcome (walk : Rules.Walk Effects α) (stack : BuilderStack Predicate) (round : Round)
    (names : NameSupply) : ((α × BuilderStack Predicate) × Round) × NameSupply :=
  ((walk.run stack).run round).run names

theorem outcome_bind {walk : Rules.Walk Effects α} {next : α → Rules.Walk Effects β} {a : α}
    {stack stack' : BuilderStack Predicate} {round round' : Round} {names names' : NameSupply}
    (h : outcome walk stack round names = (((a, stack'), round'), names')) :
    outcome (walk >>= next) stack round names = outcome (next a) stack' round' names' := by
  have hbind : outcome (walk >>= next) stack round names =
      let out := outcome walk stack round names
      outcome (next out.1.1.1) out.1.1.2 out.1.2 out.2 := rfl
  rw [hbind, h]

/-- A walk in a builder of its own gives what it has gathered there. -/
theorem outcome_inOwnBuilder {walk : Rules.Walk Effects SymbolicState} {a : SymbolicState}
    {top : StateBuilder Predicate} {stack : BuilderStack Predicate} {round round' : Round}
    {names names' : NameSupply} (h : outcome walk ⟨{} :: stack.builders⟩ round names =
      (((a, ⟨top :: stack.builders⟩), round'), names')) :
    outcome (Rules.inOwnBuilder true walk) stack round names =
      (((top.toState, stack), round'), names') := by
  have hown : outcome (Rules.inOwnBuilder true walk) stack round names =
      outcome (walk >>= fun _ => modifyGet BuilderStack.pop) ⟨{} :: stack.builders⟩ round names :=
    rfl
  rw [hown, outcome_bind h]
  rfl

/-- What becomes of a predicate that calls a method. -/
theorem outcome_rule {p : Predicate} {target? : Option Term} {type : ValueType} {method : Method}
    {receiver : Term} {arguments : List Term}
    (hcall : callOf? p = some (target?, .call type method receiver arguments))
    (stack : BuilderStack Predicate) (round : Round) (names : NameSupply) :
    outcome (StateT.lift ((rules S).predicate p)) stack round names =
      match (bodyFor S method).run round with
      | (none, round') => (((.keep p, stack), round'), names)
      | (some (info, body), round') =>
        let out := (expansion ("inlined" ++ toString round'.next) info method target? receiver
          arguments body).run names
        (((.splice fun builder => (out.1.1.foldl StateBuilder.push builder).append out.1.2, stack),
          { round' with next := round'.next + 1, inlined := round'.inlined + 1 }), out.2) := by
  have hrun (next : Option (MethodInfo × SymbolicState) → Effects Verdict) :
      outcome (StateT.lift (modifyGet ((bodyFor S method).run ·) >>= next)) stack round names =
        let found := (bodyFor S method).run round
        outcome (StateT.lift (next found.1)) stack found.2 names := rfl
  simp only [rules, hcall]
  rw [hrun]
  rcases (bodyFor S method).run round with ⟨_ | ⟨info, body⟩, round'⟩ <;> rfl

/-- A predicate is kept, or gives way to what takes the place of the call. -/
theorem onPredicate_yields {p : Predicate} (hp : p.IsOrdinary) (stack : BuilderStack Predicate)
    (round : Round) (names : NameSupply) :
    (∃ round', Yields S p round names (.basic [p]) round' names ∧
      outcome ((rules S).onPredicate true p) stack round names =
        (((.keep p, stack), round'), names)) ∨
    ∃ defining inlined round' names',
      Yields S p round names (.chain (.basic defining) inlined) round' names' ∧
      outcome ((rules S).onPredicate true p) stack round names =
        (((.splice fun builder => (defining.foldl StateBuilder.push builder).append inlined, stack),
          round'), names') := by
  have hwalk : (rules S).onPredicate true p = StateT.lift ((rules S).predicate p) := by
    have hoperands := hp.firstOrder
    obtain ⟨role, assertion, location⟩ := p
    rw [Rules.onPredicate, Rules.onAssertion_of_inert (fun _ => rfl) (fun _ => rfl) hoperands,
      pure_bind, settle, ite_self]
  rw [hwalk]
  rcases hcall : callOf? p with _ | ⟨target?, call⟩
  · refine .inl ⟨round, .kept ?_, ?_⟩
    · rintro method ⟨_, _, _, _, hcalls⟩
      cases hcall.symm.trans hcalls
    · simp only [rules, hcall]
      rfl
  · obtain ⟨type, method, receiver, arguments, rfl⟩ := hp.isProper _ _ hcall
    have hcalls : p.Calls method := ⟨target?, type, receiver, arguments, hcall⟩
    by_cases hinlinable : S.IsInlinable method
    · obtain ⟨info, body, hinlines⟩ := hinlinable
      rcases hrun : (expansion ("inlined" ++ toString round.next) info method target? receiver
        arguments body).run names with ⟨⟨defining, inlined⟩, names'⟩
      refine .inr ⟨defining, inlined, _, names', .inlined hcall hinlines hrun, ?_⟩
      rw [outcome_rule hcall, bodyFor_of_inlines hinlines]
      dsimp only
      rw [hrun]
    · by_cases hrefuses : ∃ failure, S.Refuses method failure
      · obtain ⟨failure, hrefuses⟩ := hrefuses
        refine .inl ⟨_, .refused hcalls hrefuses, ?_⟩
        rw [outcome_rule hcall, bodyFor_of_refuses hrefuses]
      · rw [not_exists] at hrefuses
        refine .inl ⟨round, .kept fun method' hcalls' => ?_, ?_⟩
        · obtain rfl := hcalls.unique hcalls'
          exact ⟨hinlinable, hrefuses⟩
        · rw [outcome_rule hcall, bodyFor_of_not hinlinable hrefuses]

/-- The walk sends what becomes of a state to the builder in use. -/
def Sends (S : Setting) (walk : Rules.Walk Effects α) (s : SymbolicState) : Prop :=
  ∀ top below (round : Round) (names : NameSupply), ∃ a top' round' names' s',
    outcome walk ⟨top :: below⟩ round names = (((a, ⟨top' :: below⟩), round'), names') ∧
      top'.Gains top s' ∧ Becomes S s round names s' round' names'

theorem sends_onParts {parts : List Predicate} (hparts : ∀ p ∈ parts, p.IsOrdinary) :
    Sends S ((rules S).onParts true parts) (.basic parts) := by
  induction parts with
  | nil =>
    intro top below round names
    exact ⟨[], top, round, names, .basic [], by rw [Rules.onParts]; rfl, .nothing top, .nil⟩
  | cons p parts ih =>
    intro top below round names
    rw [List.forall_mem_cons] at hparts
    rw [Rules.onParts]
    rcases onPredicate_yields hparts.1 ⟨top :: below⟩ round names with
      ⟨round₁, hyields, hrun⟩ | ⟨defining, inlined, round₁, names₁, hyields, hrun⟩
    · obtain ⟨parts', top', round', names', t, hrunRest, hgains, hrest⟩ :=
        ih hparts.2 (top.push p) below round₁ names
      refine ⟨p :: parts', top', round', names', .chain (.basic [p]) t, ?_,
        (top.gains_push p).trans hgains, .cons hyields hrest⟩
      have hpush : outcome (Rules.build true (·.push p)) ⟨top :: below⟩ round₁ names =
          ((((), ⟨top.push p :: below⟩), round₁), names) := rfl
      rw [outcome_bind hrun]
      dsimp only
      rw [outcome_bind hpush, outcome_bind hrunRest]
      rfl
    · obtain ⟨parts', top', round', names', t, hrunRest, hgains, hrest⟩ :=
        ih hparts.2 ((defining.foldl StateBuilder.push top).append inlined) below round₁ names₁
      refine ⟨parts', top', round', names', .chain (.chain (.basic defining) inlined) t, ?_,
        ((top.gains_pushAll defining).trans (StateBuilder.gains_append _ inlined)).trans hgains,
        .cons hyields hrest⟩
      rw [outcome_bind hrun]
      exact hrunRest

theorem Sends.inOwnBuilder {walk : Rules.Walk Effects SymbolicState} {s : SymbolicState}
    (h : Sends S walk s) (stack : BuilderStack Predicate) (round : Round) (names : NameSupply) :
    ∃ s' round' names',
      outcome (Rules.inOwnBuilder true walk) stack round names = (((s', stack), round'), names') ∧
      Becomes S s round names s' round' names' := by
  obtain ⟨a, top', round', names', s', hrun, hgains, hbecomes⟩ := h {} stack.builders round names
  exact ⟨top'.toState, round', names', outcome_inOwnBuilder hrun,
    .regroup hbecomes hgains.regroups⟩

mutual

/-- The walk over a state. -/
theorem sends_onState : ∀ {s : SymbolicState}, s.IsOrdinary → Sends S ((rules S).onState true s) s
  | .basic parts, hs => by
    intro top below round names
    obtain ⟨parts', top', round', names', s', hrun, h⟩ :=
      sends_onParts (fun p hp => hs p (.basic hp)) top below round names
    refine ⟨.basic (settle parts parts'), top', round', names', s', ?_, h⟩
    rw [Rules.onState, outcome_bind hrun]
    rfl
  | .chain s t, hs => by
    intro top below round names
    obtain ⟨a, top₁, round₁, names₁, s', hruns, hgains, hbecomes⟩ :=
      sends_onState (fun p hp => hs p (.first hp)) top below round names
    obtain ⟨b, top₂, round₂, names₂, t', hrunt, hgaint, hbecomet⟩ :=
      sends_onState (fun p hp => hs p (.second hp)) top₁ below round₁ names₁
    refine ⟨if a == s && b == t then .chain s t else .chain a b, top₂, round₂, names₂,
      .chain s' t', ?_, hgains.trans hgaint, .chain hbecomes hbecomet⟩
    rw [Rules.onState, outcome_bind hruns, outcome_bind hrunt]
    rfl
  | .choice alternatives, hs => by
    intro top below round names
    obtain ⟨alternatives', round', names', hrun, hall⟩ := becomeAll_onAlternatives
      (fun s hmem p hp => hs p (.choice hmem hp)) ⟨top :: below⟩ round names
    refine ⟨.choice (settle alternatives alternatives'), top.append (.choice alternatives'), round',
      names', .choice alternatives', ?_, top.gains_append _, .choice hall⟩
    rw [Rules.onState, outcome_bind hrun]
    rfl

/-- The walk over the alternatives of a choice. -/
theorem becomeAll_onAlternatives : ∀ {alternatives : List SymbolicState},
    (∀ s ∈ alternatives, s.IsOrdinary) → ∀ (stack : BuilderStack Predicate) (round : Round)
      (names : NameSupply), ∃ alternatives' round' names',
        outcome ((rules S).onAlternatives true alternatives) stack round names =
          (((alternatives', stack), round'), names') ∧
        BecomeAll S alternatives round names alternatives' round' names'
  | [], _, stack, round, names => by
    rw [Rules.onAlternatives]
    exact ⟨[], round, names, rfl, .nil⟩
  | s :: rest, hall, stack, round, names => by
    rw [List.forall_mem_cons] at hall
    obtain ⟨s', round₁, names₁, hrun, hs⟩ := (sends_onState hall.1).inOwnBuilder stack round names
    obtain ⟨rest', round', names', hrunRest, hrest⟩ :=
      becomeAll_onAlternatives hall.2 stack round₁ names₁
    refine ⟨s' :: rest', round', names', ?_, .cons hs hrest⟩
    rw [Rules.onAlternatives, outcome_bind hrun, outcome_bind hrunRest]
    rfl

end

/-- What a round makes of a state. -/
theorem exists_round {s : SymbolicState} (hs : s.IsOrdinary) (next : Nat) (names : NameSupply) :
    ∃ s' round' names', Becomes S s { next } names s' round' names' ∧
      (round S next s).run names =
        ((round'.failure.elim (.ok s'.simplify) .error, round'), names') := by
  obtain ⟨a, top', round', names', s', hrun, hgains, hbecomes⟩ :=
    sends_onState hs {} [] { next } names
  refine ⟨top'.toState, round', names', .regroup hbecomes hgains.regroups, ?_⟩
  have hwalked : walked S next names s = (((a, ⟨[top']⟩), round'), names') := hrun
  rw [round_run, hwalked]
  rfl

end Inlining
end Concolic
