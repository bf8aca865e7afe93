import Concolic.Proofs.Inlining.Binding

/-!
# Expanding one call

A call gives way to the definitions of the terms handed to the body, and to the renamed body. These
can be satisfied with values for the new names just when the call may be made.

## Main statement

* `expansion_expands` — what takes the place of a call.
-/

namespace Concolic

open Inlining

/-! ## Marked names -/

namespace Environment

variable {V : Type} {W : Vocabulary}

open Classical in
/-- The environment in which the marked names of a body stand for what its leaves stand for in
another. -/
noncomputable def marking (e : Environment V) (W : Vocabulary) (number : Nat) (w : Environment V) :
    Environment V :=
  fun type l =>
    if h : ∃ k : Leaf, k.Names ∧ k.IsOver W IsPlain ∧ l = .value (inlinedName (k.text type) number)
    then w type h.choose else e type l

theorem marking_marked (number : Nat) (w e : Environment V) (type : ValueType) {l : Leaf}
    (hl : l.Names) (hw : l.IsOver W IsPlain) :
    e.marking W number w type (.value (inlinedName (l.text type) number)) = w type l := by
  have h : ∃ k : Leaf, k.Names ∧ k.IsOver W IsPlain ∧
      Leaf.value (inlinedName (l.text type) number) = .value (inlinedName (k.text type) number) :=
    ⟨l, hl, hw, rfl⟩
  obtain ⟨hnames, hover, hname⟩ := h.choose_spec
  have htext := (inlinedName_inj (Leaf.value.inj hname)).1
  rw [marking, dif_pos h, ← Leaf.text_inj hl hnames hw hover htext]

theorem marking_agreesOn (e : Environment V) (W : Vocabulary) (number used : Nat)
    (w : Environment V) : (e.marking W number w).AgreesOn (IsOlder number used) e := by
  intro type l hl
  refine dif_neg ?_
  rintro ⟨k, -, -, rfl⟩
  exact (hl _ rfl).not_inlined _ number le_rfl rfl

end Environment

/-! ## Expansion -/

namespace State

variable {V : Type}

/-- One state takes the place of another, with names made in between: it can be satisfied with
values for these just when the other is satisfied. -/
structure Expands (S : Setting) (I : Interpretation V) (W : Vocabulary)
    (next used next' used' : Nat) (s' s : SymbolicState) : Prop where
  next_le : next ≤ next'
  used_le : used ≤ used'
  fits (p : Predicate) : s'.Occurs p → p.Fits S W (IsOlder next' used')
  sound (e : Environment V) : s'.SatisfiedBy (I.Holds e) → s.SatisfiedBy (I.Holds e)
  attains (e : Environment V) : s.SatisfiedBy (I.Holds e) →
    ∃ e', e'.AgreesOn (IsOlder next used) e ∧ s'.SatisfiedBy (I.Holds e')

end State

namespace Inlining

variable {V : Type} {S : Setting} {I : Interpretation V} {W : Vocabulary} {number used used' : Nat}
  {info : MethodInfo} {method : Method} {body : SymbolicState} {target? : Option Term}
  {receiver : Term} {arguments : List Term} {entries : List (Term × Term)}
  {defining : List Predicate}

/-- How the names of a body change. -/
def callNames (number : Nat) (info : MethodInfo) (method : Method) (target? : Option Term)
    (entries : List (Term × Term)) : Renaming :=
  ⟨"inlined" ++ toString number,
    target?.toList.map (fun target => (Term.result info.result method, target)) ++ entries⟩

theorem mem_callNames {key stand : Term} :
    (key, stand) ∈ (callNames number info method target? entries).entries ↔
      (key = .result info.result method ∧ target? = some stand) ∨ (key, stand) ∈ entries := by
  rw [callNames, List.mem_append]
  refine or_congr_left ?_
  cases target? with
  | none => simp
  | some target => simp [eq_comm]

/-- The receiver, the parameters and the result of a body are handed over as they are declared. -/
theorem isOver_callNames
    (hbindings : Bindings W number used used' (formals info receiver arguments) entries defining)
    (hmethod : W.method method)
    (htarget : ∀ target, target? = some target → target.IsOver W (IsOlder number used) ∧
      target.passing = .ofType info.result) :
    (callNames number info method target? entries).IsOver W IsPlain
      (IsOlder (number + 1) used') where
  leaf hmem := by
    rcases mem_callNames.mp hmem with ⟨rfl, -⟩ | hmem
    · exact ⟨_, _, rfl, .result method, hmethod⟩
    · obtain ⟨actual, declared, hoperand, -⟩ := hbindings.binds hmem
      obtain ⟨l, hl, hnames, hover, -⟩ := leaf_of_mem_formals hoperand
      exact ⟨declared, l, hl, hnames, hover⟩
  isOver hmem := by
    rcases mem_callNames.mp hmem with ⟨-, htaken⟩ | hmem
    · exact (htarget _ htaken).1.mono fun _ hname =>
        hname.mono (Nat.le_succ number) hbindings.used_le
    · exact (hbindings.isOver hmem).mono fun _ hname => hname.mono (Nat.le_succ number) le_rfl
  passing hmem := by
    rcases mem_callNames.mp hmem with ⟨rfl, htaken⟩ | hmem
    · exact (htarget _ htaken).2
    · obtain ⟨actual, declared, hoperand, hpassing, -⟩ := hbindings.binds hmem
      obtain ⟨l, rfl, hnames, -⟩ := leaf_of_mem_formals (W := W) hoperand
      rw [hpassing]
      cases hnames <;> rfl
  suffixed type _ hl _ := isOlder_inlinedName _ (Nat.lt_succ_self number) used'

/-- Where the definitions hold, a body enters its call. -/
theorem enters_after {e : Environment V}
    (hbindings : Bindings W number used used' (formals info receiver arguments) entries defining)
    (hnames : (callNames number info method target? entries).IsOver W IsPlain
      (IsOlder (number + 1) used'))
    (hmethod : W.method method) (hdefining : ∀ p ∈ defining, I.Holds e p) :
    I.Enters info method (I.passed e receiver) (arguments.map (I.passed e))
      (target?.map (I.eval e)) (e.after I (callNames number info method target? entries).image) := by
  -- A formal gives way to what stands for its operand.
  have hbinds {formal actual : Term} {declared : ValueType}
      (hoperand : (formal, actual, declared) ∈ formals info receiver arguments) :
      ∃ l, formal = .leaf declared l ∧ I.Binds declared (I.passed e actual)
        (e.after I (callNames number info method target? entries).image declared l) := by
    obtain ⟨l, rfl, hl, hover, hresult⟩ := leaf_of_mem_formals (W := W) hoperand
    obtain ⟨stand, hstand⟩ := hbindings.covers hoperand
    refine ⟨l, rfl, ?_⟩
    rcases Renaming.image_cases hnames declared hl hover with hmem | ⟨hnone, -⟩
    · rcases mem_callNames.mp hmem with ⟨heq, -⟩ | hmem
      · exact absurd (Term.leaf.inj heq).2 (hresult method)
      · obtain ⟨actual', declared', hoperand', -, hbinds⟩ := hbindings.binds hmem
        obtain ⟨rfl, rfl⟩ := formals_unique hoperand hoperand'
        exact hbinds I e hdefining
    · exact absurd (mem_callNames.mpr (.inr hstand)) (hnone stand)
  refine ⟨fun hstatic => ?_, fun index actual declared hactual hdeclared => ?_, fun x hx => ?_⟩
  · obtain ⟨l, hl, hbound⟩ := hbinds (mem_formals.mpr (.inl ⟨hstatic, rfl, rfl, rfl⟩))
    cases hl
    exact hbound
  · rw [List.getElem?_map] at hactual
    obtain ⟨a, ha, rfl⟩ := Option.map_eq_some_iff.mp hactual
    obtain ⟨l, hl, hbound⟩ := hbinds (mem_formals.mpr (.inr ⟨index, ha, hdeclared, rfl⟩))
    cases hl
    exact hbound
  · obtain ⟨target, htarget, rfl⟩ := Option.map_eq_some_iff.mp hx
    rcases Renaming.image_cases hnames info.result (.result method) hmethod with
      hmem | ⟨hnone, -⟩
    · rcases mem_callNames.mp hmem with ⟨-, htaken⟩ | hmem
      · exact congrArg (I.eval e) (Option.some.inj (htaken.symm.trans htarget))
      · obtain ⟨actual, declared, hoperand, -⟩ := hbindings.binds hmem
        obtain ⟨l, hl, -, -, hresult⟩ := leaf_of_mem_formals (W := W) hoperand
        exact absurd (Term.leaf.inj hl).2.symm (hresult method)
    · exact absurd (mem_callNames.mpr (.inl ⟨rfl, htarget⟩)) (hnone target)

/-- The names of a body can be given the values they have where the body enters its call, and none
of the older ones changes. -/
theorem exists_entered {e w : Environment V}
    (hbindings : Bindings W number used used' (formals info receiver arguments) entries defining)
    (hnames : (callNames number info method target? entries).IsOver W IsPlain
      (IsOlder (number + 1) used'))
    (htarget : ∀ target, target? = some target → target.IsOver W (IsOlder number used))
    (henters : I.Enters info method (I.passed e receiver) (arguments.map (I.passed e))
      (target?.map (I.eval e)) w) :
    ∃ e', e'.AgreesOn (IsOlder number used) e ∧ (∀ p ∈ defining, I.Holds e' p) ∧
      (e'.after I (callNames number info method target? entries).image).AgreesOver W IsPlain w := by
  obtain ⟨e₁, hagrees, hholds, hstands⟩ := hbindings.attains I e w fun formal actual declared hmem => by
    rcases mem_formals.mp hmem with ⟨hstatic, rfl, rfl, rfl⟩ | ⟨index, hactual, hdeclared, rfl⟩
    · exact henters.receiver hstatic
    · exact henters.argument index _ declared (by simp [hactual]) hdeclared
  have hmarked (used : Nat) := e₁.marking_agreesOn W number used w
  have hold : (e₁.marking W number w).AgreesOn (IsOlder number used) e := (hmarked used).trans hagrees
  refine ⟨e₁.marking W number w, hold, fun p hp => ?_, fun type l hl hover => ?_⟩
  · exact (I.holds_congr (hbindings.defines hp).1 (hmarked used').over).mpr (hholds p hp)
  · rw [Environment.after]
    rcases Renaming.image_cases hnames type hl hover with hmem | ⟨-, himage⟩
    · rcases mem_callNames.mp hmem with ⟨heq, htaken⟩ | hmem
      · obtain ⟨rfl, rfl⟩ := Term.leaf.inj heq
        rw [I.eval_congr hold.over (htarget _ htaken)]
        exact (henters.result _ (congrArg (Option.map (I.eval e)) htaken)).symm
      · rw [I.eval_congr (hmarked used').over (hbindings.isOver hmem), hstands _ _ hmem,
          I.eval_names hl]
    · rw [himage]
      exact Environment.marking_marked number w e₁ type hl hover

/-- What takes the place of a call can be satisfied with values for the new names just when the call
may be made. -/
theorem expansion_expands (hfaithful : IsFaithful S I) (hinlines : S.Inlines method info body)
    (hbody : ∀ p, body.Occurs p → p.Fits S W IsPlain) {p : Predicate} {type : ValueType}
    (hcall : callOf? p = some (target?, .call type method receiver arguments))
    (hp : p.Fits S W (IsOlder number used)) :
    ∃ defining inlined used',
      (expansion ("inlined" ++ toString number) info method target? receiver arguments body).run
        ⟨used⟩ = ((defining, inlined), ⟨used'⟩) ∧
      State.Expands S I W number used (number + 1) used' (.chain (.basic defining) inlined)
        (.basic [p]) := by
  have hoperands := hp.isOver
  rw [Clause.IsOver, Clause.operands_of_callOf? hcall, Term.areOver_iff] at hoperands
  obtain ⟨hmethod, hreceiver, harguments⟩ := hoperands _
    (List.mem_append_right _ (List.mem_singleton_self _))
  rw [Term.areOver_iff] at harguments
  have htarget : ∀ target, target? = some target → target.IsOver W (IsOlder number used) :=
    fun target h => hoperands target (List.mem_append_left _ (Option.mem_toList.mpr h))
  have htyped := hp.isTyped hcall hinlines
  have hover (formal actual : Term) (declared : ValueType)
      (hmem : (formal, actual, declared) ∈ formals info receiver arguments) :
      actual.IsOver W (IsOlder number used) := by
    rcases mem_formals.mp hmem with ⟨-, -, rfl, -⟩ | ⟨index, hactual, -, -⟩
    · exact hreceiver
    · exact harguments actual (List.mem_of_getElem? hactual)
  have hsuits (formal actual : Term) (declared : ValueType)
      (hmem : (formal, actual, declared) ∈ formals info receiver arguments) :
      actual.passing.Suits declared := by
    rcases mem_formals.mp hmem with ⟨hstatic, -, rfl, rfl⟩ | ⟨index, hactual, hdeclared, -⟩
    · exact htyped.receiver hstatic
    · exact htyped.argument index actual declared hactual hdeclared
  obtain ⟨entries, defining, used', hrun, hbindings⟩ :=
    bindAll_bindings (formals info receiver arguments) used hover hsuits
  have hnames := isOver_callNames hbindings hmethod
    fun target h => ⟨htarget target h, htyped.target target h⟩
  have hbodyOver : ∀ p, body.Occurs p → p.IsOver W IsPlain := fun p hp => (hbody p hp).isOver
  have hrenders := Renaming.onState_renders hnames hbodyOver
  -- The renamed body is satisfied where the body is satisfied by what its names stand for.
  have hinlined (e : Environment V) :
      ((callNames number info method target? entries).onState body).SatisfiedBy (I.Holds e) ↔
        body.SatisfiedBy
          (I.Holds (e.after I (callNames number info method target? entries).image)) :=
    (hrenders.satisfiedBy I e).trans (State.satisfiedBy_congr fun p hp =>
      I.holds_substitute (Renaming.replaces hnames) (hbody p hp).isOver (hbody p hp).isProper)
  refine ⟨defining, (callNames number info method target? entries).onState body, used', ?_, ?_⟩
  · rw [expansion, StateT.run_bind, hrun]
    rfl
  refine ⟨Nat.le_succ number, hbindings.used_le, fun q hq => ?_, fun e hsat => ?_, fun e hsat => ?_⟩
  · cases hq with
    | first hq =>
      cases hq with
      | basic hmem =>
        obtain ⟨hover, hnone⟩ := hbindings.defines hmem
        exact .of_callOf?_eq_none (hover.mono fun _ hname => hname.mono (Nat.le_succ number) le_rfl)
          hnone
    | second hq =>
      rcases hrenders.occurs q hq with hq | ⟨q₀, hq₀, rfl⟩
      · exact (hbody q hq).mono fun _ hname => hname.isOlder _ _
      · exact (hbody q₀ hq₀).substitute (Renaming.replaces hnames)
  · rw [State.satisfiedBy_chain, State.satisfiedBy_basic, hinlined] at hsat
    have henters := enters_after hbindings hnames hmethod hsat.1
    rw [State.satisfiedBy_basic, List.forall_mem_singleton, I.holds_call e hcall]
    exact (hfaithful method info body hinlines _ _ _).mpr ⟨_, henters, hsat.2⟩
  · rw [State.satisfiedBy_basic, List.forall_mem_singleton, I.holds_call e hcall] at hsat
    obtain ⟨w, henters, hw⟩ := (hfaithful method info body hinlines _ _ _).mp hsat
    obtain ⟨e', hagrees, hdefining, hafter⟩ := exists_entered hbindings hnames htarget henters
    refine ⟨e', hagrees, ?_⟩
    rw [State.satisfiedBy_chain, State.satisfiedBy_basic, hinlined]
    exact ⟨hdefining, (State.satisfiedBy_congr fun p hp =>
      I.holds_congr (hbodyOver p hp) hafter).mpr hw⟩

end Inlining
end Concolic
