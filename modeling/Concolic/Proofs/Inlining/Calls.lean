import Concolic.Proofs.Inlining.Walk

/-!
# What inlined bodies call

A body that takes the place of a call calls what it called before. Renaming changes what the names
in it are, but not which methods it calls, and the definitions of its operands call nothing.

## Main statements

* `Renaming.onState_callsWithin` — renaming makes no calls.
* `Inlining.calls_of_expansion` — what takes the place of a call calls what the body calls.
-/

namespace Concolic

open Inlining

/-! ## Calls of a state -/

namespace State

variable {s s' t t' u : SymbolicState} {alternatives alternatives' : List SymbolicState}
  {method : Method} {p : Predicate} {parts : List Predicate}

/-- Some predicate of the state calls the method. -/
def CallsTo (s : SymbolicState) (method : Method) : Prop := ∃ p, s.Occurs p ∧ p.Calls method

theorem callsTo_basic_cons :
    (basic (p :: parts)).CallsTo method ↔ p.Calls method ∨ (basic parts).CallsTo method := by
  simp only [CallsTo, occurs_basic, List.mem_cons, or_and_right, exists_or, exists_eq_left]

theorem callsTo_chain : (chain s t).CallsTo method ↔ s.CallsTo method ∨ t.CallsTo method := by
  simp only [CallsTo, occurs_chain, or_and_right, exists_or]

theorem callsTo_choice :
    (choice alternatives).CallsTo method ↔ ∃ s ∈ alternatives, s.CallsTo method := by
  simp only [CallsTo, occurs_choice]
  constructor
  · rintro ⟨p, ⟨s, hmem, hp⟩, hcalls⟩
    exact ⟨s, hmem, p, hp, hcalls⟩
  · rintro ⟨s, hmem, p, hp, hcalls⟩
    exact ⟨p, ⟨s, hmem, hp⟩, hcalls⟩

theorem CallsTo.of_simplify (h : s.simplify.CallsTo method) : s.CallsTo method := by
  obtain ⟨p, hp, hcalls⟩ := h
  exact ⟨p, occurs_of_simplify hp, hcalls⟩

/-- The state is ordinary, and its predicates call what the other state calls. -/
structure CallsWithin (s' s : SymbolicState) : Prop where
  isOrdinary : s'.IsOrdinary
  callsTo (method : Method) : s'.CallsTo method → s.CallsTo method

namespace CallsWithin

theorem refl (hs : s.IsOrdinary) : s.CallsWithin s := ⟨hs, fun _ h => h⟩

theorem chain (hs : s'.CallsWithin s) (ht : t'.CallsWithin t) :
    (State.chain s' t').CallsWithin (State.chain s t) where
  isOrdinary p hp := (occurs_chain.mp hp).elim (hs.isOrdinary p) (ht.isOrdinary p)
  callsTo method h :=
    callsTo_chain.mpr ((callsTo_chain.mp h).imp (hs.callsTo method) (ht.callsTo method))

theorem choice (h : List.Forall₂ CallsWithin alternatives' alternatives) :
    (State.choice alternatives').CallsWithin (State.choice alternatives) where
  isOrdinary p hp := by
    obtain ⟨s', hmem', hp⟩ := occurs_choice.mp hp
    obtain ⟨s, -, hs⟩ := exists_of_forall₂ h s' hmem'
    exact hs.isOrdinary p hp
  callsTo method hcalls := by
    obtain ⟨s', hmem', hcalls⟩ := callsTo_choice.mp hcalls
    obtain ⟨s, hmem, hs⟩ := exists_of_forall₂ h s' hmem'
    exact callsTo_choice.mpr ⟨s, hmem, hs.callsTo method hcalls⟩

theorem simplify (h : s'.CallsWithin s) : s'.simplify.CallsWithin s where
  isOrdinary p hp := h.isOrdinary p (occurs_of_simplify hp)
  callsTo method hcalls := h.callsTo method hcalls.of_simplify

end CallsWithin
end State

/-! ## Renaming -/

theorem settle_cases {α : Type} [BEq α] (old new : α) :
    settle old new = old ∨ settle old new = new := ite_eq_or_eq ..

namespace Renaming

variable {r : Renaming}

/-- Every entry puts a term without functions in the place of a leaf. -/
structure IsFirstOrder (r : Renaming) : Prop where
  hasLeafKeys : r.HasLeafKeys
  firstOrder {key replacement : Term} : (key, replacement) ∈ r.entries →
    replacement.isFirstOrder = true

theorem IsFirstOrder.image (hr : r.IsFirstOrder) (type : ValueType) (l : Leaf) :
    (r.image type l).isFirstOrder = true := by
  rw [Renaming.image]
  cases hfind : r.find? (.leaf type l) with
  | none =>
    rw [Option.getD_none]
    split <;> rfl
  | some replacement =>
    obtain ⟨key, hentry, -⟩ := exists_entry hfind
    exact hr.firstOrder hentry

/-- A term is renamed to one that, if it is a call, calls the same method. -/
structure Keeps (t' t : Term) : Prop where
  firstOrder : t'.isFirstOrder = true
  call {type : ValueType} {method : Method} {receiver : Term} {arguments : List Term} :
    t = .call type method receiver arguments →
      ∃ receiver' arguments', t' = .call type method receiver' arguments'

theorem Keeps.refl {t : Term} (h : t.isFirstOrder = true) : Keeps t t := ⟨h, fun h => ⟨_, _, h⟩⟩

mutual

theorem exists_onTerm (hr : r.IsFirstOrder) :
    ∀ {t : Term}, t.isFirstOrder = true → ∃ t', r.rules.onTerm false t = pure t' ∧ Keeps t' t
  | .leaf type l, _ => by
    rw [Rules.onTerm, around_leaf]
    exact ⟨_, rfl, hr.image type l, nofun⟩
  | .unary op type a, h => by
    obtain ⟨a', ha, hkeeps⟩ := exists_onTerm hr (t := a) (by rwa [Term.isFirstOrder] at h)
    rw [Rules.onTerm, ha, pure_bind]
    split
    · exact ⟨_, around_compound hr.hasLeafKeys rfl rfl, .refl h⟩
    · refine ⟨_, around_compound hr.hasLeafKeys rfl rfl, ?_, nofun⟩
      rw [Term.isFirstOrder, hkeeps.firstOrder]
  | .binary op type a b, h => by
    have hoperands := h
    rw [Term.isFirstOrder, Bool.and_eq_true] at hoperands
    obtain ⟨a', ha, hkeepsa⟩ := exists_onTerm hr hoperands.1
    obtain ⟨b', hb, hkeepsb⟩ := exists_onTerm hr hoperands.2
    rw [Rules.onTerm, ha, hb, pure_bind, pure_bind]
    split
    · exact ⟨_, around_compound hr.hasLeafKeys rfl rfl, .refl h⟩
    · refine ⟨_, around_compound hr.hasLeafKeys rfl rfl, ?_, nofun⟩
      rw [Term.isFirstOrder, hkeepsa.firstOrder, hkeepsb.firstOrder, Bool.and_self]
  | .ternary op type a b c, h => by
    have hoperands := h
    rw [Term.isFirstOrder, Bool.and_eq_true, Bool.and_eq_true] at hoperands
    obtain ⟨a', ha, hkeepsa⟩ := exists_onTerm hr hoperands.1.1
    obtain ⟨b', hb, hkeepsb⟩ := exists_onTerm hr hoperands.1.2
    obtain ⟨c', hc, hkeepsc⟩ := exists_onTerm hr hoperands.2
    rw [Rules.onTerm, ha, hb, hc, pure_bind, pure_bind, pure_bind]
    split
    · exact ⟨_, around_compound hr.hasLeafKeys rfl rfl, .refl h⟩
    · refine ⟨_, around_compound hr.hasLeafKeys rfl rfl, ?_, nofun⟩
      rw [Term.isFirstOrder, hkeepsa.firstOrder, hkeepsb.firstOrder, hkeepsc.firstOrder,
        Bool.and_self, Bool.and_self]
  | .call type method receiver arguments, h => by
    have hoperands := h
    rw [Term.isFirstOrder, Bool.and_eq_true] at hoperands
    obtain ⟨receiver', hreceiver, hkeeps⟩ := exists_onTerm hr hoperands.1
    obtain ⟨arguments', harguments, hfirst⟩ := exists_onTerms hr hoperands.2
    rw [Rules.onTerm, hreceiver, harguments, pure_bind, pure_bind]
    split
    · exact ⟨_, around_compound hr.hasLeafKeys rfl rfl, .refl h⟩
    · refine ⟨_, around_compound hr.hasLeafKeys rfl rfl, ?_, fun heq => ?_⟩
      · rw [Term.isFirstOrder, hkeeps.firstOrder, hfirst, Bool.and_self]
      · obtain ⟨rfl, rfl, -⟩ := Term.call.inj heq
        exact ⟨_, _, rfl⟩
  | .lambda _ _ _, h => by cases h

theorem exists_onTerms (hr : r.IsFirstOrder) :
    ∀ {ts : List Term}, Term.areFirstOrder ts = true →
      ∃ ts', r.rules.onTerms false ts = pure ts' ∧ Term.areFirstOrder ts' = true
  | [], _ => by
    rw [Rules.onTerms]
    exact ⟨[], rfl, rfl⟩
  | t :: ts, h => by
    rw [Term.areFirstOrder, Bool.and_eq_true] at h
    obtain ⟨t', ht, hkeeps⟩ := exists_onTerm hr h.1
    obtain ⟨ts', hts, hfirst⟩ := exists_onTerms hr h.2
    rw [Rules.onTerms, ht, hts, pure_bind, pure_bind]
    refine ⟨_, rfl, ?_⟩
    rw [Term.areFirstOrder, hkeeps.firstOrder, hfirst, Bool.and_self]

end

/-- Renaming a term without functions has no effects. -/
theorem onTerm_keeps (hr : r.IsFirstOrder) {t : Term} (h : t.isFirstOrder = true) :
    r.rules.onTerm false t = pure (r.onTerm t) ∧ Keeps (r.onTerm t) t := by
  obtain ⟨t', ht, hkeeps⟩ := exists_onTerm hr h
  have hrun : r.onTerm t = t' := by
    rw [onTerm, Rules.reviseTerm, ht]
    rfl
  rw [hrun]
  exact ⟨ht, hkeeps⟩

/-- What a renamed predicate calls is a call, of the method that the predicate calls. -/
theorem exists_call_of_map (hr : r.IsFirstOrder) {p : Predicate} (hp : p.IsOrdinary)
    {target? : Option Term} {call : Term}
    (h : callOf? ⟨p.role, p.assertion.map r.onTerm, p.location⟩ = some (target?, call)) :
    ∃ type method receiver arguments,
      call = .call type method receiver arguments ∧ p.Calls method := by
  rw [Clause.callOf?_map] at h
  obtain ⟨⟨target₀?, call₀⟩, hcall, heq⟩ := Option.map_eq_some_iff.mp h
  obtain ⟨-, rfl⟩ := Prod.mk.inj heq
  obtain ⟨type, method, receiver, arguments, rfl⟩ := hp.isProper target₀? call₀ hcall
  have hfirst := Term.areFirstOrder_iff.mp hp.firstOrder
  rw [Clause.operands_of_callOf? (p := p) hcall] at hfirst
  obtain ⟨receiver', arguments', hkeeps⟩ := (onTerm_keeps hr
    (hfirst _ (List.mem_append_right _ (List.mem_singleton_self _)))).2.call rfl
  exact ⟨type, method, receiver', arguments', hkeeps, target₀?, type, receiver, arguments, hcall⟩

/-- A renamed predicate calls what the predicate calls. -/
theorem exists_onPredicate (hr : r.IsFirstOrder) {p : Predicate} (hp : p.IsOrdinary) :
    ∃ q, r.rules.onPredicate false p = pure (.keep q) ∧ q.IsOrdinary ∧
      ∀ method, q.Calls method → p.Calls method := by
  have hfirst := Term.areFirstOrder_iff.mp hp.firstOrder
  refine ⟨⟨p.role, settle p.assertion (p.assertion.map r.onTerm), p.location⟩, ?_, ?_⟩
  · rw [Rules.onPredicate, Rules.onAssertion_of_pure fun t ht => (onTerm_keeps hr (hfirst t ht)).1,
      pure_bind]
    rfl
  · rcases settle_cases p.assertion (p.assertion.map r.onTerm) with hsettle | hsettle
    · rw [hsettle]
      exact ⟨hp, fun _ h => h⟩
    · rw [hsettle]
      refine ⟨⟨fun target? call h => ?_, ?_⟩, fun method h => ?_⟩
      · obtain ⟨type, method, receiver, arguments, heq, -⟩ := exists_call_of_map hr hp h
        exact ⟨type, method, receiver, arguments, heq⟩
      · rw [Clause.operands, Assertion.operands_map, Term.areFirstOrder_iff, List.forall_mem_map]
        exact fun t ht => (onTerm_keeps hr (hfirst t ht)).2.firstOrder
      · obtain ⟨_, _, _, _, h⟩ := h
        obtain ⟨_, _, _, _, heq, hcalls⟩ := exists_call_of_map hr hp h
        rwa [(Term.call.inj heq).2.1]

theorem exists_onParts (hr : r.IsFirstOrder) {parts : List Predicate}
    (hparts : ∀ p ∈ parts, p.IsOrdinary) :
    ∃ parts', r.rules.onParts false parts = pure parts' ∧
      (State.basic parts').CallsWithin (.basic parts) := by
  induction parts with
  | nil =>
    rw [Rules.onParts]
    exact ⟨[], rfl, .refl fun p hp => nomatch State.occurs_basic.mp hp⟩
  | cons p parts ih =>
    rw [List.forall_mem_cons] at hparts
    obtain ⟨q, hq, hordinary, hcalls⟩ := exists_onPredicate hr hparts.1
    obtain ⟨parts', hrest, hwithin⟩ := ih hparts.2
    refine ⟨q :: parts', ?_, fun p' hp' => ?_, fun method h => ?_⟩
    · rw [Rules.onParts, hq, pure_bind]
      dsimp only
      rw [Rules.build, if_neg Bool.false_ne_true, pure_bind, hrest, pure_bind]
    · rcases List.mem_cons.mp (State.occurs_basic.mp hp') with rfl | hmem
      · exact hordinary
      · exact hwithin.isOrdinary p' (.basic hmem)
    · exact State.callsTo_basic_cons.mpr
        ((State.callsTo_basic_cons.mp h).imp (hcalls method) (hwithin.callsTo method))

theorem bringsAbout_callsWithin (hr : r.IsFirstOrder) :
    r.rules.BringsAbout Clause.IsOrdinary State.CallsWithin where
  basic {parts} hparts := by
    obtain ⟨parts', hrun, hwithin⟩ := exists_onParts hr hparts
    refine ⟨parts', hrun, ?_⟩
    rcases settle_cases parts parts' with hsettle | hsettle
    · rw [hsettle]
      exact .refl fun p hp => hparts p (State.occurs_basic.mp hp)
    · rw [hsettle]
      exact hwithin
  chain := .chain
  choice := .choice
  stay hs _ _ := .refl hs

/-- A renamed state calls what the state calls. -/
theorem onState_callsWithin (hr : r.IsFirstOrder) {s : SymbolicState} (hs : s.IsOrdinary) :
    (r.onState s).CallsWithin s := by
  obtain ⟨s', honState, hwithin⟩ := exists_onState_eq (bringsAbout_callsWithin hr) hs
  rw [honState]
  exact hwithin.simplify

end Renaming

/-! ## What takes the place of a call -/

namespace Inlining

variable {actual stand : Term} {declared : ValueType} {defining : List Predicate}
  {names names' : NameSupply} {entries : List (Term × Term)}

/-- The equality that defines a fresh value is ordinary and calls nothing. -/
theorem isOrdinary_equal {stand t : Term} (hstand : stand.isFirstOrder = true)
    (ht : t.isFirstOrder = true) : Clause.IsOrdinary ⟨.state, .equal stand t, {}⟩ :=
  ⟨nofun, by simp [Clause.operands, Assertion.operands, Term.areFirstOrder, hstand, ht]⟩

theorem firstOrder_of_bind (hactual : actual.isFirstOrder = true)
    (hrun : (bind actual declared).run names = ((stand, defining), names')) :
    stand.isFirstOrder = true ∧ ∀ p ∈ defining, p.IsOrdinary ∧ callOf? p = none := by
  rw [bind] at hrun
  split at hrun
  · cases hrun
    exact ⟨rfl, by simpa using ⟨isOrdinary_equal rfl rfl, rfl⟩⟩
  · split at hrun
    · cases hrun
      exact ⟨rfl, by simpa using ⟨isOrdinary_equal rfl hactual, rfl⟩⟩
    · cases hrun
      exact ⟨hactual, List.forall_mem_nil _⟩

theorem firstOrder_of_bindAll {operands : List (Term × Term × ValueType)}
    (hoperands : ∀ formal actual declared, (formal, actual, declared) ∈ operands →
      (∃ type l, formal = .leaf type l) ∧ actual.isFirstOrder = true)
    (hrun : (bindAll operands).run names = ((entries, defining), names')) :
    (∀ key replacement, (key, replacement) ∈ entries →
      (∃ type l, key = .leaf type l) ∧ replacement.isFirstOrder = true) ∧
    ∀ p ∈ defining, p.IsOrdinary ∧ callOf? p = none := by
  induction operands generalizing names entries defining names' with
  | nil =>
    cases hrun
    exact ⟨nofun, nofun⟩
  | cons operand rest ih =>
    obtain ⟨formal, actual, declared⟩ := operand
    obtain ⟨hleaf, hactual⟩ := hoperands _ _ _ (List.mem_cons_self ..)
    rcases hbind : (bind actual declared).run names with ⟨⟨stand, first⟩, between⟩
    rcases hrest : (bindAll rest).run between with ⟨⟨entries', definingRest⟩, last⟩
    obtain ⟨hstand, hfirst⟩ := firstOrder_of_bind hactual hbind
    obtain ⟨hentries, hdefining⟩ := ih
      (fun _ _ _ hmem => hoperands _ _ _ (List.mem_cons_of_mem _ hmem)) hrest
    have hrun' : (bindAll ((formal, actual, declared) :: rest)).run names =
        ((entries' ++ [(formal, stand)], first ++ definingRest), last) := by
      rw [run_bindAll_cons, hbind]
      dsimp only
      rw [hrest]
    obtain ⟨heq, rfl⟩ := Prod.mk.inj (hrun'.symm.trans hrun)
    obtain ⟨rfl, rfl⟩ := Prod.mk.inj heq
    refine ⟨fun key replacement hmem => ?_, fun p hmem => ?_⟩
    · rcases List.mem_append.mp hmem with hmem | hmem
      · exact hentries key replacement hmem
      · cases List.mem_singleton.mp hmem
        exact ⟨hleaf, hstand⟩
    · exact (List.mem_append.mp hmem).elim (hfirst p) (hdefining p)

/-- What takes the place of a call is ordinary and calls what the body calls. -/
theorem calls_of_expansion {p : Predicate} {target? : Option Term} {type : ValueType}
    {method : Method} {receiver : Term} {arguments : List Term} {info : MethodInfo}
    {body inlined : SymbolicState} {suffix : String}
    (hcall : callOf? p = some (target?, .call type method receiver arguments))
    (hp : p.IsOrdinary) (hbody : body.IsOrdinary)
    (hrun : (expansion suffix info method target? receiver arguments body).run names =
      ((defining, inlined), names')) :
    (State.chain (.basic defining) inlined).CallsWithin body := by
  have hoperands := Term.areFirstOrder_iff.mp hp.firstOrder
  rw [Clause.operands_of_callOf? hcall] at hoperands
  have hterms := hoperands _ (List.mem_append_right _ (List.mem_singleton_self _))
  rw [Term.isFirstOrder, Bool.and_eq_true, Term.areFirstOrder_iff] at hterms
  rcases hbind : (bindAll (formals info receiver arguments)).run names with
    ⟨⟨entries, defining'⟩, last⟩
  have hrun' : (expansion suffix info method target? receiver arguments body).run names =
      ((defining', (⟨suffix, (target?.toList.map fun target =>
        (Term.result info.result method, target)) ++ entries⟩ : Renaming).onState body), last) := by
    rw [expansion, StateT.run_bind, hbind]
    rfl
  obtain ⟨heq, rfl⟩ := Prod.mk.inj (hrun'.symm.trans hrun)
  obtain ⟨rfl, rfl⟩ := Prod.mk.inj heq
  obtain ⟨hentries, hdefining⟩ := firstOrder_of_bindAll (fun formal actual declared hmem => by
    rcases mem_formals.mp hmem with ⟨-, rfl, rfl, -⟩ | ⟨index, hactual, -, rfl⟩
    · exact ⟨⟨_, _, rfl⟩, hterms.1⟩
    · exact ⟨⟨_, _, rfl⟩, hterms.2 _ (List.mem_of_getElem? hactual)⟩) hbind
  have hall (key replacement : Term) (hmem : (key, replacement) ∈ (target?.toList.map fun target =>
      (Term.result info.result method, target)) ++ entries) :
      (∃ type l, key = .leaf type l) ∧ replacement.isFirstOrder = true := by
    rcases List.mem_append.mp hmem with hmem | hmem
    · obtain ⟨target, htarget, heq⟩ := List.mem_map.mp hmem
      cases heq
      exact ⟨⟨_, _, rfl⟩, hoperands _ (List.mem_append_left _ htarget)⟩
    · exact hentries key replacement hmem
  have hwithin := Renaming.onState_callsWithin
    (r := ⟨suffix, (target?.toList.map fun target =>
      (Term.result info.result method, target)) ++ entries⟩)
    ⟨fun key replacement hmem => (hall key replacement hmem).1, fun hmem => (hall _ _ hmem).2⟩ hbody
  refine ⟨fun q hq => ?_, fun called h => ?_⟩
  · rcases State.occurs_chain.mp hq with hq | hq
    · exact (hdefining q (State.occurs_basic.mp hq)).1
    · exact hwithin.isOrdinary q hq
  · rcases State.callsTo_chain.mp h with ⟨q, hq, _, _, _, _, hcalls⟩ | h
    · cases (hdefining q (State.occurs_basic.mp hq)).2.symm.trans hcalls
    · exact hwithin.callsTo called h

end Inlining
end Concolic
