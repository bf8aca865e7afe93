import Concolic.Proofs.Inlining.Calls
import Concolic.Proofs.Inlining.Rounds
import Concolic.Proofs.State.Sifting

/-!
# Inlining is complete

A round inlines every call in sight for which there is a body. The calls it leaves are those without
a body and those of the bodies it has put in, so chains of calls get shorter by one in a round, and
as many rounds as the longest chain is long leave no call that could be inlined. Further rounds then
change nothing, unless the program does not give the body of a call that is left: the next round
asks for it again, and fails.

## Main statements

* `Becomes.advances` — what a round inlines, and what it leaves.
* `rounds_complete` — enough rounds, and more than enough.
* `run_complete` — inlining is complete up to its depth.
-/

namespace Concolic

open Inlining

namespace Inlining

variable {S : Setting} {s t : SymbolicState}

/-! ## What a round leaves -/

section

variable {s' : SymbolicState} {round round₁ round₂ round' : Round}
  {names names₁ names₂ names' : NameSupply}

/-- What a round may leave where some methods were called: what it calls was called before and has
no body, or is called by a body that took the place of a call. -/
structure Setting.Leaves (S : Setting) (calls : Method → Prop) (p : Predicate) : Prop where
  isOrdinary : p.IsOrdinary
  called {method : Method} : p.Calls method → calls method ∧ ¬S.IsInlinable method ∨
    ∃ caller info body, calls caller ∧ S.Inlines caller info body ∧ body.CallsTo method

theorem Setting.Leaves.mono {calls calls' : Method → Prop} {p : Predicate} (h : S.Leaves calls p)
    (hcalls : ∀ method, calls method → calls' method) : S.Leaves calls' p where
  isOrdinary := h.isOrdinary
  called hp := (h.called hp).imp (.imp_left (hcalls _))
    fun ⟨caller, info, body, hcaller, h⟩ => ⟨caller, info, body, hcalls caller hcaller, h⟩

/-- How far a round gets over calls of some methods, and what it leaves. If nothing can be inlined
no names are used, and something remains the same. -/
structure Advances (S : Setting) (calls : Method → Prop) (round : Round) (names : NameSupply)
    (left : Predicate → Prop) (same : Prop) (round' : Round) (names' : NameSupply) : Prop where
  leaves (p : Predicate) : left p → S.Leaves calls p
  inlined_le : round.inlined ≤ round'.inlined
  inlined_lt : round.inlined < round'.inlined ↔ ∃ method, calls method ∧ S.IsInlinable method
  failure : round'.failure = none ↔ round.failure = none ∧
    ∀ method failure, calls method → ¬S.Refuses method failure
  still : (∀ method, calls method → ¬S.IsInlinable method) → names' = names ∧ same

namespace Advances

variable {calls calls₁ calls₂ : Method → Prop} {left left₁ left₂ : Predicate → Prop}
  {same same₁ same₂ : Prop}

theorem nothing (hcalls : ∀ method, ¬calls method) (hleft : ∀ p, ¬left p) (hsame : same) :
    Advances S calls round names left same round names where
  leaves p hp := absurd hp (hleft p)
  inlined_le := le_rfl
  inlined_lt := iff_of_false (lt_irrefl _) fun ⟨method, hmethod, _⟩ => hcalls method hmethod
  failure := (and_iff_left fun method _ hmethod => absurd hmethod (hcalls method)).symm
  still _ := ⟨rfl, hsame⟩

theorem congr (h : Advances S calls₁ round names left₁ same₁ round' names')
    (hcalls : ∀ method, calls method ↔ calls₁ method) (hleft : ∀ p, left p → left₁ p)
    (hsame : same₁ → same) : Advances S calls round names left same round' names' where
  leaves p hp := (h.leaves p (hleft p hp)).mono fun method => (hcalls method).mpr
  inlined_le := h.inlined_le
  inlined_lt := by simp only [hcalls, h.inlined_lt]
  failure := by simp only [hcalls, h.failure]
  still hstill :=
    (h.still fun method hmethod => hstill method ((hcalls method).mpr hmethod)).imp_right hsame

/-- One thing after another. -/
theorem trans (h : Advances S calls₁ round names left₁ same₁ round₁ names₁)
    (k : Advances S calls₂ round₁ names₁ left₂ same₂ round₂ names₂)
    (hcalls : ∀ method, calls method ↔ calls₁ method ∨ calls₂ method)
    (hleft : ∀ p, left p → left₁ p ∨ left₂ p) (hsame : same₁ → same₂ → same) :
    Advances S calls round names left same round₂ names₂ where
  leaves p hp := by
    rcases hleft p hp with hp | hp
    · exact (h.leaves p hp).mono fun method hmethod => (hcalls method).mpr (.inl hmethod)
    · exact (k.leaves p hp).mono fun method hmethod => (hcalls method).mpr (.inr hmethod)
  inlined_le := h.inlined_le.trans k.inlined_le
  inlined_lt := by
    have hfirst := h.inlined_le
    have hsecond := k.inlined_le
    simp only [hcalls, or_and_right, exists_or, ← h.inlined_lt, ← k.inlined_lt]
    omega
  failure := by
    simp only [k.failure, h.failure, hcalls, or_imp, forall_and, and_assoc]
  still hstill := by
    obtain ⟨hnames₁, hsame₁⟩ := h.still fun method hmethod =>
      hstill method ((hcalls method).mpr (.inl hmethod))
    obtain ⟨hnames₂, hsame₂⟩ := k.still fun method hmethod =>
      hstill method ((hcalls method).mpr (.inr hmethod))
    exact ⟨hnames₂.trans hnames₁, hsame hsame₁ hsame₂⟩

end Advances

/-- A call is inlined if there is a body for it. -/
theorem Yields.advances (hbodies : ∀ method info body, S.Inlines method info body → body.IsOrdinary)
    {p : Predicate} (hp : p.IsOrdinary) (h : Yields S p round names s' round' names') :
    Advances S p.Calls round names s'.Occurs (s'.items = (State.basic [p]).items) round'
      names' := by
  have hkept (hcalls : ∀ method, p.Calls method → ¬S.IsInlinable method) (q : Predicate)
      (hq : (State.basic [p]).Occurs q) : S.Leaves p.Calls q := by
    obtain rfl := State.occurs_singleton.mp hq
    exact ⟨hp, fun h => .inl ⟨h, hcalls _ h⟩⟩
  cases h with
  | kept hnot =>
    refine ⟨hkept fun method h => (hnot method h).1, le_rfl, iff_of_false (lt_irrefl _) ?_, ?_,
      fun _ => ⟨rfl, rfl⟩⟩
    · rintro ⟨method, hcalls, hinlinable⟩
      exact (hnot method hcalls).1 hinlinable
    · exact (and_iff_left fun method failure hcalls => (hnot method hcalls).2 failure).symm
  | @refused method failure hcalls hrefuses =>
    have hnot (method' : Method) (hcalls' : p.Calls method') : ¬S.IsInlinable method' := by
      rintro ⟨info, body, hinlines⟩
      obtain rfl := hcalls.unique hcalls'
      exact hinlines.not_refuses hrefuses
    refine ⟨hkept hnot, le_rfl, iff_of_false (lt_irrefl _) ?_, iff_of_false ?_ ?_,
      fun _ => ⟨rfl, rfl⟩⟩
    · rintro ⟨method', hcalls', hinlinable⟩
      exact hnot method' hcalls' hinlinable
    · simp
    · exact fun h => h.2 method failure hcalls hrefuses
  | @inlined target? type method receiver arguments info body _ _ _ hcall hinlines hrun =>
    have hcalls : p.Calls method := ⟨target?, type, receiver, arguments, hcall⟩
    have hinlinable : S.IsInlinable method := ⟨info, body, hinlines⟩
    have hwithin := calls_of_expansion hcall hp (hbodies _ _ _ hinlines) hrun
    refine ⟨fun q hq => ⟨hwithin.isOrdinary q hq, fun {called} h => .inr ?_⟩, Nat.le_succ _,
      iff_of_true (Nat.lt_succ_self _) ⟨method, hcalls, hinlinable⟩,
      (and_iff_left fun method' failure hcalls' => ?_).symm,
      fun hstill => absurd hinlinable (hstill method hcalls)⟩
    · exact ⟨method, info, body, hcalls, hinlines, hwithin.callsTo called ⟨q, hq, h⟩⟩
    · obtain rfl := hcalls.unique hcalls'
      exact hinlines.not_refuses

mutual

/-- Every call of a state is inlined if there is a body for it. -/
theorem Becomes.advances
    (hbodies : ∀ method info body, S.Inlines method info body → body.IsOrdinary) :
    ∀ {s s' : SymbolicState} {round round' : Round} {names names' : NameSupply},
      Becomes S s round names s' round' names' → s.IsOrdinary →
      Advances S s.CallsTo round names s'.Occurs (s'.items = s.items) round' names'
  | _, _, _, _, _, _, .nil, _ =>
    .nothing (fun _ ⟨_, hp, _⟩ => nomatch State.occurs_basic.mp hp)
      (fun _ hp => nomatch State.occurs_basic.mp hp) rfl
  | .basic (p :: parts), .chain s' t', _, _, _, _, .cons hyields hrest, hs =>
    (hyields.advances hbodies (hs p (.basic (List.mem_cons_self ..)))).trans
      (hrest.advances hbodies fun q hq =>
        hs q (.basic (List.mem_cons_of_mem _ (State.occurs_basic.mp hq))))
      (fun _ => State.callsTo_basic_cons) (fun _ => State.occurs_chain.mp)
      fun hfirst hsecond => by rw [State.items_chain, hfirst, hsecond]; simp
  | .chain s t, .chain s' t', _, _, _, _, .chain hbecomes hbecomest, hs =>
    (hbecomes.advances hbodies fun p hp => hs p (.first hp)).trans
      (hbecomest.advances hbodies fun p hp => hs p (.second hp))
      (fun _ => State.callsTo_chain) (fun _ => State.occurs_chain.mp)
      fun hfirst hsecond => by rw [State.items_chain, hfirst, hsecond, State.items_chain]
  | .choice alternatives, .choice alternatives', _, _, _, _, .choice hall, hs =>
    (hall.advances hbodies fun s hmem p hp => hs p (.choice hmem hp)).congr
      (fun _ => State.callsTo_choice) (fun _ => State.occurs_choice.mp)
      fun hsame => by rw [State.items, hsame, ← State.items]
  | _, _, _, _, _, _, .regroup hbecomes hregroups, hs =>
    (hbecomes.advances hbodies hs).congr (fun _ => Iff.rfl) hregroups.occurs
      hregroups.items.trans

theorem BecomeAll.advances
    (hbodies : ∀ method info body, S.Inlines method info body → body.IsOrdinary) :
    ∀ {alternatives alternatives' : List SymbolicState} {round round' : Round}
      {names names' : NameSupply},
      BecomeAll S alternatives round names alternatives' round' names' →
      (∀ s ∈ alternatives, s.IsOrdinary) →
      Advances S (fun method => ∃ s ∈ alternatives, s.CallsTo method) round names
        (fun p => ∃ s ∈ alternatives', s.Occurs p)
        (State.itemsOfAll alternatives' = State.itemsOfAll alternatives) round' names'
  | _, _, _, _, _, _, .nil, _ => .nothing (by simp) (by simp) rfl
  | s :: rest, s' :: rest', _, _, _, _, .cons hbecomes hrest, hall =>
    (hbecomes.advances hbodies (List.forall_mem_cons.mp hall).1).trans
      (hrest.advances hbodies (List.forall_mem_cons.mp hall).2)
      (fun _ => List.exists_mem_cons_iff ..) (fun _ => (List.exists_mem_cons_iff ..).mp)
      fun hfirst hsecond => by rw [State.itemsOfAll, hfirst, hsecond, State.itemsOfAll]

end

end

/-- What a round comes to. -/
theorem round_advances
    (hbodies : ∀ method info body, S.Inlines method info body → body.IsOrdinary)
    (hs : s.IsOrdinary) (next : Nat) (names : NameSupply) :
    ∃ (t : SymbolicState) (progress : Round) (names' : NameSupply), (round S next s).run names =
        ((progress.failure.elim (.ok t.simplify) .error, progress), names') ∧
      Advances S s.CallsTo { next } names t.Occurs (t.items = s.items) progress names' := by
  obtain ⟨t, progress, names', hbecomes, hrun⟩ := exists_round hs next names
  exact ⟨t, progress, names', hrun, hbecomes.advances hbodies hs⟩

/-! ## Chains of calls -/

/-- The methods are called one by the other: the first by the state, and each of the others by the
body that takes the place of a call of the one in front of it. -/
inductive Setting.CallChain (S : Setting) : SymbolicState → List Method → Prop
  | nil (s : SymbolicState) : CallChain S s []
  | cons {s : SymbolicState} {method : Method} {info : MethodInfo} {body : SymbolicState}
      {rest : List Method} : s.CallsTo method → S.Inlines method info body →
      CallChain S body rest → CallChain S s (method :: rest)

/-- No call of the state is replaced by a body any more. -/
def Setting.IsInlined (S : Setting) (s : SymbolicState) : Prop :=
  ∀ method, s.CallsTo method → ¬S.IsInlinable method

/-- The state calls a method whose body the program does not give. -/
def Setting.IsRefused (S : Setting) (s : SymbolicState) : Prop :=
  ∃ method failure, s.CallsTo method ∧ S.Refuses method failure

/-- A call that can be inlined is a chain. -/
theorem isInlined_of_chains (hchains : ∀ methods, S.CallChain s methods → methods.length ≤ 0) :
    S.IsInlined s := by
  rintro method hcalls ⟨info, body, hinlines⟩
  exact absurd (hchains [method] (.cons hcalls hinlines (.nil body))) (by simp)

/-- A chain that is left after a round has been the end of one that is longer by a call. -/
theorem exists_callChain_cons (hleaves : ∀ p, t.Occurs p → S.Leaves s.CallsTo p)
    {methods : List Method} (h : S.CallChain t methods) (hmethods : methods ≠ []) :
    ∃ method, S.CallChain s (method :: methods) := by
  cases h with
  | nil => exact absurd rfl hmethods
  | cons hcalls hinlines hrest =>
    obtain ⟨p, hp, hcalls⟩ := hcalls
    rcases (hleaves p hp).called hcalls with ⟨-, hnot⟩ | ⟨caller, _, _, hcaller, hbody, hcalled⟩
    · exact absurd ⟨_, _, hinlines⟩ hnot
    · exact ⟨caller, .cons hcaller hbody (.cons hcalled hinlines hrest)⟩

theorem length_le_of_leaves (hleaves : ∀ p, t.Occurs p → S.Leaves s.CallsTo p) {depth : Nat}
    (hchains : ∀ methods, S.CallChain s methods → methods.length ≤ depth + 1)
    (methods : List Method) (h : S.CallChain t methods) : methods.length ≤ depth := by
  by_cases hmethods : methods = []
  · rw [hmethods]
    exact Nat.zero_le _
  · obtain ⟨method, hchain⟩ := exists_callChain_cons hleaves h hmethods
    exact Nat.le_of_succ_le_succ (hchains _ hchain)

theorem length_le_zero (hinlined : S.IsInlined s) (methods : List Method)
    (h : S.CallChain s methods) : methods.length ≤ 0 := by
  cases h with
  | nil => exact le_rfl
  | cons hcalls hinlines => exact absurd ⟨_, _, hinlines⟩ (hinlined _ hcalls)

/-- Chains are longer by a call than those of the bodies of what is called. -/
theorem length_le_succ {depth : Nat}
    (hbodies : ∀ method info body, s.CallsTo method → S.Inlines method info body →
      ∀ methods, S.CallChain body methods → methods.length ≤ depth)
    (methods : List Method) (h : S.CallChain s methods) : methods.length ≤ depth + 1 := by
  cases h with
  | nil => exact Nat.zero_le _
  | cons hcalls hinlines hrest =>
    exact Nat.succ_le_succ (hbodies _ _ _ hcalls hinlines _ hrest)

/-! ## Enough rounds -/

/-- Where nothing can be inlined, the first round is the last one: it fails if a body is refused,
and simplifies the state else. -/
theorem rounds_of_isInlined
    (hbodies : ∀ method info body, S.Inlines method info body → body.IsOrdinary)
    (hs : s.IsOrdinary) (hinlined : S.IsInlined s) (next : Nat) (names : NameSupply) :
    (S.IsRefused s ∧ ∃ failure, ∀ depth,
      (rounds S (depth + 1) next s).run names = (.error failure, names)) ∨
    ¬S.IsRefused s ∧ ∃ t : SymbolicState, t.simplify.CallsWithin s ∧
      (t.simplify == s.simplify) = true ∧
      ∀ depth, (rounds S (depth + 1) next s).run names = (.ok t.simplify, names) := by
  obtain ⟨t, progress, names', hround, hadvances⟩ := round_advances hbodies hs next names
  obtain ⟨rfl, hitems⟩ := hadvances.still hinlined
  rcases hfailure : progress.failure with _ | failure
  · rw [hfailure] at hround
    have hnot := (hadvances.failure.mp hfailure).2
    have hdone : progress.inlined = 0 := by
      by_contra hinlines
      obtain ⟨method, hcalls, hinlinable⟩ := hadvances.inlined_lt.mp (Nat.pos_of_ne_zero hinlines)
      exact hinlined method hcalls hinlinable
    have hwithin : t.CallsWithin s := by
      refine ⟨fun p hp => (hadvances.leaves p hp).isOrdinary, fun method ⟨p, hp, hcalls⟩ => ?_⟩
      rcases (hadvances.leaves p hp).called hcalls with ⟨h, -⟩ | ⟨caller, info, body, hcaller, h, -⟩
      · exact h
      · exact absurd ⟨info, body, h⟩ (hinlined caller hcaller)
    refine .inr ⟨fun ⟨method, failure, hcalls, hrefuses⟩ => hnot method failure hcalls hrefuses,
      t, hwithin.simplify, State.simplify_congr (State.beq_of_items_eq hitems), fun depth => ?_⟩
    rw [rounds_of_ok hround, if_pos hdone]
  · rw [hfailure] at hround
    refine .inl ⟨?_, failure, rounds_of_error hround⟩
    by_contra hnot
    have hnone := hadvances.failure.mpr
      ⟨rfl, fun method failure hcalls hrefuses => hnot ⟨method, failure, hcalls, hrefuses⟩⟩
    cases hfailure.symm.trans hnone

/-- So many rounds inline all there is to inline, and more of them make no difference. -/
structure Completes (S : Setting) (depth next : Nat) (names : NameSupply) (s : SymbolicState) :
    Prop where
  exists_ok : S.IsReadable → ∃ s', ((rounds S depth next s).run names).1 = .ok s'
  /-- A failure comes up again. -/
  fails {failure : Failure} {names' : NameSupply} :
    (rounds S depth next s).run names = (.error failure, names') →
    ∀ deeper, depth ≤ deeper → (rounds S deeper next s).run names = (.error failure, names')
  isInlined {s' : SymbolicState} {names' : NameSupply} :
    (rounds S depth next s).run names = (.ok s', names') → S.IsInlined s'
  simplified {s' : SymbolicState} {names' : NameSupply} :
    (rounds S depth next s).run names = (.ok s', names') → depth ≠ 0 → s'.simplify = s'
  /-- Another round asks again for the bodies of the calls that are left. -/
  again {s' : SymbolicState} {names' : NameSupply} :
    (rounds S depth next s).run names = (.ok s', names') → ∀ deeper, depth < deeper →
      (S.IsRefused s' ∧ ∃ failure, ((rounds S deeper next s).run names).1 = .error failure) ∨
      ¬S.IsRefused s' ∧ ∃ s'', (rounds S deeper next s).run names = (.ok s'', names') ∧
        (s'' == s'.simplify) = true

namespace Completes

variable {next : Nat} {names names' : NameSupply}

/-- Where the first round decides, more rounds come to the same. -/
theorem of_first {outcome : Except Failure SymbolicState}
    (hrun : ∀ depth, (rounds S (depth + 1) next s).run names = (outcome, names'))
    (hok : S.IsReadable → ∃ s', outcome = .ok s')
    (hleft : ∀ s', outcome = .ok s' → S.IsInlined s' ∧ s'.simplify = s' ∧ ¬S.IsRefused s')
    (depth : Nat) : Completes S (depth + 1) next names s := by
  have hdeep (deeper : Nat) (h : depth + 1 ≤ deeper) :
      (rounds S deeper next s).run names = (outcome, names') := by
    cases deeper with
    | zero => exact absurd h (Nat.not_succ_le_zero depth)
    | succ deeper => exact hrun deeper
  have hdepth {result : Except Failure SymbolicState} {names'' : NameSupply}
      (h : (rounds S (depth + 1) next s).run names = (result, names'')) :
      outcome = result ∧ names' = names'' := Prod.mk.inj ((hrun depth).symm.trans h)
  refine ⟨fun hreadable => ?_, fun h deeper hdeeper => ?_, fun h => ?_, fun h _ => ?_,
    fun {s'} _ h deeper hdeeper => .inr ?_⟩
  · rw [hrun depth]
    exact hok hreadable
  · obtain ⟨rfl, rfl⟩ := hdepth h
    exact hdeep deeper hdeeper
  · exact (hleft _ (hdepth h).1).1
  · exact (hleft _ (hdepth h).1).2.1
  · obtain ⟨rfl, rfl⟩ := hdepth h
    obtain ⟨-, hsimplified, hnot⟩ := hleft s' rfl
    refine ⟨hnot, s', hdeep deeper hdeeper.le, ?_⟩
    rw [hsimplified]
    exact BEq.rfl

/-- No rounds at all. -/
theorem zero (hbodies : ∀ method info body, S.Inlines method info body → body.IsOrdinary)
    (hs : s.IsOrdinary) (hinlined : S.IsInlined s) (next : Nat) (names : NameSupply) :
    Completes S 0 next names s := by
  have hrounds : (rounds S 0 next s).run names = (.ok s, names) := rfl
  refine ⟨fun _ => ⟨s, rfl⟩, fun h => ?_, fun h => ?_, fun _ h => absurd rfl h,
    fun h deeper hdeeper => ?_⟩
  all_goals cases hrounds.symm.trans h
  · exact hinlined
  · obtain ⟨deeper, rfl⟩ := Nat.exists_eq_add_one_of_ne_zero (Nat.ne_of_gt hdeeper)
    refine (rounds_of_isInlined hbodies hs hinlined next names).imp ?_ ?_
    · rintro ⟨hrefused, failure, hfails⟩
      exact ⟨hrefused, failure, congrArg Prod.fst (hfails deeper)⟩
    · rintro ⟨hnot, t, -, hsame, hrun⟩
      exact ⟨hnot, t.simplify, hrun deeper, hsame⟩

/-- A round in front of others. -/
theorem succ {depth next' : Nat} {names₁ : NameSupply}
    (h : Completes S depth next' names₁ t.simplify)
    (hrun : ∀ depth, (rounds S (depth + 1) next s).run names =
      (rounds S depth next' t.simplify).run names₁) :
    Completes S (depth + 1) next names s := by
  refine ⟨fun hreadable => ?_, fun hfails deeper hdeeper => ?_, fun hok => ?_, fun hok _ => ?_,
    fun {s'} _ hok deeper hdeeper => ?_⟩
  · rw [hrun]
    exact h.exists_ok hreadable
  · cases deeper with
    | zero => exact absurd hdeeper (Nat.not_succ_le_zero depth)
    | succ deeper =>
      rw [hrun] at hfails ⊢
      exact h.fails hfails deeper (Nat.le_of_succ_le_succ hdeeper)
  · rw [hrun] at hok
    exact h.isInlined hok
  · rw [hrun] at hok
    by_cases hdepth : depth = 0
    · subst hdepth
      obtain ⟨hok, -⟩ := Prod.mk.inj hok
      cases hok
      exact State.simplify_simplify t
    · exact h.simplified hok hdepth
  · cases deeper with
    | zero => exact absurd hdeeper (Nat.not_lt_zero _)
    | succ deeper =>
      rw [hrun] at hok ⊢
      exact h.again hok deeper (Nat.lt_of_succ_lt_succ hdeeper)

end Completes

/-- As many rounds as the longest chain of calls is long are enough. -/
theorem rounds_complete
    (hbodies : ∀ method info body, S.Inlines method info body → body.IsOrdinary) (depth : Nat)
    (hs : s.IsOrdinary) (hchains : ∀ methods, S.CallChain s methods → methods.length ≤ depth)
    (next : Nat) (names : NameSupply) : Completes S depth next names s := by
  induction depth generalizing s next names with
  | zero => exact .zero hbodies hs (isInlined_of_chains hchains) next names
  | succ depth ih =>
    by_cases hinlined : S.IsInlined s
    · -- The first round is the last one.
      rcases rounds_of_isInlined hbodies hs hinlined next names with
        ⟨⟨method, failure, -, hrefuses⟩, failure', hrun⟩ | ⟨hnot, t, hwithin, -, hrun⟩
      · exact .of_first hrun (fun h => absurd hrefuses (h.not_refuses method failure))
          (fun _ h => nomatch h) depth
      · refine .of_first hrun (fun _ => ⟨t.simplify, rfl⟩) (fun s' h => ?_) depth
        cases h
        refine ⟨fun method hcalls => hinlined method (hwithin.callsTo method hcalls),
          State.simplify_simplify t, fun ⟨method, failure, hcalls, hrefuses⟩ => ?_⟩
        exact hnot ⟨method, failure, hwithin.callsTo method hcalls, hrefuses⟩
    · obtain ⟨t, progress, names₁, hround, hadvances⟩ := round_advances hbodies hs next names
      rcases hfailure : progress.failure with _ | failure
      · rw [hfailure] at hround
        have hmore : progress.inlined ≠ 0 := by
          refine Nat.ne_of_gt (hadvances.inlined_lt.mpr ?_)
          by_contra hnone
          exact hinlined fun method hcalls h => hnone ⟨method, hcalls, h⟩
        have hleaves (p : Predicate) (hp : t.simplify.Occurs p) : S.Leaves s.CallsTo p :=
          hadvances.leaves p (State.occurs_of_simplify hp)
        exact (ih (fun p hp => (hleaves p hp).isOrdinary) (length_le_of_leaves hleaves hchains)
          progress.next names₁).succ fun depth => by rw [rounds_of_ok hround, if_neg hmore]
      · rw [hfailure] at hround
        refine .of_first (rounds_of_error hround) (fun hreadable => ?_) (fun _ h => nomatch h) depth
        have hnone := hadvances.failure.mpr
          ⟨rfl, fun method failure _ => hreadable.not_refuses method failure⟩
        cases hfailure.symm.trans hnone

/-- **Inlining is complete up to its depth.** Let no functions stand in a state and in the bodies
that are inlined, let what their call predicates call be calls, and let no chain of calls that can
be inlined be longer than the depth. Then inlining fails only where a body cannot be read, and a
failure does not depend on the depth. What it gives calls nothing that could be inlined, and if the
program refuses no body of a call that is left, every greater depth gives the same, but for what
simplifying changes where the depth is zero. -/
theorem run_complete
    (hbodies : ∀ method info body, S.Inlines method info body → body.IsOrdinary)
    (hs : s.IsOrdinary) (depth : Nat)
    (hchains : ∀ methods, S.CallChain s methods → methods.length ≤ depth) (names : NameSupply) :
    (S.IsReadable → ∃ s', ((run S depth s).run names).1 = .ok s') ∧
    (∀ failure names', (run S depth s).run names = (.error failure, names') →
      ∀ deeper, depth ≤ deeper → (run S deeper s).run names = (.error failure, names')) ∧
    ∀ s' names', (run S depth s).run names = (.ok s', names') →
      (∀ method, s'.CallsTo method → ¬S.IsInlinable method) ∧
      ∀ deeper, depth < deeper →
        (S.IsRefused s' ∧ ∃ failure, ((run S deeper s).run names).1 = .error failure) ∨
        ¬S.IsRefused s' ∧ ∃ s'', (run S deeper s).run names = (.ok s'', names') ∧
          (s'' == if depth = 0 then s'.simplify else s') = true := by
  have hcomplete := rounds_complete hbodies depth hs hchains 0 names
  refine ⟨hcomplete.exists_ok, fun failure names' h => hcomplete.fails h, fun s' names' h =>
    ⟨hcomplete.isInlined h, fun deeper hdeeper => ?_⟩⟩
  have hresult : (if depth = 0 then s'.simplify else s') = s'.simplify := by
    split
    · rfl
    · next hdepth => exact (hcomplete.simplified h hdepth).symm
  rw [hresult]
  exact hcomplete.again h deeper hdeeper

end Inlining

/-!
## A workshop, complete

What is ordered has something made, and what is made is checked: two rounds are enough.
-/

namespace Workshop

theorem isOrdinary_of_inlines (method : Method) (info : MethodInfo) (body : SymbolicState)
    (h : setting.Inlines method info body) : body.IsOrdinary :=
  fun p hp => (bodies_fit method info body h p hp).isOrdinary

theorem isOrdinary_order : order.IsOrdinary := fun p hp => (order_fits p hp).isOrdinary

theorem isInlined_checkBody : setting.IsInlined checkBody := by
  rintro method ⟨p, hp, _, _, _, _, hcalls⟩
  obtain rfl := eq_of_occurs hp
  cases hcalls

/-- A check is the end of a chain. -/
theorem length_le_of_calls_check {s : SymbolicState}
    (hs : ∀ method, s.CallsTo method → method = check) (methods : List Method)
    (h : setting.CallChain s methods) : methods.length ≤ 1 := by
  refine length_le_succ (fun method info body hcalls hinlines => length_le_zero ?_) methods h
  obtain rfl := hs method hcalls
  obtain ⟨hmethod, hstates⟩ := states_of_inlines hinlines
  cases hstates with
  | check => exact isInlined_checkBody
  | make | repair => exact absurd hmethod (by decide)

theorem length_le_of_order (methods : List Method) (h : setting.CallChain order methods) :
    methods.length ≤ 2 := by
  refine length_le_succ (fun method info body hcalls hinlines =>
    length_le_of_calls_check fun method' hcalls' => ?_) methods h
  obtain ⟨rfl, hstates⟩ := states_of_inlines hinlines
  obtain ⟨p', hp', hcalls'⟩ := hcalls'
  cases hstates with
  | check =>
    obtain rfl := eq_of_occurs hp'
    obtain ⟨_, _, _, _, hcalls'⟩ := hcalls'
    cases hcalls'
  | make | repair =>
    obtain rfl := eq_of_occurs hp'
    exact hcalls'.unique ⟨_, _, _, _, rfl⟩

/-- Two rounds deliver what is ordered, and more of them deliver the same. -/
theorem order_delivered :
    (∀ method info body, setting.Inlines method info body → body.IsOrdinary) ∧
    order.IsOrdinary ∧
    (∀ methods, setting.CallChain order methods → methods.length ≤ 2) ∧
    (run setting 2 order).run ⟨0⟩ = (.ok delivery, ⟨1⟩) ∧
    (∀ method, delivery.CallsTo method → ¬setting.IsInlinable method) ∧
    ∀ deeper, 2 < deeper → ∃ s', (run setting deeper order).run ⟨0⟩ = (.ok s', ⟨1⟩) ∧
      (s' == delivery) = true := by
  obtain ⟨-, -, hcomplete⟩ :=
    run_complete isOrdinary_of_inlines isOrdinary_order 2 length_le_of_order ⟨0⟩
  obtain ⟨hinlined, hdeeper⟩ := hcomplete delivery ⟨1⟩ rfl
  refine ⟨isOrdinary_of_inlines, isOrdinary_order, length_le_of_order, rfl, hinlined,
    fun deeper hlt => ?_⟩
  rcases hdeeper deeper hlt with ⟨⟨method, failure, -, hrefuses⟩, -⟩ | ⟨-, h⟩
  · exact absurd hrefuses (isReadable.not_refuses method failure)
  · exact h

end Workshop

/-!
## A switchboard

One method calls what it is handed, another one calls outside, where no body is given.
-/

/-- A body that a program gives is in one of the entries of its table. -/
theorem Program.Table.exists_entry_of_body? {t : Program.Table} {method : Method}
    {s : SymbolicState} (h : t.toProgram.body? method = .ok (some s)) :
    ∃ e ∈ t.methods, e.body = .known s := by
  have hbody : t.bodyEntry method = .known s := by
    cases hentry : t.bodyEntry method with
    | absent | refused => simp [toProgram, hentry] at h
    | known s' => simpa [toProgram, hentry] using h
  rw [bodyEntry, Option.getD_eq_iff] at hbody
  obtain ⟨e, hmem, he⟩ := List.exists_of_findSome?_eq_some
    (hbody.resolve_right fun h => by cases h.2)
  refine ⟨e, List.mem_reverse.mp (List.mem_of_mem_filter hmem), ?_⟩
  cases hentry : e.body with
  | absent => simp [hentry] at he
  | known | refused => simpa only [hentry, Option.some.injEq] using he

namespace Switchboard

def answer : Method := ⟨"Switchboard", "answer", "()I"⟩

def relay : Method := ⟨"Switchboard", "relay", "(I)V"⟩

def dial : Method := ⟨"Switchboard", "dial", "()V"⟩

def outside : Method := ⟨"Switchboard", "outside", "()V"⟩

def callOf (t : Term) : Predicate := ⟨.state, .unary .call t, {}⟩

def answered (name : String) : Predicate := ⟨.state, .equal (.value .int name) (.int 1), {}⟩

def setting : Setting where
  program := Program.Table.toProgram { methods := [
    { info := ⟨answer, [], .int, true, false, false⟩, blocks := [],
      body := .known (.basic [answered "answered"]) },
    { info := ⟨relay, [.int], .void, true, false, false⟩, blocks := [],
      body := .known (.basic [callOf (.argument .int 0)]) },
    { info := ⟨dial, [], .void, true, false, false⟩, blocks := [],
      body := .known (.basic [callOf (.call .void outside .null [])]) },
    { info := ⟨outside, [], .void, true, false, false⟩, blocks := [],
      body := .refused "no line" }] }
  policy := .always

/-- No call at all, in a choice of one. -/
def idle : SymbolicState := .choice [.basic [answered "answered"]]

/-- What is relayed is a call. -/
def relayed : SymbolicState :=
  .basic [callOf (.call .void relay .null [.call .int answer .null []])]

def dialled : SymbolicState := .basic [callOf (.call .void dial .null [])]

/-- No functions stand in the bodies. -/
theorem firstOrder_of_inlines (method : Method) (info : MethodInfo) (body : SymbolicState)
    (h : setting.Inlines method info body) (p : Predicate) (hp : body.Occurs p) :
    Term.areFirstOrder p.operands = true := by
  obtain ⟨e, hmem, hbody⟩ := Program.Table.exists_entry_of_body? h.stated
  simp only [List.mem_cons, List.not_mem_nil, or_false] at hmem
  rcases hmem with rfl | rfl | rfl | rfl
  all_goals cases hbody
  all_goals
    obtain rfl := State.occurs_singleton.mp hp
    rfl

/-- **Where chains of calls do not say how often to inline.** Without rounds a state is not even
simplified; what a body calls may be a call that it is handed; and a call that is left asks for a
body that is refused, so the next round fails. -/
theorem depth_matters :
    (∀ method info body, setting.Inlines method info body →
      ∀ p, body.Occurs p → Term.areFirstOrder p.operands = true) ∧
    (∀ p, idle.Occurs p ∨ relayed.Occurs p ∨ dialled.Occurs p →
      Term.areFirstOrder p.operands = true) ∧
    ((∀ methods, setting.CallChain idle methods → methods.length ≤ 0) ∧
      (run setting 0 idle).run ⟨0⟩ = (.ok idle, ⟨0⟩) ∧
      (run setting 1 idle).run ⟨0⟩ = (.ok (.basic [answered "answered"]), ⟨0⟩) ∧
      (State.basic [answered "answered"] == idle) = false) ∧
    ((∀ methods, setting.CallChain relayed methods → methods.length ≤ 1) ∧
      (run setting 1 relayed).run ⟨0⟩ = (.ok (.basic [callOf (.call .int answer .null [])]), ⟨0⟩) ∧
      setting.IsInlinable answer) ∧
    (∀ methods, setting.CallChain dialled methods → methods.length ≤ 1) ∧
      (run setting 1 dialled).run ⟨0⟩ =
        (.ok (.basic [callOf (.call .void outside .null [])]), ⟨0⟩) ∧
      (run setting 2 dialled).run ⟨0⟩ = (.error (.program (.reported "no line")), ⟨0⟩) := by
  refine ⟨firstOrder_of_inlines, ?_, ⟨length_le_zero ?_, rfl, rfl, rfl⟩,
    ⟨length_le_succ fun method info body hcalls hinlines => length_le_zero ?_, rfl, ?_⟩,
    length_le_succ fun method info body hcalls hinlines => length_le_zero ?_, rfl, rfl⟩
  · rintro p (hp | hp | hp)
    · obtain ⟨s, hs, hp⟩ := State.occurs_choice.mp hp
      obtain rfl := List.mem_singleton.mp hs
      obtain rfl := State.occurs_singleton.mp hp
      rfl
    all_goals
      obtain rfl := State.occurs_singleton.mp hp
      rfl
  · rintro method ⟨p, hp, _, _, _, _, hcalls⟩
    obtain ⟨s, hs, hp⟩ := State.occurs_choice.mp hp
    obtain rfl := List.mem_singleton.mp hs
    obtain rfl := State.occurs_singleton.mp hp
    cases hcalls
  · obtain ⟨p, hp, hcalls⟩ := hcalls
    obtain rfl := State.occurs_singleton.mp hp
    obtain rfl : method = relay := hcalls.unique ⟨_, _, _, _, rfl⟩
    obtain rfl := Option.some.inj hinlines.known
    obtain rfl := Option.some.inj (Except.ok.inj hinlines.stated)
    rintro method ⟨p, hp, _, _, _, _, hcalls⟩
    obtain rfl := State.occurs_singleton.mp hp
    cases hcalls
  · exact ⟨_, _, rfl, rfl, rfl, rfl⟩
  · obtain ⟨p, hp, hcalls⟩ := hcalls
    obtain rfl := State.occurs_singleton.mp hp
    obtain rfl : method = dial := hcalls.unique ⟨_, _, _, _, rfl⟩
    obtain rfl := Option.some.inj hinlines.known
    obtain rfl := Option.some.inj (Except.ok.inj hinlines.stated)
    rintro method ⟨p, hp, hcalls⟩ ⟨info, body, hinlines⟩
    obtain rfl := State.occurs_singleton.mp hp
    obtain rfl : method = outside := hcalls.unique ⟨_, _, _, _, rfl⟩
    obtain rfl := Option.some.inj hinlines.known
    cases hinlines.stated

end Switchboard
end Concolic
