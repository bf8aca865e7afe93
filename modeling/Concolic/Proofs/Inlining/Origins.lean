import Concolic.Proofs.Inlining.Calls
import Concolic.Proofs.Inlining.Outlines
import Concolic.Proofs.Revision
import Concolic.Proofs.State.Pieces

/-!
# Where inlined predicates come from

A round goes through the items of a state and leaves each of them where it is: a predicate that
makes no call which is inlined stays alone in its place, and what comes into the place of a call
comes from the body. What stands in functions is walked over as well and may change anywhere, so of a
predicate that stays only the outline is known.

This is said of any state, with choices and functions, since the bodies that a later round walks
over are not chosen by the state at the start.

## Main definitions

* `Setting.StemsFrom` — a predicate comes from the body of an inlined call, however deep.
* `Setting.Remakes` — what becomes of an item.

## Main statements

* `adds_onState` — the walk of a round adds what becomes of each item.
* `run_piecewise` — what inlining makes of a state, item by item.
-/

namespace Concolic

open Inlining

/-! ## Definitions and branches -/

namespace Clause

variable {p q : Predicate} {method : Method}

/-- The predicate defines a name and makes no call. -/
def IsDefinition (p : Predicate) : Prop := p.role = .state ∧ callOf? p = none

theorem IsDefinition.of_outline (h : p.outline = q.outline) (hp : p.IsDefinition) :
    q.IsDefinition := by
  refine ⟨(role_eq_of_outline h).symm.trans hp.1, ?_⟩
  have hcall : callOf? q.outline = none := by rw [← h, callOf?_outline, hp.2]; rfl
  rwa [callOf?_outline, Option.map_eq_none_iff] at hcall

theorem IsDefinition.isPath_eq_false (hp : p.IsDefinition) : p.isPath = false := by
  rw [isPath, hp.1]
  rfl

theorem IsDefinition.not_calls (hp : p.IsDefinition) : ¬p.Calls method := by
  rintro ⟨_, _, _, _, hcall⟩
  cases hp.2.symm.trans hcall

theorem IsPlain.not_calls (hp : p.IsPlain) : ¬p.Calls method := by
  obtain ⟨_, _, _, _, _, rfl, rfl | rfl, -, -⟩ := hp.exists_terms
  · rintro ⟨_, _, _, _, hcall⟩
    cases hcall
  · rintro ⟨_, _, _, _, hcall⟩
    cases hcall

end Clause

/-! ## Origins -/

namespace Inlining

variable {S : Setting} {p q c d : Predicate} {method : Method}

/-- The predicate `c` stands in the body that takes the place of the call that `p` makes, the names
of the body being changed for the call. -/
inductive Setting.Brings (S : Setting) (p c : Predicate) : Prop
  | intro {target? : Option Term} {type : ValueType} {method : Method} {receiver : Term}
      {arguments : List Term} {info : MethodInfo} {body : SymbolicState} {number : Nat}
      {names names' : NameSupply} {defining : List Predicate} {inlined : SymbolicState} :
      callOf? p = some (target?, .call type method receiver arguments) →
      S.Inlines method info body →
      (expansion ("inlined" ++ toString number) info method target? receiver arguments
        body).run names = ((defining, inlined), names') →
      inlined.Occurs c → Brings S p c

/-- The predicate `c` comes from the body of an inlined call: the one that `p` makes, or one that a
predicate makes which comes from there. What stands in functions may change at any time. -/
inductive Setting.StemsFrom (S : Setting) (p : Predicate) : Predicate → Prop
  | body {q c : Predicate} : q.outline = p.outline → S.Brings q c → StemsFrom S p c
  | deeper {c d : Predicate} : StemsFrom S p c → S.Brings c d → StemsFrom S p d
  | revised {c d : Predicate} : StemsFrom S p c → d.outline = c.outline → StemsFrom S p d

theorem Setting.Brings.calls (h : S.Brings p c) :
    ∃ method, p.Calls method ∧ S.IsInlinable method := by
  obtain ⟨hcall, hinlines, -, -⟩ := h
  exact ⟨_, ⟨_, _, _, _, hcall⟩, _, _, hinlines⟩

/-- Only what calls an inlined method has something come from it. -/
theorem Setting.StemsFrom.calls (h : S.StemsFrom p c) :
    ∃ method, p.Calls method ∧ S.IsInlinable method := by
  induction h with
  | body houtline hbrings =>
    obtain ⟨method, hcalls, hinlinable⟩ := hbrings.calls
    exact ⟨method, hcalls.of_outline houtline, hinlinable⟩
  | deeper _ _ ih => exact ih
  | revised _ _ ih => exact ih

theorem Setting.StemsFrom.of_outline (houtline : q.outline = p.outline) (h : S.StemsFrom q c) :
    S.StemsFrom p c := by
  induction h with
  | body h hbrings => exact .body (h.trans houtline) hbrings
  | deeper _ hbrings ih => exact ih.deeper hbrings
  | revised _ h ih => exact ih.revised h

theorem Setting.StemsFrom.trans (h : S.StemsFrom p c) (h' : S.StemsFrom c d) :
    S.StemsFrom p d := by
  induction h' with
  | body houtline hbrings => exact (h.revised houtline).deeper hbrings
  | deeper _ hbrings ih => exact ih.deeper hbrings
  | revised _ houtline ih => exact ih.revised houtline

/-- The predicate `c` stands in the place of `p`: it is `p` but for what stands in functions, or it
comes from the body of a call, or it defines a name that such a body uses. -/
inductive Setting.Descends (S : Setting) (p c : Predicate) : Prop
  | same : c.outline = p.outline → Descends S p c
  | stems : S.StemsFrom p c → Descends S p c
  | defines : c.IsDefinition → Descends S p c

theorem Setting.Descends.trans (h : S.Descends p c) (h' : S.Descends c d) : S.Descends p d := by
  rcases h' with hd | hd | hd
  · rcases h with hc | hc | hc
    · exact .same (hd.trans hc)
    · exact .stems (hc.revised hd)
    · exact .defines (hc.of_outline hd.symm)
  · rcases h with hc | hc | hc
    · exact .stems (hd.of_outline hc)
    · exact .stems (hc.trans hd)
    · -- A definition makes no call that anything could come from.
      obtain ⟨method, hcalls, -⟩ := hd.calls
      exact absurd hcalls hc.not_calls
  · exact .defines hd

/-- The run takes the place of the item in a round: all in it descends from the item, and a
predicate stays alone in its place if it calls no method that is inlined. -/
structure Setting.Remakes (S : Setting) (x : State.Item Predicate)
    (piece : List (State.Item Predicate)) : Prop where
  descends {c : Predicate} : State.Item.InRun c piece → ∃ p, x.Within p ∧ S.Descends p c
  kept {p : Predicate} : x = .part p → (∀ method, p.Calls method → ¬S.IsInlinable method) →
    ∃ q, piece = [.part q] ∧ q.outline = p.outline

theorem Setting.Remakes.refl (S : Setting) (x : State.Item Predicate) : S.Remakes x [x] where
  descends {c} h := ⟨c, State.Item.inRun_singleton.mp h, .same rfl⟩
  kept {p} h _ := ⟨p, by rw [h], rfl⟩

theorem piecewise_self (xs : List (State.Item Predicate)) : Piecewise S.Remakes xs xs := by
  induction xs with
  | nil => exact .nil
  | cons x xs ih => exact ih.cons (.refl S x)

/-- All in a run descends from the run whose items it takes the place of. -/
theorem exists_of_piecewise {xs ys : List (State.Item Predicate)}
    (h : Piecewise S.Remakes xs ys) (hc : State.Item.InRun c ys) :
    ∃ p, State.Item.InRun p xs ∧ S.Descends p c := by
  obtain ⟨y, hy, hc⟩ := hc
  obtain ⟨x, hx, piece, hremakes, hy⟩ := h.exists_of_mem hy
  obtain ⟨p, hp, hdescends⟩ := hremakes.descends ⟨y, hy, hc⟩
  exact ⟨p, ⟨x, hx, hp⟩, hdescends⟩

/-- What takes the place of what has taken the place of an item. -/
theorem Setting.Remakes.trans {x : State.Item Predicate}
    {between piece : List (State.Item Predicate)} (h : S.Remakes x between)
    (h' : Piecewise S.Remakes between piece) : S.Remakes x piece := by
  constructor
  · intro c hc
    obtain ⟨q, hq, hqc⟩ := exists_of_piecewise h' hc
    obtain ⟨p, hp, hpq⟩ := h.descends hq
    exact ⟨p, hp, hpq.trans hqc⟩
  · intro p hx hnot
    obtain ⟨q, rfl, hq⟩ := h.kept hx hnot
    have hnot' (method : Method) (hcalls : q.Calls method) : ¬S.IsInlinable method :=
      hnot method (hcalls.of_outline hq)
    obtain ⟨r, rfl, hr⟩ := (Piecewise.singleton_iff.mp h').kept rfl hnot'
    exact ⟨r, rfl, hr.trans hq⟩

theorem Setting.Remakes.sift {x : State.Item Predicate} {piece : List (State.Item Predicate)}
    (h : S.Remakes x piece) : S.Remakes x (State.Item.siftRun (fun _ => true) piece) := by
  constructor
  · intro c hc
    exact h.descends (State.Item.inRun_of_siftRun hc).1
  · intro p hx hnot
    obtain ⟨q, rfl, hq⟩ := h.kept hx hnot
    exact ⟨q, rfl, hq⟩

/-- A choice gives way to the choice between what its alternatives become. -/
theorem piecewise_choice {alternatives alternatives' : List SymbolicState}
    (h : List.Forall₂ (fun s s' => Piecewise S.Remakes s.items s'.items)
      alternatives alternatives') :
    Piecewise S.Remakes (State.choice alternatives).items (State.choice alternatives').items := by
  have hfrom := State.exists_of_forall₂ h.flip
  rw [State.items_choice alternatives]
  split
  · next hempty =>
    rw [Piecewise.nil_iff]
    refine State.items_choice_of_empty fun run hrun => ?_
    obtain ⟨s', hs', rfl⟩ := State.mem_itemsOfAll.mp hrun
    obtain ⟨s, hs, hpieces⟩ := hfrom s' hs'
    rw [List.isEmpty_iff.mp (List.all_eq_true.mp hempty _ (State.mem_itemsOfAll.mpr ⟨s, hs, rfl⟩))]
      at hpieces
    exact Piecewise.nil_iff.mp hpieces
  · refine Piecewise.singleton_iff.mpr ⟨fun {c} hc => ?_, nofun⟩
    obtain ⟨s', hs', hc⟩ := State.occurs_choice.mp (State.occurs_iff_inRun.mpr hc)
    obtain ⟨s, hs, hpieces⟩ := hfrom s' hs'
    obtain ⟨p, hp, hdescends⟩ := exists_of_piecewise hpieces (State.occurs_iff_inRun.mp hc)
    exact ⟨p, State.Item.within_branch.mpr ⟨_, State.mem_itemsOfAll.mpr ⟨s, hs, rfl⟩, hp⟩,
      hdescends⟩

/-! ## Walks -/

variable {α β : Type} {good : α → Prop} {xs ys : List (State.Item Predicate)}

/-- The walk leaves the builders as they are, and what it returns is good. -/
def Rests (walk : Rules.Walk Effects α) (good : α → Prop) : Prop :=
  ∀ stack (round : Round) (names : NameSupply), ∃ a round' names',
    outcome walk stack round names = (((a, stack), round'), names') ∧ good a

/-- The walk adds to the builder in use what takes the place of the items. -/
def Adds (S : Setting) (walk : Rules.Walk Effects α) (xs : List (State.Item Predicate)) : Prop :=
  ∀ top below (round : Round) (names : NameSupply), ∃ a top' round' names' added,
    outcome walk ⟨top :: below⟩ round names = (((a, ⟨top' :: below⟩), round'), names') ∧
      top'.toState.items = top.toState.items ++ added ∧ Piecewise S.Remakes xs added

theorem rests_pure {a : α} (h : good a) : Rests (pure a) good := fun _ round names =>
  ⟨a, round, names, rfl, h⟩

theorem Rests.imp {walk : Rules.Walk Effects α} {well : α → Prop} (h : Rests walk good)
    (himp : ∀ a, good a → well a) : Rests walk well := by
  intro stack round names
  obtain ⟨a, round', names', hrun, ha⟩ := h stack round names
  exact ⟨a, round', names', hrun, himp a ha⟩

theorem Rests.bind {walk : Rules.Walk Effects α} {next : α → Rules.Walk Effects β}
    {well : β → Prop} (h : Rests walk good) (hnext : ∀ a, good a → Rests (next a) well) :
    Rests (walk >>= next) well := by
  intro stack round names
  obtain ⟨a, round₁, names₁, hrun, ha⟩ := h stack round names
  obtain ⟨b, round', names', hrun', hb⟩ := hnext a ha stack round₁ names₁
  exact ⟨b, round', names', by rw [outcome_bind hrun, hrun'], hb⟩

theorem adds_pure (S : Setting) (a : α) : Adds S (pure a) [] := fun top _ round names =>
  ⟨a, top, round, names, [], rfl, (List.append_nil _).symm, .nil⟩

theorem Rests.bind_adds {walk : Rules.Walk Effects α} {next : α → Rules.Walk Effects β}
    (h : Rests walk good) (hnext : ∀ a, good a → Adds S (next a) xs) :
    Adds S (walk >>= next) xs := by
  intro top below round names
  obtain ⟨a, round₁, names₁, hrun, ha⟩ := h ⟨top :: below⟩ round names
  obtain ⟨b, top', round', names', added, hrun', hadded⟩ := hnext a ha top below round₁ names₁
  exact ⟨b, top', round', names', added, by rw [outcome_bind hrun, hrun'], hadded⟩

theorem Adds.bind {walk : Rules.Walk Effects α} {next : α → Rules.Walk Effects β}
    (h : Adds S walk xs) (hnext : ∀ a, Adds S (next a) ys) : Adds S (walk >>= next) (xs ++ ys) := by
  intro top below round names
  obtain ⟨a, top₁, round₁, names₁, first, hrun, hfirst, hxs⟩ := h top below round names
  obtain ⟨b, top', round', names', second, hrun', hsecond, hys⟩ :=
    hnext a top₁ below round₁ names₁
  refine ⟨b, top', round', names', first ++ second, by rw [outcome_bind hrun, hrun'], ?_,
    hxs.append hys⟩
  rw [hsecond, hfirst, List.append_assoc]

theorem Adds.bind_pure {walk : Rules.Walk Effects α} {f : α → β} (h : Adds S walk xs) :
    Adds S (walk >>= fun a => pure (f a)) xs := by
  have hbind := h.bind fun a => adds_pure S (f a)
  rwa [List.append_nil] at hbind

theorem adds_build {change : StateBuilder Predicate → StateBuilder Predicate}
    (hchange : ∀ b, (change b).toState.items = b.toState.items ++ ys)
    (h : Piecewise S.Remakes xs ys) : Adds S (Rules.build true change) xs :=
  fun top _ round names => ⟨(), change top, round, names, ys, rfl, hchange top, h⟩

/-- A walk in a builder of its own gives a state, and leaves the other builders as they are. -/
theorem Adds.inOwnBuilder {walk : Rules.Walk Effects SymbolicState} (h : Adds S walk xs) :
    Rests (Rules.inOwnBuilder true walk) fun s => Piecewise S.Remakes xs s.items := by
  intro stack round names
  obtain ⟨a, top', round', names', added, hrun, hitems, hadded⟩ := h {} stack.builders round names
  rw [Rules.items_toState_new, List.nil_append] at hitems
  rw [← hitems] at hadded
  exact ⟨top'.toState, round', names', outcome_inOwnBuilder hrun, hadded⟩

/-! ## Predicates -/

theorem isDefinition_of_bind (actual : Term) (declared : ValueType) (names : NameSupply) :
    ∀ c ∈ ((bind actual declared).run names).1.2, c.IsDefinition := by
  unfold bind
  split
  · intro c hc
    obtain rfl := List.mem_singleton.mp hc
    exact ⟨rfl, rfl⟩
  · split
    · intro c hc
      obtain rfl := List.mem_singleton.mp hc
      exact ⟨rfl, rfl⟩
    · exact fun c hc => nomatch hc

theorem isDefinition_of_bindAll (operands : List (Term × Term × ValueType)) (names : NameSupply) :
    ∀ c ∈ ((bindAll operands).run names).1.2, c.IsDefinition := by
  induction operands generalizing names with
  | nil => exact fun c hc => nomatch hc
  | cons operand rest ih =>
    obtain ⟨formal, actual, declared⟩ := operand
    rw [run_bindAll_cons, List.forall_mem_append]
    exact ⟨isDefinition_of_bind actual declared names, ih _⟩

/-- What becomes of a predicate whose operands have been walked over. -/
inductive Setting.Judges (S : Setting) (p : Predicate) : Verdict → Prop
  | keep {q : Predicate} : q.outline = p.outline → Judges S p (.keep q)
  | splice {q : Predicate} {method : Method} {defining : List Predicate} {inlined : SymbolicState} :
      q.outline = p.outline → q.Calls method → S.IsInlinable method →
      (∀ c ∈ defining, c.IsDefinition) → (∀ c, inlined.Occurs c → S.Brings q c) →
      Judges S p (.splice fun builder => (defining.foldl StateBuilder.push builder).append inlined)

/-- A predicate that calls nothing is kept. -/
theorem rule_of_not_calls (hp : ∀ method, ¬p.Calls method) :
    (rules S).predicate p = pure (.keep p) := by
  rcases hcall : callOf? p with _ | ⟨target?, call⟩
  · simp only [rules, hcall]
  · cases call with
    | call type method receiver arguments =>
      exact absurd ⟨target?, type, receiver, arguments, hcall⟩ (hp method)
    | leaf | unary | binary | ternary | lambda => simp only [rules, hcall]

theorem rests_rule (S : Setting) (p : Predicate) :
    Rests (StateT.lift ((rules S).predicate p)) (S.Judges p) := by
  intro stack round names
  by_cases hcall : ∃ method, p.Calls method
  · obtain ⟨method, target?, type, receiver, arguments, hcall⟩ := hcall
    rw [outcome_rule hcall]
    by_cases hinlinable : S.IsInlinable method
    · obtain ⟨info, body, hinlines⟩ := hinlinable
      rw [bodyFor_of_inlines hinlines]
      refine ⟨_, _, _, rfl, .splice rfl ⟨_, _, _, _, hcall⟩ ⟨info, body, hinlines⟩ ?_ ?_⟩
      · exact isDefinition_of_bindAll (formals info receiver arguments) names
      · exact fun c hc => .intro hcall hinlines rfl hc
    · by_cases hrefuses : ∃ failure, S.Refuses method failure
      · obtain ⟨failure, hrefuses⟩ := hrefuses
        rw [bodyFor_of_refuses hrefuses]
        exact ⟨_, _, _, rfl, .keep rfl⟩
      · rw [bodyFor_of_not hinlinable (not_exists.mp hrefuses)]
        exact ⟨_, _, _, rfl, .keep rfl⟩
  · rw [rule_of_not_calls (not_exists.mp hcall)]
    exact ⟨_, _, _, rfl, .keep rfl⟩

theorem Setting.Judges.of_outline {verdict : Verdict} (houtline : q.outline = p.outline)
    (h : S.Judges q verdict) : S.Judges p verdict := by
  cases h with
  | keep h => exact .keep (h.trans houtline)
  | splice h hcalls hinlinable hdefining hinlined =>
    exact .splice (h.trans houtline) hcalls hinlinable hdefining hinlined

theorem Setting.remakes_keep (houtline : q.outline = p.outline) :
    S.Remakes (.part p) [.part q] where
  descends {c} hc := by
    obtain rfl := State.Item.within_part.mp (State.Item.inRun_singleton.mp hc)
    exact ⟨p, .part, .same houtline⟩
  kept {p'} hx _ := by
    obtain rfl := State.Item.part.inj hx
    exact ⟨q, rfl, houtline⟩

theorem Setting.remakes_splice {defining : List Predicate} {inlined : SymbolicState}
    (houtline : q.outline = p.outline) (hcalls : q.Calls method) (hinlinable : S.IsInlinable method)
    (hdefining : ∀ c ∈ defining, c.IsDefinition) (hinlined : ∀ c, inlined.Occurs c → S.Brings q c) :
    S.Remakes (.part p) (defining.map .part ++ inlined.items) where
  descends {c} hc := by
    refine ⟨p, .part, ?_⟩
    rcases State.Item.inRun_append.mp hc with hc | hc
    · exact .defines (hdefining c (State.Item.inRun_map_part.mp hc))
    · exact .stems (.body houtline (hinlined c (State.occurs_iff_inRun.mpr hc)))
  kept {p'} hx hnot := by
    obtain rfl := State.Item.part.inj hx
    exact absurd hinlinable (hnot method (hcalls.of_outline houtline))

/-! ## The walk -/

theorem rests_around {t : Term} {rebuild : Rules.Walk Effects Term} {good : Term → Prop}
    (h : Rests rebuild good) : Rests ((rules S).around t rebuild) good := by
  rwa [Rules.around_of_inert (fun _ => rfl) (fun _ => rfl)]

theorem outline_ite {changed : Prop} [Decidable changed] {t u : Term}
    (h : u.outline = t.outline) : (if changed then t else u).outline = t.outline := by
  split
  · rfl
  · exact h

mutual

/-- Of a term nothing changes but what stands in functions. -/
theorem rests_onTerm (S : Setting) : ∀ t : Term,
    Rests ((rules S).onTerm true t) fun u => u.outline = t.outline
  | .leaf type l => by
    rw [Rules.onTerm]
    exact rests_around (rests_pure rfl)
  | .unary op type a => by
    rw [Rules.onTerm]
    refine rests_around ((rests_onTerm S a).bind fun a' ha => rests_pure (outline_ite ?_))
    rw [Term.outline, ha, Term.outline]
  | .binary op type a b => by
    rw [Rules.onTerm]
    refine rests_around ((rests_onTerm S a).bind fun a' ha => (rests_onTerm S b).bind fun b' hb =>
      rests_pure (outline_ite ?_))
    rw [Term.outline, ha, hb, Term.outline]
  | .ternary op type a b c => by
    rw [Rules.onTerm]
    refine rests_around ((rests_onTerm S a).bind fun a' ha => (rests_onTerm S b).bind fun b' hb =>
      (rests_onTerm S c).bind fun c' hc => rests_pure (outline_ite ?_))
    rw [Term.outline, ha, hb, hc, Term.outline]
  | .call type method receiver arguments => by
    rw [Rules.onTerm]
    refine rests_around ((rests_onTerm S receiver).bind fun receiver' hreceiver =>
      (rests_onTerms S arguments).bind fun arguments' harguments => rests_pure (outline_ite ?_))
    rw [Term.outline, hreceiver, harguments, Term.outline]
  | .lambda type params body => by
    rw [Rules.onTerm]
    refine rests_around ((rests_onTerms S params).bind fun params' _ =>
      (adds_onState S body).inOwnBuilder.bind fun body' _ => rests_pure ?_)
    rw [Term.outline, Term.outline]

theorem rests_onTerms (S : Setting) : ∀ ts : List Term,
    Rests ((rules S).onTerms true ts) fun us => Term.outlineAll us = Term.outlineAll ts
  | [] => by
    rw [Rules.onTerms]
    exact rests_pure rfl
  | t :: rest => by
    rw [Rules.onTerms]
    refine (rests_onTerm S t).bind fun t' ht => (rests_onTerms S rest).bind fun rest' hrest =>
      rests_pure ?_
    rw [Term.outlineAll, ht, hrest, Term.outlineAll]

theorem rests_onAssertion (S : Setting) : ∀ a : Assertion Term,
    Rests ((rules S).onAssertion true a) fun b => b.map Term.outline = a.map Term.outline
  | .unary verb a => by
    rw [Rules.onAssertion]
    refine (rests_onTerm S a).bind fun a' ha => rests_pure ?_
    rw [Assertion.map, ha, Assertion.map]
  | .binary verb a b => by
    rw [Rules.onAssertion]
    refine (rests_onTerm S a).bind fun a' ha => (rests_onTerm S b).bind fun b' hb =>
      rests_pure ?_
    rw [Assertion.map, ha, hb, Assertion.map]
  | .newArray array dimensions => by
    rw [Rules.onAssertion]
    refine (rests_onTerm S array).bind fun array' harray =>
      (rests_onTerms S dimensions).bind fun dimensions' hdimensions => rests_pure ?_
    rw [Term.outlineAll_eq_map, Term.outlineAll_eq_map] at hdimensions
    rw [Assertion.map, harray, hdimensions, Assertion.map]
  | .generate array length generator => by
    rw [Rules.onAssertion]
    refine (rests_onTerm S array).bind fun array' harray =>
      (rests_onTerm S length).bind fun length' hlength =>
        (rests_onTerm S generator).bind fun generator' hgenerator => rests_pure ?_
    rw [Assertion.map, harray, hlength, hgenerator, Assertion.map]

theorem rests_onPredicate (S : Setting) : ∀ p : Clause Term,
    Rests ((rules S).onPredicate true p) (S.Judges p)
  | ⟨role, assertion, location⟩ => by
    rw [Rules.onPredicate]
    refine (rests_onAssertion S assertion).bind fun assertion' hassertion =>
      (rests_rule S _).imp fun verdict => Setting.Judges.of_outline ?_
    rw [Clause.outline, Clause.outline]
    rcases settle_cases assertion assertion' with hsettle | hsettle
    · rw [hsettle]
    · rw [hsettle, hassertion]

theorem adds_onParts (S : Setting) : ∀ parts : List (Clause Term),
    Adds S ((rules S).onParts true parts) (parts.map .part)
  | [] => by
    rw [Rules.onParts]
    exact adds_pure S []
  | p :: rest => by
    rw [Rules.onParts]
    refine (rests_onPredicate S p).bind_adds fun verdict hverdict => ?_
    cases hverdict with
    | @keep q houtline =>
      exact (adds_build (StateBuilder.items_toState_push · q)
        (Piecewise.singleton_iff.mpr (Setting.remakes_keep houtline))).bind fun _ =>
          (adds_onParts S rest).bind_pure
    | @splice q method defining inlined houtline hcalls hinlinable hdefining hinlined =>
      refine (adds_build (fun b => ?_) (Piecewise.singleton_iff.mpr (Setting.remakes_splice houtline
        hcalls hinlinable hdefining hinlined))).bind fun _ => adds_onParts S rest
      rw [StateBuilder.items_toState_append, (b.gains_pushAll defining).items, State.items_basic,
        List.append_assoc]

/-- **What a round adds.** The walk over a state adds to the builder in use what becomes of each of
its items. -/
theorem adds_onState (S : Setting) : ∀ s : State (Clause Term),
    Adds S ((rules S).onState true s) s.items
  | .basic parts => by
    rw [Rules.onState, State.items_basic]
    exact (adds_onParts S parts).bind_pure
  | .chain s t => by
    rw [Rules.onState, State.items_chain]
    exact (adds_onState S s).bind fun _ => (adds_onState S t).bind_pure
  | .choice alternatives => by
    rw [Rules.onState]
    exact (rests_onAlternatives S alternatives).bind_adds fun alternatives' h =>
      (adds_build (StateBuilder.items_toState_append · (.choice alternatives'))
        (piecewise_choice h)).bind_pure

theorem rests_onAlternatives (S : Setting) : ∀ states : List (State (Clause Term)),
    Rests ((rules S).onAlternatives true states) fun states' =>
      List.Forall₂ (fun s s' => Piecewise S.Remakes s.items s'.items) states states'
  | [] => by
    rw [Rules.onAlternatives]
    exact rests_pure .nil
  | s :: rest => by
    rw [Rules.onAlternatives]
    exact (adds_onState S s).inOwnBuilder.bind fun s' hs =>
      (rests_onAlternatives S rest).bind fun rest' hrest => rests_pure (.cons hs hrest)

end

/-! ## Rounds -/

/-- A round that gives a state puts what becomes of each item where the item stood. -/
theorem round_piecewise {s s' : SymbolicState} {next : Nat} {names names' : NameSupply}
    {progress : Round} (h : (round S next s).run names = ((.ok s', progress), names')) :
    Piecewise S.Remakes s.items s'.items := by
  obtain ⟨a, top, round', names'', added, hrun, hitems, hadded⟩ :=
    adds_onState S s {} [] { next } names
  have hwalked : walked S next names s = (((a, ⟨[top]⟩), round'), names'') := hrun
  rw [round_run, hwalked] at h
  obtain ⟨houtcome, -⟩ := Prod.mk.inj (Prod.mk.inj h).1
  cases hfailure : round'.failure with
  | some failure => simp [hfailure] at houtcome
  | none =>
    obtain rfl : top.toState.simplify = s' := by simpa [hfailure, BuilderStack.topState] using
      houtcome
    rw [Rules.items_toState_new, List.nil_append] at hitems
    rw [State.items_simplify, hitems]
    refine (hadded.image rfl (State.Item.siftRun_append _)).mono ?_
    rintro x - piece ⟨between, hremakes, rfl⟩
    exact hremakes.sift

theorem rounds_piecewise {depth : Nat} : ∀ {next : Nat} {s s' : SymbolicState}
    {names names' : NameSupply}, (rounds S depth next s).run names = (.ok s', names') →
      Piecewise S.Remakes s.items s'.items := by
  induction depth with
  | zero =>
    intro next s s' names names' h
    obtain ⟨houtcome, -⟩ := Prod.mk.inj h
    obtain rfl := Except.ok.inj houtcome
    exact piecewise_self s.items
  | succ depth ih =>
    intro next s s' names names' h
    rcases hround : (round S next s).run names with ⟨⟨failure | between, progress⟩, names''⟩
    · rw [rounds_of_error hround] at h
      cases h
    · have hfirst := round_piecewise hround
      rw [rounds_of_ok hround] at h
      split at h
      · obtain ⟨houtcome, -⟩ := Prod.mk.inj h
        obtain rfl := Except.ok.inj houtcome
        exact hfirst
      · refine (hfirst.comp (ih h)).mono ?_
        rintro x - piece ⟨_, hremakes, hrest⟩
        exact hremakes.trans hrest

/-- What inlining makes of a state: what becomes of each item is where the item stood. -/
theorem run_piecewise {depth : Nat} {s s' : SymbolicState} {names names' : NameSupply}
    (h : (run S depth s).run names = (.ok s', names')) : Piecewise S.Remakes s.items s'.items :=
  rounds_piecewise h

end Inlining
end Concolic
