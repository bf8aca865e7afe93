import Concolic.Proofs.State.Sifting
import Concolic.Proofs.Term.Texts
import Concolic.Revision

/-!
# The two disciplines of revision agree

The plain walk returns a new state; the recollecting walk leaves it in the builder in use, and
what it returns for a state is put to no use. The two are followed side by side, each from builders
and hidden state of its own. Over a term both return terms that are the same, and the recollecting
walk leaves the builders as they were. Over a state the recollecting walk adds to the builder in
use the items of the state that the plain walk returns.

## Main definitions

* `Rules.Uniform` — rules that take what is the same to what is the same, and splice nothing.
* `Rules.Agrees`, `Rules.Gathers` — how the two walks over a part of a state compare.

## Main statements

* `Rules.agrees_onTerm`, `Rules.gathers_onState` — the walks over terms and over states.
* `Rules.laws_of_disciplines` — the revised states are the same.
-/

namespace Concolic

/-- Verdicts of one effect: predicates that are the same are kept, or none is. -/
inductive Verdict.Agree : Verdict → Verdict → Prop
  | keep {p q : Predicate} : (p == q) = true → Agree (.keep p) (.keep q)
  | elide : Agree .elide .elide

/-! ## Values that are put in place where they differ -/

section settle
variable {α : Type} [BEq α] [EquivBEq α] {old new new' : α}

/-- The old value, in place of a new one only if that is the same, is the same as the new one. -/
theorem beq_of_ite {unchanged : Bool} (h : unchanged = true → (new == old) = true) :
    ((if unchanged then old else new) == new) = true := by
  cases unchanged with
  | true => exact BEq.symm (h rfl)
  | false => exact BEq.rfl

/-- New values that are the same stay so where each is put in place only if it differs. -/
theorem ite_congr_beq {unchanged unchanged' : Bool} (h : unchanged = true → (new == old) = true)
    (h' : unchanged' = true → (new' == old) = true) (hnew : (new == new') = true) :
    ((if unchanged then old else new) == if unchanged' then old else new') = true :=
  BEq.trans (BEq.trans (beq_of_ite h) hnew) (BEq.symm (beq_of_ite h'))

theorem settle_beq : (settle old new == new) = true := beq_of_ite id

theorem settle_congr (h : (new == new') = true) : (settle old new == settle old new') = true :=
  ite_congr_beq id id h

end settle

namespace Rules

variable {σ : Type}

/-- The rules take terms that are the same to terms that are the same, and judge predicates that
are the same alike, whatever went before. Nothing is spliced in. -/
structure Uniform (R : Rules (StateM σ)) : Prop where
  term {t t' : Term} (h : (t == t') = true) (state state' : σ) :
    (((R.term t).run state).1 == ((R.term t').run state').1) = true
  predicate {p q : Predicate} (h : (p == q) = true) (state state' : σ) :
    Verdict.Agree ((R.predicate p).run state).1 ((R.predicate q).run state').1

/-! ## Two walks side by side -/

/-- Both walks return values that are related, and the second one leaves the builders as they
were. -/
def Agrees {α : Type} (related : α → α → Prop) (plain collecting : Walk (StateM σ) α) : Prop :=
  ∀ stack stack' state state',
    related ((plain.run stack).run state).1.1 ((collecting.run stack').run state').1.1 ∧
      ((collecting.run stack').run state').1.2 = stack'

/-- The second walk adds items to the builder in use, which are right for what the first one
returns, and leaves all other builders as they were. -/
def Gathers {α β : Type} (right : α → List (State.Item Predicate) → Prop)
    (plain : Walk (StateM σ) α) (collecting : Walk (StateM σ) β) : Prop :=
  ∀ stack top below state state', ∃ top' added,
    ((collecting.run ⟨top :: below⟩).run state').1.2 = ⟨top' :: below⟩ ∧
      top'.toState.items = top.toState.items ++ added ∧
      right ((plain.run stack).run state).1.1 added

section
variable {α β γ δ : Type} {related : α → α → Prop} {right : α → List (State.Item Predicate) → Prop}

theorem agrees_pure {a b : α} (h : related a b) :
    Agrees related (pure a : Walk (StateM σ) α) (pure b) := fun _ _ _ _ => ⟨h, rfl⟩

theorem agrees_lift {plain collecting : StateM σ α}
    (h : ∀ state state', related (plain.run state).1 (collecting.run state').1) :
    Agrees related (StateT.lift plain : Walk (StateM σ) α) (StateT.lift collecting) :=
  fun _ _ state state' => ⟨h state state', rfl⟩

theorem Agrees.bind {plain collecting : Walk (StateM σ) α} {next next' : α → Walk (StateM σ) γ}
    {related' : γ → γ → Prop} (h : Agrees related plain collecting)
    (hnext : ∀ a b, related a b → Agrees related' (next a) (next' b)) :
    Agrees related' (plain >>= next) (collecting >>= next') := by
  intro stack stack' state state'
  obtain ⟨hrelated, hstack⟩ := h stack stack' state state'
  have hrest := hnext _ _ hrelated ((plain.run stack).run state).1.2
    ((collecting.run stack').run state').1.2 ((plain.run stack).run state).2
    ((collecting.run stack').run state').2
  exact ⟨hrest.1, hrest.2.trans hstack⟩

theorem gathers_pure {a : α} {b : β} (h : right a []) :
    Gathers right (pure a : Walk (StateM σ) α) (pure b) := fun _ top _ _ _ =>
  ⟨top, [], rfl, (List.append_nil _).symm, h⟩

/-- First walks over terms, then walks over states. -/
theorem Agrees.bind_gathers {plain collecting : Walk (StateM σ) α}
    {next : α → Walk (StateM σ) γ} {next' : α → Walk (StateM σ) δ}
    {right' : γ → List (State.Item Predicate) → Prop} (h : Agrees related plain collecting)
    (hnext : ∀ a b, related a b → Gathers right' (next a) (next' b)) :
    Gathers right' (plain >>= next) (collecting >>= next') := by
  intro stack top below state state'
  obtain ⟨hrelated, hstack⟩ := h stack ⟨top :: below⟩ state state'
  obtain ⟨top', added, hend, hadded, hright⟩ := hnext _ _ hrelated
    ((plain.run stack).run state).1.2 top below ((plain.run stack).run state).2
    ((collecting.run ⟨top :: below⟩).run state').2
  have hrun : (((collecting >>= next').run ⟨top :: below⟩).run state').1.2 =
      (((next' ((collecting.run ⟨top :: below⟩).run state').1.1).run
        ((collecting.run ⟨top :: below⟩).run state').1.2).run
          ((collecting.run ⟨top :: below⟩).run state').2).1.2 := rfl
  refine ⟨top', added, ?_, hadded, hright⟩
  rw [hrun, hstack]
  exact hend

/-- Walks over states, one after the other: what they add is added in order. -/
theorem Gathers.bind {plain : Walk (StateM σ) α} {collecting : Walk (StateM σ) β}
    {next : α → Walk (StateM σ) γ} {next' : β → Walk (StateM σ) δ}
    {right' : γ → List (State.Item Predicate) → Prop} (h : Gathers right plain collecting)
    (hnext : ∀ a b added, right a added →
      Gathers (fun c more => right' c (added ++ more)) (next a) (next' b)) :
    Gathers right' (plain >>= next) (collecting >>= next') := by
  intro stack top below state state'
  obtain ⟨top', added, hend, hadded, hright⟩ := h stack top below state state'
  obtain ⟨top'', more, hend', hmore, hright'⟩ := hnext _
    ((collecting.run ⟨top :: below⟩).run state').1.1 added hright
    ((plain.run stack).run state).1.2 top' below ((plain.run stack).run state).2
    ((collecting.run ⟨top :: below⟩).run state').2
  refine ⟨top'', added ++ more, ?_, ?_, hright'⟩
  · rw [← hend] at hend'
    exact hend'
  · rw [hmore, hadded, List.append_assoc]

/-- What is done to the builder in use in the recollecting discipline only. -/
theorem gathers_build {change change' : StateBuilder Predicate → StateBuilder Predicate}
    {added : List (State.Item Predicate)}
    (h : ∀ b, (change' b).toState.items = b.toState.items ++ added) :
    Gathers (fun _ more => more = added) (build false change : Walk (StateM σ) Unit)
      (build true change') := fun _ top _ _ _ => ⟨change' top, added, rfl, h top, rfl⟩

theorem items_toState_new : ({} : StateBuilder Predicate).toState.items = [] := State.items_empty

/-- In a builder of its own the recollecting walk gathers the state that the plain walk returns,
and the builders before it are as they were. -/
theorem Gathers.inOwnBuilder {plain collecting : Walk (StateM σ) SymbolicState}
    (h : Gathers (fun s added => State.Item.sameRuns s.items added = true) plain collecting) :
    Agrees (fun s s' => (s == s') = true) (inOwnBuilder false plain)
      (inOwnBuilder true collecting) := by
  intro stack stack' state state'
  obtain ⟨top, added, hend, hadded, hsame⟩ := h stack {} stack'.builders state state'
  have hrun : (((Rules.inOwnBuilder true collecting).run stack').run state').1 =
      (((collecting.run ⟨{} :: stack'.builders⟩).run state').1.2).pop := rfl
  rw [hrun, hend]
  refine ⟨?_, rfl⟩
  rw [items_toState_new, List.nil_append] at hadded
  change State.Item.sameRuns _ top.toState.items = true
  rw [hadded]
  exact hsame

end

/-! ## The walks of a revision -/

variable {R : Rules (StateM σ)}

/-- Both walks replace a term as a whole, or rebuild it and hand it to the rules. -/
theorem agrees_around (hR : R.Uniform) {t : Term} {plain collecting : Walk (StateM σ) Term}
    (h : Agrees (fun a b => (a == b) = true) plain collecting) :
    Agrees (fun a b => (a == b) = true) (R.around t plain) (R.around t collecting) := by
  unfold around
  cases R.shortcut t with
  | some replacement => exact agrees_pure BEq.rfl
  | none => exact h.bind fun a b hab => agrees_lift (hR.term hab)

mutual

/-- Both walks over a term return terms that are the same. -/
theorem agrees_onTerm (hR : R.Uniform) : ∀ t : Term,
    Agrees (fun a b => (a == b) = true) (R.onTerm false t) (R.onTerm true t)
  | .leaf type l => by
    rw [onTerm, onTerm]
    exact agrees_around hR (agrees_pure BEq.rfl)
  | .unary op type a => by
    rw [onTerm, onTerm]
    refine agrees_around hR ((agrees_onTerm hR a).bind fun a₁ a₂ ha => agrees_pure ?_)
    exact ite_congr_beq Term.unary_congr Term.unary_congr (Term.unary_congr ha)
  | .binary op type a b => by
    rw [onTerm, onTerm]
    refine agrees_around hR ((agrees_onTerm hR a).bind fun a₁ a₂ ha =>
      (agrees_onTerm hR b).bind fun b₁ b₂ hb => agrees_pure ?_)
    have hunchanged : ∀ {a' b' : Term}, (a' == a && b' == b) = true →
        (Term.binary op type a' b' == .binary op type a b) = true := by
      intro a' b' h
      rw [Bool.and_eq_true] at h
      exact Term.binary_congr h.1 h.2
    exact ite_congr_beq hunchanged hunchanged (Term.binary_congr ha hb)
  | .ternary op type a b c => by
    rw [onTerm, onTerm]
    refine agrees_around hR ((agrees_onTerm hR a).bind fun a₁ a₂ ha =>
      (agrees_onTerm hR b).bind fun b₁ b₂ hb =>
        (agrees_onTerm hR c).bind fun c₁ c₂ hc => agrees_pure ?_)
    have hunchanged : ∀ {a' b' c' : Term}, (a' == a && b' == b && c' == c) = true →
        (Term.ternary op type a' b' c' == .ternary op type a b c) = true := by
      intro a' b' c' h
      rw [Bool.and_eq_true, Bool.and_eq_true] at h
      exact Term.ternary_congr h.1.1 h.1.2 h.2
    exact ite_congr_beq hunchanged hunchanged (Term.ternary_congr ha hb hc)
  | .call type method receiver arguments => by
    rw [onTerm, onTerm]
    refine agrees_around hR ((agrees_onTerm hR receiver).bind fun a₁ a₂ ha =>
      (agrees_onTerms hR arguments).bind fun as₁ as₂ has => agrees_pure ?_)
    have hunchanged : ∀ {a' : Term} {as' : List Term}, (a' == receiver && as' == arguments) = true →
        (Term.call type method a' as' == .call type method receiver arguments) = true := by
      intro a' as' h
      rw [Bool.and_eq_true] at h
      exact Term.call_congr h.1 h.2
    exact ite_congr_beq hunchanged hunchanged (Term.call_congr ha has)
  | .lambda type params body => by
    rw [onTerm, onTerm]
    refine agrees_around hR ((agrees_onTerms hR params).bind fun as₁ as₂ has =>
      (gathers_onState hR body).inOwnBuilder.bind fun s₁ s₂ hs => agrees_pure ?_)
    exact Term.lambda_congr (settle_congr has) (settle_congr hs)

theorem agrees_onTerms (hR : R.Uniform) : ∀ ts : List Term,
    Agrees (fun as bs => (as == bs) = true) (R.onTerms false ts) (R.onTerms true ts)
  | [] => by
    rw [onTerms, onTerms]
    exact agrees_pure BEq.rfl
  | t :: rest => by
    rw [onTerms, onTerms]
    refine (agrees_onTerm hR t).bind fun a₁ a₂ ha =>
      (agrees_onTerms hR rest).bind fun as₁ as₂ has => agrees_pure ?_
    rw [List.cons_beq_cons, ha, has, Bool.and_self]

theorem agrees_onAssertion (hR : R.Uniform) : ∀ p : Assertion Term,
    Agrees (fun p q => (p == q) = true) (R.onAssertion false p) (R.onAssertion true p)
  | .unary verb a => by
    rw [onAssertion, onAssertion]
    refine (agrees_onTerm hR a).bind fun a₁ a₂ ha => agrees_pure ?_
    exact Assertion.beq_iff_shape.mpr ⟨rfl, by simp [Assertion.operands, ha]⟩
  | .binary verb a b => by
    rw [onAssertion, onAssertion]
    refine (agrees_onTerm hR a).bind fun a₁ a₂ ha =>
      (agrees_onTerm hR b).bind fun b₁ b₂ hb => agrees_pure ?_
    exact Assertion.beq_iff_shape.mpr ⟨rfl, by simp [Assertion.operands, ha, hb]⟩
  | .newArray array dimensions => by
    rw [onAssertion, onAssertion]
    refine (agrees_onTerm hR array).bind fun a₁ a₂ ha =>
      (agrees_onTerms hR dimensions).bind fun as₁ as₂ has => agrees_pure ?_
    exact Assertion.beq_iff_shape.mpr ⟨rfl, by simp [Assertion.operands, ha, has]⟩
  | .generate array length generator => by
    rw [onAssertion, onAssertion]
    refine (agrees_onTerm hR array).bind fun a₁ a₂ ha =>
      (agrees_onTerm hR length).bind fun b₁ b₂ hb =>
        (agrees_onTerm hR generator).bind fun c₁ c₂ hc => agrees_pure ?_
    exact Assertion.beq_iff_shape.mpr ⟨rfl, by simp [Assertion.operands, ha, hb, hc]⟩

theorem agrees_onPredicate (hR : R.Uniform) : ∀ p : Clause Term,
    Agrees Verdict.Agree (R.onPredicate false p) (R.onPredicate true p)
  | ⟨role, assertion, location⟩ => by
    rw [onPredicate, onPredicate]
    refine (agrees_onAssertion hR assertion).bind fun q₁ q₂ hq => agrees_lift (hR.predicate ?_)
    exact Clause.beq_iff.mpr ⟨rfl, settle_congr hq⟩

theorem gathers_onParts (hR : R.Uniform) : ∀ parts : List (Clause Term),
    Gathers (fun kept added => State.Item.sameRuns (kept.map .part) added = true)
      (R.onParts false parts) (R.onParts true parts)
  | [] => by
    rw [onParts, onParts]
    exact gathers_pure rfl
  | p :: rest => by
    rw [onParts, onParts]
    refine (agrees_onPredicate hR p).bind_gathers fun v₁ v₂ hv => ?_
    cases hv with
    | elide => exact gathers_onParts hR rest
    | keep hpq =>
      refine (gathers_build (StateBuilder.items_toState_push · _)).bind fun _ _ added hadded =>
        (gathers_onParts hR rest).bind fun kept _ more hmore => gathers_pure ?_
      subst hadded
      simpa [State.Item.sameRuns, State.Item.same, hpq] using hmore

/-- The recollecting walk adds the items of the state that the plain walk returns. -/
theorem gathers_onState (hR : R.Uniform) : ∀ s : State (Clause Term),
    Gathers (fun s added => State.Item.sameRuns s.items added = true)
      (R.onState false s) (R.onState true s)
  | .basic parts => by
    rw [onState, onState]
    refine (gathers_onParts hR parts).bind fun kept _ added hadded => gathers_pure ?_
    have hsettle : (State.basic (settle parts kept) == .basic kept) = true :=
      State.basic_congr settle_beq
    rw [List.append_nil]
    refine State.Item.sameRuns_trans hsettle ?_
    rw [State.items_basic]
    exact hadded
  | .chain first second => by
    rw [onState, onState]
    refine (gathers_onState hR first).bind fun s₁ _ added hadded =>
      (gathers_onState hR second).bind fun s₂ _ more hmore => gathers_pure ?_
    have hchain : ((if s₁ == first && s₂ == second then State.chain first second
        else .chain s₁ s₂) == .chain s₁ s₂) = true := by
      refine beq_of_ite fun h => ?_
      rw [Bool.and_eq_true] at h
      exact State.chain_congr h.1 h.2
    rw [List.append_nil]
    refine State.Item.sameRuns_trans hchain ?_
    rw [State.items_chain]
    exact State.Item.sameRuns_append hadded hmore
  | .choice alternatives => by
    rw [onState, onState]
    refine (agrees_onAlternatives hR alternatives).bind_gathers fun ss₁ ss₂ hss =>
      (gathers_build (StateBuilder.items_toState_append · (.choice ss₂))).bind
        fun _ _ added hadded => gathers_pure ?_
    subst hadded
    rw [List.append_nil]
    exact State.choice_congr (BEq.trans settle_beq hss)

theorem agrees_onAlternatives (hR : R.Uniform) : ∀ states : List (State (Clause Term)),
    Agrees (fun ss ss' => (ss == ss') = true) (R.onAlternatives false states)
      (R.onAlternatives true states)
  | [] => by
    rw [onAlternatives, onAlternatives]
    exact agrees_pure rfl
  | s :: rest => by
    rw [onAlternatives, onAlternatives]
    refine (gathers_onState hR s).inOwnBuilder.bind fun s₁ s₂ hs =>
      (agrees_onAlternatives hR rest).bind fun ss₁ ss₂ hss => agrees_pure ?_
    rw [List.cons_beq_cons, hs, hss, Bool.and_self]

end

/-! ## Revised states -/

/-- **The two disciplines agree.** Rules that take what is the same to what is the same, and splice
nothing in, revise a state to states that are the same, with builders and without. While builders
are in use, the walk over a state, a choice among them, changes the builder on top only, and the
walk over the body of a function changes none. -/
theorem laws_of_disciplines (hR : R.Uniform) :
    (∀ (s : SymbolicState) (state state' : σ),
      (((R.revise true s).run state).1 == ((R.revise false s).run state').1) = true) ∧
    (∀ (s : SymbolicState) (top : StateBuilder Predicate) (below : List (StateBuilder Predicate))
      (state : σ),
      let after := (((R.onState true s).run ⟨top :: below⟩).run state).1.2
      after.depth = below.length + 1 ∧ after.builders.tail = below) ∧
    (∀ (body : SymbolicState) (stack : BuilderStack Predicate) (state : σ),
      (((inOwnBuilder true (R.onState true body)).run stack).run state).1.2 = stack) := by
  refine ⟨?_, ?_, ?_⟩
  · intro s state state'
    obtain ⟨top', added, hend, hadded, hsame⟩ := gathers_onState hR s {} {} [] state' state
    have hstack : (((R.onState true s).run {}).run state).1.2 = ⟨[top']⟩ := hend
    have hrun : ((R.revise true s).run state).1 =
        (((R.onState true s).run {}).run state).1.2.topState.simplify := rfl
    rw [items_toState_new, List.nil_append] at hadded
    rw [hrun, hstack]
    refine State.simplify_congr ?_
    change State.Item.sameRuns top'.toState.items _ = true
    rw [hadded]
    exact State.Item.sameRuns_symm hsame
  · intro s top below state
    obtain ⟨top', -, hend, -, -⟩ := gathers_onState hR s {} top below state state
    rw [hend]
    exact ⟨rfl, rfl⟩
  · intro body stack state
    exact ((gathers_onState hR body).inOwnBuilder stack stack state state).2

/-! Rules that rename a value, drop the branches, and count the predicates that they see. -/

namespace Dropping

def rules : Rules (StateM Nat) where
  term t := pure (if t.text == "x" then .value t.type "y" else t)
  predicate p := do
    modify (· + 1)
    return if p.isPath then .elide else .keep p

theorem uniform_rules : rules.Uniform where
  term {t t'} h _ _ := by
    change ((if t.text == "x" then Term.value t.type "y" else t) ==
      if t'.text == "x" then Term.value t'.type "y" else t') = true
    rw [Term.text_of_same h, Term.type_of_same h]
    split
    · exact BEq.rfl
    · exact h
  predicate {p q} h _ _ := by
    change Verdict.Agree (if p.isPath then .elide else .keep p)
      (if q.isPath then .elide else .keep q)
    rw [Clause.isPath_congr h]
    split
    · exact .elide
    · exact .keep h

def x : Term := .value .int "x"

def branch (on : Bool) : SymbolicState :=
  .basic [⟨.path, .equal (.value .bool "on") (.bool on), {}⟩, ⟨.state, .equal x (.bool on), {}⟩]

/-- A function whose body branches is assigned where the state branches. -/
def state : SymbolicState :=
  .chain (branch true) (.choice [branch false,
    .basic [⟨.state, .equal (.value .int "f")
      (.lambda .int [x] (.choice [branch true, .empty])), {}⟩]])

/-- The branches are gone, whether builders are used or not. -/
theorem disciplines_of_dropping :
    rules.Uniform ∧
      (((rules.revise true state).run 0).1 == ((rules.revise false state).run 7).1) = true ∧
      ((rules.revise true state).run 0).1.path.isEmpty = true := by
  obtain ⟨hsame, -, -⟩ := laws_of_disciplines uniform_rules
  refine ⟨uniform_rules, hsame state 0 7, ?_⟩
  decide

end Dropping

end Rules
end Concolic
