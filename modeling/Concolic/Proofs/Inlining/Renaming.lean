import Concolic.Proofs.Inlining.Names
import Mathlib.Data.List.Forall2

/-!
# Renaming is substitution

Renaming puts terms in the place of the leaves that name a place, whatever stands around them. Where
nothing in a state is written like something else, no leaf is mistaken for another, and the renamed
state says in an environment what the state says where each leaf stands for what its replacement
means.

## Main statements

* `Interpretation.eval_substitute` — a term with its leaves replaced, in an environment.
* `Renaming.onState_renders` — renaming replaces the leaves of a state.
-/

namespace Concolic

/-! ## Substitution -/

mutual

/-- The term with its leaves replaced. -/
def Term.substitute (f : ValueType → Leaf → Term) : Term → Term
  | .leaf type l => f type l
  | .unary op type a => .unary op type (a.substitute f)
  | .binary op type a b => .binary op type (a.substitute f) (b.substitute f)
  | .ternary op type a b c =>
    .ternary op type (a.substitute f) (b.substitute f) (c.substitute f)
  | .call type method receiver arguments =>
    .call type method (receiver.substitute f) (Term.substituteAll f arguments)
  | .lambda type params body => .lambda type params body

def Term.substituteAll (f : ValueType → Leaf → Term) : List Term → List Term
  | [] => []
  | t :: rest => t.substitute f :: Term.substituteAll f rest

end

def Clause.substitute (f : ValueType → Leaf → Term) (p : Predicate) : Predicate :=
  { p with assertion := p.assertion.map (Term.substitute f) }

/-- Leaves that name a place are replaced by terms that are handed over in the same way. -/
structure Replaces (W : Vocabulary) (N N' : String → Prop) (f : ValueType → Leaf → Term) :
    Prop where
  constant (type : ValueType) {l : Leaf} : ¬l.Names → f type l = .leaf type l
  isOver (type : ValueType) {l : Leaf} : l.Names → l.IsOver W N → (f type l).IsOver W N'
  passing (type : ValueType) {l : Leaf} : l.Names → l.IsOver W N →
    (f type l).passing = (Term.leaf type l).passing

/-- What leaves stand for when they are replaced by terms. -/
def Environment.after {V : Type} (e : Environment V) (I : Interpretation V)
    (f : ValueType → Leaf → Term) : Environment V := fun type l => I.eval e (f type l)

namespace Term

def isLeaf : Term → Bool
  | .leaf _ _ => true
  | _ => false

variable {W : Vocabulary} {N N' : String → Prop} {f : ValueType → Leaf → Term}

theorem substituteAll_eq_map (ts : List Term) : substituteAll f ts = ts.map (substitute f) := by
  induction ts with
  | nil => rfl
  | cons t ts ih => rw [substituteAll, List.map_cons, ih]

mutual

theorem isOver_substitute (hf : Replaces W N N' f) :
    ∀ {t : Term}, t.IsOver W N → (t.substitute f).IsOver W N'
  | .leaf type l, h => by
    rw [substitute]
    by_cases hl : l.Names
    · exact hf.isOver type hl h
    · rw [hf.constant type hl]
      cases l with
      | argument | value | result => exact absurd (by constructor) hl
      | undefined | literal | statics => exact h
  | .unary _ _ _, h => ⟨h.1, isOver_substitute hf h.2⟩
  | .binary _ _ _ _, h => ⟨isOver_substitute hf h.1, isOver_substitute hf h.2⟩
  | .ternary _ _ _ _ _, h =>
    ⟨isOver_substitute hf h.1, isOver_substitute hf h.2.1, isOver_substitute hf h.2.2⟩
  | .call _ _ _ _, h => ⟨h.1, isOver_substitute hf h.2.1, areOver_substituteAll hf h.2.2⟩
  | .lambda _ _ _, h => h.elim

theorem areOver_substituteAll (hf : Replaces W N N' f) :
    ∀ {ts : List Term}, AreOver W N ts → AreOver W N' (substituteAll f ts)
  | [], _ => trivial
  | _ :: _, h => ⟨isOver_substitute hf h.1, areOver_substituteAll hf h.2⟩

end

/-- A term with its leaves replaced is handed over like the term. -/
theorem passing_substitute (hf : Replaces W N N' f) {t : Term} (h : t.IsOver W N) :
    (t.substitute f).passing = t.passing := by
  cases t with
  | leaf type l =>
    rw [substitute]
    by_cases hl : l.Names
    · exact hf.passing type hl h
    · rw [hf.constant type hl]
  | unary | binary | ternary | call | lambda => rfl

end Term

namespace Clause

variable {W : Vocabulary} {N N' : String → Prop} {f : ValueType → Leaf → Term} {p : Predicate}

theorem isOver_substitute (hf : Replaces W N N' f) (hp : p.IsOver W N) :
    (p.substitute f).IsOver W N' := by
  rw [IsOver, substitute, operands, Assertion.operands_map, ← Term.substituteAll_eq_map]
  exact Term.areOver_substituteAll hf hp

/-- A predicate with other operands calls what becomes of the operand. -/
theorem callOf?_map (change : Term → Term) (role : Role) (a : Assertion Term)
    (location : Location) : Inlining.callOf? ⟨role, a.map change, location⟩ =
      (Inlining.callOf? ⟨role, a, location⟩).map fun call =>
        (call.1.map change, change call.2) := by
  cases a with
  | unary verb a => cases verb <;> rfl
  | binary verb a b => cases verb <;> rfl
  | newArray | generate => rfl

theorem callOf?_substitute (f : ValueType → Leaf → Term) (p : Predicate) :
    Inlining.callOf? (p.substitute f) = (Inlining.callOf? p).map fun call =>
      (call.1.map (Term.substitute f), call.2.substitute f) :=
  callOf?_map (Term.substitute f) p.role p.assertion p.location

end Clause

namespace Interpretation

variable {V : Type} {I : Interpretation V} {e : Environment V} {W : Vocabulary}
  {N N' : String → Prop} {f : ValueType → Leaf → Term} {p : Predicate}

mutual

/-- A term with its leaves replaced has the value of the term where each leaf stands for what its
replacement means. -/
theorem eval_substitute (hf : Replaces W N N' f) :
    ∀ {t : Term}, t.IsOver W N → I.eval e (t.substitute f) = I.eval (e.after I f) t
  | .leaf type l, _ => by
    rw [Term.substitute, eval]
    by_cases hl : l.Names
    · rw [if_pos (Leaf.names_iff.mpr hl)]
      rfl
    · rw [hf.constant type hl, eval, if_neg (fun h => hl (Leaf.names_iff.mp h)),
        if_neg (fun h => hl (Leaf.names_iff.mp h))]
  | .unary _ _ _, h => by rw [Term.substitute, eval, eval, eval_substitute hf h.2]
  | .binary _ _ _ _, h => by
    rw [Term.substitute, eval, eval, eval_substitute hf h.1, eval_substitute hf h.2]
  | .ternary _ _ _ _ _, h => by
    rw [Term.substitute, eval, eval, eval_substitute hf h.1, eval_substitute hf h.2.1,
      eval_substitute hf h.2.2]
  | .call _ _ _ _, h => by
    rw [Term.substitute, eval, eval, eval_substitute hf h.2.1, evalAll_substituteAll hf h.2.2]
  | .lambda _ _ _, h => h.elim

theorem evalAll_substituteAll (hf : Replaces W N N' f) :
    ∀ {ts : List Term}, Term.AreOver W N ts →
      I.evalAll e (Term.substituteAll f ts) = I.evalAll (e.after I f) ts
  | [], _ => by rw [Term.substituteAll, evalAll, evalAll]
  | _ :: _, h => by
    rw [Term.substituteAll, evalAll, evalAll, eval_substitute hf h.1,
      evalAll_substituteAll hf h.2]

end

/-- A predicate with its leaves replaced says what the predicate says where each leaf stands for
what its replacement means. -/
theorem holds_substitute (hf : Replaces W N N' f) (hp : p.IsOver W N) (hproper : p.IsProper) :
    I.Holds e (p.substitute f) ↔ I.Holds (e.after I f) p := by
  have hoperands := Term.areOver_iff.mp hp
  rcases hcall : Inlining.callOf? p with _ | ⟨target?, call⟩
  · have hnone := Clause.callOf?_substitute f p
    rw [hcall, Option.map_none] at hnone
    rw [Holds, hnone, Holds, hcall, Clause.substitute, Assertion.map_map,
      Assertion.map_congr p.assertion fun t ht => eval_substitute hf (hoperands t ht)]
  · obtain ⟨type, method, receiver, arguments, rfl⟩ := hproper _ _ hcall
    have hsome := Clause.callOf?_substitute f p
    rw [hcall, Option.map_some, Term.substitute, Term.substituteAll_eq_map] at hsome
    rw [Clause.operands_of_callOf? hcall] at hoperands
    obtain ⟨-, hreceiver, harguments⟩ := hoperands (.call type method receiver arguments)
      (List.mem_append_right _ (List.mem_singleton_self _))
    have hpassed {t : Term} (ht : t.IsOver W N) :
        I.passed e (t.substitute f) = I.passed (e.after I f) t := by
      rw [passed, passed, eval_substitute hf ht, Term.passing_substitute hf ht]
    have harguments : (arguments.map (Term.substitute f)).map (I.passed e) =
        arguments.map (I.passed (e.after I f)) := by
      rw [List.map_map]
      exact List.map_congr_left fun t ht => hpassed (Term.areOver_iff.mp harguments t ht)
    have htarget : (target?.map (Term.substitute f)).map (I.eval e) =
        target?.map (I.eval (e.after I f)) := by
      rw [Option.map_map]
      exact Option.map_congr fun t ht => eval_substitute hf
        (hoperands t (List.mem_append_left _ (Option.mem_toList.mpr ht)))
    rw [holds_call I e hsome, holds_call I (e.after I f) hcall, hpassed hreceiver, harguments,
      htarget]

end Interpretation

/-! ## Renaming terms -/

/-- A part is put in place if it differs from the one that was there. -/
theorem settle_eq {α : Type} [BEq α] {old new : α} (h : (new == old) = true → new = old) :
    settle old new = new := by
  rw [settle]
  split
  · next hsame => exact (h hsame).symm
  · rfl

theorem ite_eq_of_eq {α : Type} {c : Bool} {old new : α} (h : c = true → new = old) :
    (if c = true then old else new) = new := by
  split
  · next hc => exact (h hc).symm
  · rfl

namespace Renaming

variable {W : Vocabulary} {N N' : String → Prop} {r : Renaming}

/-- What a leaf becomes. -/
def image (r : Renaming) (type : ValueType) (l : Leaf) : Term :=
  (r.find? (.leaf type l)).getD
    (if (Term.leaf type l).isNamed then r.suffixed (.leaf type l) else .leaf type l)

/-- Every entry is for a leaf that names a place, and puts a term there that is handed over in the
same way; other such leaves get names of a certain sort. -/
structure IsOver (r : Renaming) (W : Vocabulary) (N N' : String → Prop) : Prop where
  leaf {key replacement : Term} : (key, replacement) ∈ r.entries →
    ∃ type l, key = .leaf type l ∧ l.Names ∧ l.IsOver W N
  isOver {key replacement : Term} : (key, replacement) ∈ r.entries → replacement.IsOver W N'
  passing {key replacement : Term} : (key, replacement) ∈ r.entries →
    replacement.passing = key.passing
  suffixed (type : ValueType) {l : Leaf} : l.Names → l.IsOver W N →
    N' (l.text type ++ "." ++ r.suffix)

theorem exists_entry {t replacement : Term} (h : r.find? t = some replacement) :
    ∃ key, (key, replacement) ∈ r.entries ∧ (key == t) = true := by
  obtain ⟨entry, hentry, rfl⟩ := Option.map_eq_some_iff.mp h
  have hsame := List.find?_some hentry
  exact ⟨entry.1, List.mem_of_find?_eq_some hentry, hsame⟩

/-- There are entries for leaves only. -/
def HasLeafKeys (r : Renaming) : Prop :=
  ∀ key replacement, (key, replacement) ∈ r.entries → ∃ type l, key = .leaf type l

theorem IsOver.hasLeafKeys (hr : r.IsOver W N N') : r.HasLeafKeys := fun _ _ hentry =>
  let ⟨type, l, hkey, _⟩ := hr.leaf hentry
  ⟨type, l, hkey⟩

theorem find?_compound (hr : r.HasLeafKeys) {t : Term} (ht : t.isLeaf = false) :
    r.find? t = none := by
  rw [Option.eq_none_iff_forall_ne_some]
  intro replacement h
  obtain ⟨key, hentry, hsame⟩ := exists_entry h
  obtain ⟨type, l, rfl⟩ := hr _ _ hentry
  cases t with
  | leaf => cases ht
  | unary | binary | ternary | call | lambda => cases hsame

theorem find?_constant (hr : r.IsOver W N N') (type : ValueType) {l : Leaf} (hl : ¬l.Names) :
    r.find? (.leaf type l) = none := by
  rw [Option.eq_none_iff_forall_ne_some]
  intro replacement h
  obtain ⟨key, hentry, hsame⟩ := exists_entry h
  obtain ⟨type', k, rfl, hk, -⟩ := hr.leaf hentry
  have hsame : (k == l) = true := (Bool.and_eq_true_iff.mp hsame).2
  rw [Leaf.beq_iff_signature] at hsame
  cases l with
  | argument | value | result => exact hl (by constructor)
  | undefined | literal | statics => cases hk <;> simp [Leaf.signature] at hsame

theorem replaces (hr : r.IsOver W N N') : Replaces W N N' r.image := by
  refine ⟨fun type l hl => ?_, fun type l hl hw => ?_, fun type l hl hw => ?_⟩
  · rw [image, find?_constant hr type hl, Option.getD_none,
      if_neg fun h => hl (Leaf.names_iff.mp h)]
  · rw [image, if_pos (Leaf.names_iff.mpr hl)]
    cases hfind : r.find? (.leaf type l) with
    | none => exact hr.suffixed type hl hw
    | some replacement =>
      obtain ⟨key, hentry, -⟩ := exists_entry hfind
      exact hr.isOver hentry
  · rw [image, if_pos (Leaf.names_iff.mpr hl)]
    cases hfind : r.find? (.leaf type l) with
    | none => cases hl <;> rfl
    | some replacement =>
      obtain ⟨key, hentry, hsame⟩ := exists_entry hfind
      obtain ⟨type', k, rfl, hk, hwk⟩ := hr.leaf hentry
      have hkey : Term.leaf type' k = .leaf type l := Term.eq_of_same hwk hw hsame
      rw [Option.getD_some, hr.passing hentry, hkey]

/-- A leaf that names a place gives way to an entry for it, or gets the suffix. -/
theorem image_cases (hr : r.IsOver W N N') (type : ValueType) {l : Leaf} (hl : l.Names)
    (hw : l.IsOver W N) :
    (.leaf type l, r.image type l) ∈ r.entries ∨
      (∀ replacement, (.leaf type l, replacement) ∉ r.entries) ∧
        r.image type l = r.suffixed (.leaf type l) := by
  cases hfind : r.find? (.leaf type l) with
  | none =>
    refine .inr ⟨fun replacement hmem => ?_, ?_⟩
    · have hnone := List.find?_eq_none.mp (Option.map_eq_none_iff.mp hfind) _ hmem
      exact hnone BEq.rfl
    · rw [image, hfind, Option.getD_none, if_pos (Leaf.names_iff.mpr hl)]
  | some replacement =>
    obtain ⟨key, hentry, hsame⟩ := exists_entry hfind
    obtain ⟨type', k, rfl, -, hwk⟩ := hr.leaf hentry
    have hkey : Term.leaf type' k = .leaf type l := Term.eq_of_same hwk hw hsame
    rw [image, hfind, Option.getD_some, ← hkey]
    exact .inl hentry

theorem around_compound (hr : r.HasLeafKeys) {t rebuilt : Term} (ht : t.isLeaf = false)
    (hrebuilt : rebuilt.isLeaf = false) : r.rules.around t (pure rebuilt) = pure rebuilt := by
  have hnamed : rebuilt.isNamed = false := by
    cases rebuilt with
    | leaf => cases hrebuilt
    | unary | binary | ternary | call | lambda => rfl
  have hterm : r.rules.term rebuilt = pure rebuilt := if_neg (by simp [hnamed])
  have hshortcut : r.rules.shortcut t = none := find?_compound hr ht
  rw [Rules.around, hshortcut]
  dsimp only
  rw [pure_bind, hterm]
  rfl

theorem around_leaf (r : Renaming) (type : ValueType) (l : Leaf) :
    r.rules.around (.leaf type l) (pure (.leaf type l)) = pure (r.image type l) := by
  have hshortcut : r.rules.shortcut (.leaf type l) = r.find? (.leaf type l) := rfl
  rw [Rules.around, image, hshortcut]
  cases r.find? (.leaf type l) with
  | none => rfl
  | some replacement => rfl

mutual

/-- Renaming replaces the leaves of a term. -/
theorem onTerm_eq (hr : r.IsOver W N N') :
    ∀ {t : Term}, t.IsOver W N → r.rules.onTerm false t = pure (t.substitute r.image)
  | .leaf type l, _ => by rw [Rules.onTerm, around_leaf, Term.substitute]
  | .unary op type a, h => by
    have ha := Term.isOver_substitute (replaces hr) h.2
    rw [Rules.onTerm, onTerm_eq hr h.2, pure_bind, ite_eq_of_eq,
      around_compound hr.hasLeafKeys rfl rfl, Term.substitute]
    intro hsame
    rw [Term.eq_of_same ha h.2 hsame]
  | .binary op type a b, h => by
    have ha := Term.isOver_substitute (replaces hr) h.1
    have hb := Term.isOver_substitute (replaces hr) h.2
    rw [Rules.onTerm, onTerm_eq hr h.1, onTerm_eq hr h.2, pure_bind, pure_bind, ite_eq_of_eq,
      around_compound hr.hasLeafKeys rfl rfl, Term.substitute]
    intro hsame
    rw [Bool.and_eq_true] at hsame
    rw [Term.eq_of_same ha h.1 hsame.1, Term.eq_of_same hb h.2 hsame.2]
  | .ternary op type a b c, h => by
    have ha := Term.isOver_substitute (replaces hr) h.1
    have hb := Term.isOver_substitute (replaces hr) h.2.1
    have hc := Term.isOver_substitute (replaces hr) h.2.2
    rw [Rules.onTerm, onTerm_eq hr h.1, onTerm_eq hr h.2.1, onTerm_eq hr h.2.2, pure_bind,
      pure_bind, pure_bind, ite_eq_of_eq, around_compound hr.hasLeafKeys rfl rfl, Term.substitute]
    intro hsame
    rw [Bool.and_eq_true, Bool.and_eq_true] at hsame
    rw [Term.eq_of_same ha h.1 hsame.1.1, Term.eq_of_same hb h.2.1 hsame.1.2,
      Term.eq_of_same hc h.2.2 hsame.2]
  | .call type method receiver arguments, h => by
    have hreceiver := Term.isOver_substitute (replaces hr) h.2.1
    have harguments := Term.areOver_substituteAll (replaces hr) h.2.2
    rw [Rules.onTerm, onTerm_eq hr h.2.1, onTerms_eq hr h.2.2, pure_bind, pure_bind, ite_eq_of_eq,
      around_compound hr.hasLeafKeys rfl rfl, Term.substitute]
    intro hsame
    rw [Bool.and_eq_true] at hsame
    rw [Term.eq_of_same hreceiver h.2.1 hsame.1, Term.eqAll_of_beq harguments h.2.2 hsame.2]
  | .lambda _ _ _, h => h.elim

theorem onTerms_eq (hr : r.IsOver W N N') : ∀ {ts : List Term}, Term.AreOver W N ts →
    r.rules.onTerms false ts = pure (Term.substituteAll r.image ts)
  | [], _ => by rw [Rules.onTerms, Term.substituteAll]
  | _ :: _, h => by
    rw [Rules.onTerms, onTerm_eq hr h.1, onTerms_eq hr h.2, pure_bind, pure_bind,
      Term.substituteAll]

end

end Renaming

/-! ## Renaming predicates -/

namespace Rules

variable {m : Type → Type} [Monad m] [LawfulMonad m] {R : Rules m} {recollecting : Bool}
  {change : Term → Term}

theorem onTerms_of_pure {ts : List Term}
    (h : ∀ t ∈ ts, R.onTerm recollecting t = pure (change t)) :
    R.onTerms recollecting ts = pure (ts.map change) := by
  induction ts with
  | nil => rw [onTerms, List.map_nil]
  | cons t ts ih =>
    rw [List.forall_mem_cons] at h
    rw [onTerms, h.1, ih h.2, pure_bind, pure_bind, List.map_cons]

/-- Where terms are changed without effects, so are assertions. -/
theorem onAssertion_of_pure {a : Assertion Term}
    (h : ∀ t ∈ a.operands, R.onTerm recollecting t = pure (change t)) :
    R.onAssertion recollecting a = pure (a.map change) := by
  cases a with
  | unary verb a =>
    rw [onAssertion, h a (by simp [Assertion.operands]), pure_bind, Assertion.map]
  | binary verb a b =>
    rw [onAssertion, h a (by simp [Assertion.operands]), h b (by simp [Assertion.operands]),
      pure_bind, pure_bind, Assertion.map]
  | newArray array dimensions =>
    rw [onAssertion, h array (by simp [Assertion.operands]),
      onTerms_of_pure fun t ht => h t (List.mem_cons_of_mem _ ht), pure_bind, pure_bind,
      Assertion.map]
  | generate array length generator =>
    rw [onAssertion, h array (by simp [Assertion.operands]),
      h length (by simp [Assertion.operands]), h generator (by simp [Assertion.operands]),
      pure_bind, pure_bind, pure_bind, Assertion.map]

end Rules

namespace Renaming

variable {W : Vocabulary} {N N' : String → Prop} {r : Renaming} {p : Predicate}

theorem onPredicate_eq (hr : r.IsOver W N N') (hp : p.IsOver W N) :
    r.rules.onPredicate false p = pure (.keep (p.substitute r.image)) := by
  have hover := Clause.isOver_substitute (replaces hr) hp
  have hsettle : settle p.assertion (p.assertion.map (Term.substitute r.image)) =
      (p.substitute r.image).assertion :=
    settle_eq fun hsame => Clause.assertion_eq_of_beq hover hp hsame
  obtain ⟨role, assertion, location⟩ := p
  rw [Rules.onPredicate,
    Rules.onAssertion_of_pure fun t ht => onTerm_eq hr (Term.areOver_iff.mp hp t ht), pure_bind,
    hsettle]
  rfl

theorem onParts_eq (hr : r.IsOver W N N') {parts : List Predicate}
    (h : ∀ p ∈ parts, p.IsOver W N) :
    r.rules.onParts false parts = pure (parts.map (Clause.substitute r.image)) := by
  induction parts with
  | nil => rw [Rules.onParts, List.map_nil]
  | cons p parts ih =>
    rw [List.forall_mem_cons] at h
    rw [Rules.onParts, onPredicate_eq hr h.1, pure_bind]
    dsimp only
    rw [Rules.build, if_neg Bool.false_ne_true, pure_bind, ih h.2, pure_bind, List.map_cons]

end Renaming

/-! ## Walks that return states -/

namespace Rules

variable {m : Type → Type} [Monad m] {R : Rules m} {among : Predicate → Prop}
  {Rel : SymbolicState → SymbolicState → Prop}

/-- Over runs of certain predicates the plain walk has no effects and gives runs that stand in a
relation to the old ones, and the relation is kept where states are put together. -/
structure BringsAbout (R : Rules m) (among : Predicate → Prop)
    (Rel : SymbolicState → SymbolicState → Prop) : Prop where
  basic {parts : List Predicate} : (∀ p ∈ parts, among p) →
    ∃ parts', R.onParts false parts = pure parts' ∧
      Rel (.basic (settle parts parts')) (.basic parts)
  chain {s s' t t' : SymbolicState} : Rel s' s → Rel t' t → Rel (.chain s' t') (.chain s t)
  choice {alternatives alternatives' : List SymbolicState} :
    List.Forall₂ Rel alternatives' alternatives → Rel (.choice alternatives') (.choice alternatives)
  /-- A state may stay if it is the same as what replaces it. -/
  stay {s s' : SymbolicState} : (∀ p, s.Occurs p → among p) → Rel s' s → (s' == s) = true → Rel s s

namespace BringsAbout

theorem settle (h : R.BringsAbout among Rel) {alternatives alternatives' : List SymbolicState}
    (hall : List.Forall₂ Rel alternatives' alternatives)
    (hamong : ∀ s ∈ alternatives, ∀ p, s.Occurs p → among p) :
    List.Forall₂ Rel (settle alternatives alternatives') alternatives := by
  rw [Concolic.settle]
  split
  · next hsame =>
    induction hall with
    | nil => exact .nil
    | cons hs _ ih =>
      rw [List.cons_beq_cons, Bool.and_eq_true] at hsame
      rw [List.forall_mem_cons] at hamong
      exact .cons (h.stay hamong.1 hs hsame.1) (ih hamong.2 hsame.2)
  · exact hall

variable [LawfulMonad m]

mutual

theorem exists_onState (h : R.BringsAbout among Rel) :
    ∀ {s : SymbolicState}, (∀ p, s.Occurs p → among p) →
      ∃ s', R.onState false s = pure s' ∧ Rel s' s
  | .basic parts, hamong => by
    obtain ⟨parts', hrun, hparts⟩ := h.basic fun p hp => hamong p (.basic hp)
    rw [onState, hrun, pure_bind]
    exact ⟨_, rfl, hparts⟩
  | .chain s t, hamong => by
    have hamongs : ∀ p, s.Occurs p → among p := fun p hp => hamong p (.first hp)
    have hamongt : ∀ p, t.Occurs p → among p := fun p hp => hamong p (.second hp)
    obtain ⟨s', hruns, hs⟩ := exists_onState h hamongs
    obtain ⟨t', hrunt, ht⟩ := exists_onState h hamongt
    rw [onState, hruns, hrunt, pure_bind, pure_bind]
    refine ⟨_, rfl, ?_⟩
    split
    · next hsame =>
      rw [Bool.and_eq_true] at hsame
      exact h.chain (h.stay hamongs hs hsame.1) (h.stay hamongt ht hsame.2)
    · exact h.chain hs ht
  | .choice alternatives, hamong => by
    have hamongs : ∀ s ∈ alternatives, ∀ p, s.Occurs p → among p := fun s hs p hp =>
      hamong p (.choice hs hp)
    obtain ⟨alternatives', hrun, hall⟩ := exists_onAlternatives h hamongs
    rw [onState, hrun, pure_bind, build, if_neg Bool.false_ne_true, pure_bind]
    exact ⟨_, rfl, h.choice (h.settle hall hamongs)⟩

theorem exists_onAlternatives (h : R.BringsAbout among Rel) :
    ∀ {alternatives : List SymbolicState},
      (∀ s ∈ alternatives, ∀ p, s.Occurs p → among p) →
      ∃ alternatives', R.onAlternatives false alternatives = pure alternatives' ∧
        List.Forall₂ Rel alternatives' alternatives
  | [], _ => by
    rw [onAlternatives]
    exact ⟨[], rfl, .nil⟩
  | s :: rest, hamong => by
    rw [List.forall_mem_cons] at hamong
    obtain ⟨s', hrun, hs⟩ := exists_onState h hamong.1
    obtain ⟨rest', hrunRest, hrest⟩ := exists_onAlternatives h hamong.2
    rw [onAlternatives, inOwnBuilder, if_neg Bool.false_ne_true, hrun, hrunRest, pure_bind,
      pure_bind]
    exact ⟨_, rfl, .cons hs hrest⟩

end

end BringsAbout
end Rules

/-- Renaming gives what the walk brings about, simplified. -/
theorem Renaming.exists_onState_eq {r : Renaming} {among : Predicate → Prop}
    {Rel : SymbolicState → SymbolicState → Prop} (h : r.rules.BringsAbout among Rel)
    {s : SymbolicState} (hs : ∀ p, s.Occurs p → among p) :
    ∃ s', r.onState s = s'.simplify ∧ Rel s' s := by
  obtain ⟨s', hrun, hrel⟩ := h.exists_onState hs
  refine ⟨s', ?_, hrel⟩
  rw [onState, Rules.revise, hrun]
  rfl

/-! ## Renaming states -/

namespace State

variable {f : ValueType → Leaf → Term} {s s' t t' : SymbolicState}
  {alternatives alternatives' : List SymbolicState} {W : Vocabulary} {N N' : String → Prop}

/-- The state says what another says with its leaves replaced. -/
structure Renders (f : ValueType → Leaf → Term) (s' s : SymbolicState) : Prop where
  occurs (p : Predicate) : s'.Occurs p → s.Occurs p ∨ ∃ q, s.Occurs q ∧ p = q.substitute f
  satisfiedBy {V : Type} (I : Interpretation V) (e : Environment V) :
    s'.SatisfiedBy (I.Holds e) ↔ s.SatisfiedBy fun p => I.Holds e (p.substitute f)

theorem Renders.isOver (h : Renders f s' s) (hf : Replaces W N N' f)
    (hs : ∀ p, s.Occurs p → p.IsOver W N) {p : Predicate} (hp : s'.Occurs p) :
    p.IsOver W N ∨ p.IsOver W N' := by
  rcases h.occurs p hp with hp | ⟨q, hq, rfl⟩
  · exact .inl (hs p hp)
  · exact .inr (Clause.isOver_substitute hf (hs q hq))

theorem Renders.basic (parts : List Predicate) :
    Renders f (.basic (parts.map (Clause.substitute f))) (.basic parts) := by
  refine ⟨fun p hp => ?_, fun I e => by simp⟩
  cases hp with
  | basic hmem =>
    obtain ⟨q, hq, rfl⟩ := List.mem_map.mp hmem
    exact .inr ⟨q, .basic hq, rfl⟩

theorem Renders.chain (hs : Renders f s' s) (ht : Renders f t' t) :
    Renders f (.chain s' t') (.chain s t) := by
  refine ⟨fun p hp => ?_, fun I e => ?_⟩
  · cases hp with
    | first hp => exact (hs.occurs p hp).imp .first fun ⟨q, hq, h⟩ => ⟨q, .first hq, h⟩
    | second hp => exact (ht.occurs p hp).imp .second fun ⟨q, hq, h⟩ => ⟨q, .second hq, h⟩
  · rw [satisfiedBy_chain, satisfiedBy_chain, hs.satisfiedBy, ht.satisfiedBy]

theorem Renders.choice (h : List.Forall₂ (Renders f) alternatives' alternatives) :
    Renders f (.choice alternatives') (.choice alternatives) := by
  refine ⟨fun p hp => ?_, fun I e =>
    satisfiedBy_choice_congr (h.imp fun _ _ hs => hs.satisfiedBy I e)⟩
  cases hp with
  | choice hmem hp =>
    obtain ⟨s, hs, hrenders⟩ := exists_of_forall₂ h _ hmem
    exact (hrenders.occurs p hp).imp (.choice hs) fun ⟨q, hq, heq⟩ => ⟨q, .choice hs hq, heq⟩

/-- A state may stay if it is the same as what replaces it. -/
theorem Renders.of_beq (h : Renders f s' s) (hf : Replaces W N N' f)
    (hs : ∀ p, s.Occurs p → p.IsOver W N) (hsame : (s' == s) = true) : Renders f s s := by
  refine ⟨fun p hp => .inl hp, fun I e => ?_⟩
  rw [← h.satisfiedBy I e]
  refine (satisfiedBy_of_beq (fun p hp => h.isOver hf hs hp) (fun p hp => .inl (hs p hp))
    (fun p q hp hq hpq => ?_) hsame).symm
  rcases hp with hp | hp <;> rcases hq with hq | hq <;> exact I.holds_of_beq hp hq hpq

theorem Renders.simplify (h : Renders f s' s) (hf : Replaces W N N' f)
    (hs : ∀ p, s.Occurs p → p.IsOver W N) : Renders f s'.simplify s := by
  refine ⟨fun p hp => h.occurs p (occurs_of_simplify hp), fun I e => ?_⟩
  rw [← h.satisfiedBy I e]
  refine satisfiedBy_simplify fun p q hp hq hpq => ?_
  rcases h.isOver hf hs hp with hp | hp <;> rcases h.isOver hf hs hq with hq | hq <;>
    exact I.holds_of_beq hp hq hpq

end State

namespace Renaming

variable {W : Vocabulary} {N N' : String → Prop} {r : Renaming} {s : SymbolicState}

theorem bringsAbout_renders (hr : r.IsOver W N N') :
    r.rules.BringsAbout (·.IsOver W N) (State.Renders r.image) where
  basic {parts} hparts := by
    refine ⟨_, onParts_eq hr hparts, ?_⟩
    rw [settle_eq]
    · exact .basic parts
    · intro hsame
      induction parts with
      | nil => rfl
      | cons p parts ih =>
        rw [List.forall_mem_cons] at hparts
        rw [List.map_cons, List.cons_beq_cons, Bool.and_eq_true] at hsame
        have hassertion := Clause.assertion_eq_of_beq
          (Clause.isOver_substitute (replaces hr) hparts.1) hparts.1 (Clause.beq_iff.mp hsame.1).2
        have hp : p.substitute r.image = p := by
          obtain ⟨role, assertion, location⟩ := p
          exact congrArg (Clause.mk role · location) hassertion
        rw [List.map_cons, hp, ih hparts.2 hsame.2]
  chain := .chain
  choice := .choice
  stay hs h := h.of_beq (replaces hr) hs

/-- Renaming replaces the leaves of a state. -/
theorem onState_renders (hr : r.IsOver W N N') (h : ∀ p, s.Occurs p → p.IsOver W N) :
    State.Renders r.image (r.onState s) s := by
  obtain ⟨s', honState, hrenders⟩ := exists_onState_eq (bringsAbout_renders hr) h
  rw [honState]
  exact hrenders.simplify (replaces hr) h

end Renaming
end Concolic
