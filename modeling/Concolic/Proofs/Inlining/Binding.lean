import Concolic.Proofs.Inlining.Renaming

/-!
# Binding the operands of a call

A call of an inlined method may be made just when the body can be satisfied in some environment in
which the receiver, the parameters and the result stand for the values of the call. Operands that
are null, or references of another type than declared, come to whatever the definitions that are
made for them allow.

## Main statements

* `exists_binding` — binding an operand gives a term that stands for it.
* `bindAll_bindings` — binding all operands of a call.
-/

namespace Concolic

/-! ## Calls and what they mean -/

namespace Interpretation

variable {V : Type}

/-- The value that an operand comes to where a type is declared: what is equal to null for null, for
a reference of another type what is equal to its cast, and else the value of the operand. -/
def Binds (I : Interpretation V) (declared : ValueType) (actual : Passed V) (x : V) : Prop :=
  match actual.passing with
  | .null => I.relation .state (.equal x (I.constant .null (.literal .null)))
  | .reference type =>
    if declared.isPointer = true ∧ type ≠ declared then
      I.relation .state (.equal x (I.unary .cast declared actual.value))
    else x = actual.value
  | .plain => x = actual.value

/-- The names of a method stand for the operands and the result of a call. -/
structure Enters (I : Interpretation V) (info : MethodInfo) (method : Method)
    (receiver : Passed V) (arguments : List (Passed V)) (result? : Option V)
    (w : Environment V) : Prop where
  receiver : info.isStatic = false →
    I.Binds info.ownerType receiver (w info.ownerType (.value "this"))
  argument (index : Nat) (actual : Passed V) (declared : ValueType) :
    arguments[index]? = some actual → info.arguments[index]? = some declared →
      I.Binds declared actual (w declared (.argument index))
  result (x : V) : result? = some x → w info.result (.result method) = x

end Interpretation

namespace Inlining

/-- Calls of the method are replaced by the body. -/
structure Setting.Inlines (S : Setting) (method : Method) (info : MethodInfo)
    (body : SymbolicState) : Prop where
  known : S.program.method? method = some info
  admitted : S.admits info = true
  stated : S.program.body? info.method = .ok (some body)
  nonempty : body.isEmpty = false

/-- A call of an inlined method may be made just when its body can be satisfied in some environment
that the call enters. -/
def IsFaithful {V : Type} (S : Setting) (I : Interpretation V) : Prop :=
  ∀ method info body, S.Inlines method info body → ∀ receiver arguments result?,
    I.invokes method receiver arguments result? ↔
      ∃ w, I.Enters info method receiver arguments result? w ∧ body.SatisfiedBy (I.Holds w)

/-- The operands of a call go with the declared types, and what takes the result is handed over like
a term of the declared one. -/
structure IsTyped (info : MethodInfo) (target? : Option Term) (receiver : Term)
    (arguments : List Term) : Prop where
  receiver : info.isStatic = false → receiver.passing.Suits info.ownerType
  argument (index : Nat) (actual : Term) (declared : ValueType) :
    arguments[index]? = some actual → info.arguments[index]? = some declared →
      actual.passing.Suits declared
  target (t : Term) : target? = some t → t.passing = .ofType info.result

end Inlining

open Inlining in
/-- The predicate is over a vocabulary, and what it calls is a call that is well typed if it is
inlined. -/
structure Clause.Fits (p : Predicate) (S : Setting) (W : Vocabulary) (N : String → Prop) : Prop where
  isOver : p.IsOver W N
  isProper : p.IsProper
  isTyped {target? : Option Term} {type : ValueType} {method : Method} {receiver : Term}
      {arguments : List Term} {info : MethodInfo} {body : SymbolicState} :
    callOf? p = some (target?, .call type method receiver arguments) → S.Inlines method info body →
      IsTyped info target? receiver arguments

namespace Clause.Fits

open Inlining

variable {p : Predicate} {S : Setting} {W : Vocabulary} {N N' : String → Prop}

theorem mono (h : p.Fits S W N) (hN : ∀ name, N name → N' name) : p.Fits S W N' :=
  ⟨Clause.IsOver.mono h.isOver hN, h.isProper, h.isTyped⟩

theorem of_callOf?_eq_none (hover : p.IsOver W N) (hcall : callOf? p = none) : p.Fits S W N :=
  ⟨hover, fun _ _ h => (by rw [hcall] at h; cases h), fun h => by rw [hcall] at h; cases h⟩

/-- Terms that are handed over alike may be put in the place of leaves. -/
theorem substitute {f : ValueType → Leaf → Term} (h : p.Fits S W N) (hf : Replaces W N N' f) :
    (p.substitute f).Fits S W N' := by
  have hover := h.isOver
  refine ⟨Clause.isOver_substitute hf hover, fun target? call hcall => ?_,
    fun {target? type method receiver arguments info body} hcall hinlines => ?_⟩
  all_goals
    rw [Clause.callOf?_substitute] at hcall
    obtain ⟨⟨target₀?, call₀⟩, hcall₀, heq⟩ := Option.map_eq_some_iff.mp hcall
    obtain ⟨type₀, method₀, receiver₀, arguments₀, rfl⟩ := h.isProper _ _ hcall₀
  · obtain ⟨-, rfl⟩ := Prod.mk.inj heq
    exact ⟨_, _, _, _, rfl⟩
  · obtain ⟨rfl, hcalls⟩ := Prod.mk.inj heq
    rw [Term.substitute, Term.substituteAll_eq_map] at hcalls
    obtain ⟨rfl, rfl, rfl, rfl⟩ := Term.call.inj hcalls
    have htyped := h.isTyped hcall₀ hinlines
    rw [Clause.IsOver, Clause.operands_of_callOf? hcall₀, Term.areOver_iff] at hover
    obtain ⟨-, hreceiver, harguments⟩ := hover _ (List.mem_append_right _ (List.mem_singleton_self _))
    refine ⟨fun hstatic => ?_, fun index actual declared hactual hdeclared => ?_, fun t ht => ?_⟩
    · rw [Term.passing_substitute hf hreceiver]
      exact htyped.receiver hstatic
    · rw [List.getElem?_map] at hactual
      obtain ⟨a, ha, rfl⟩ := Option.map_eq_some_iff.mp hactual
      rw [Term.passing_substitute hf (Term.areOver_iff.mp harguments a (List.mem_of_getElem? ha))]
      exact htyped.argument index a declared ha hdeclared
    · obtain ⟨t₀, ht₀, rfl⟩ := Option.map_eq_some_iff.mp ht
      rw [Term.passing_substitute hf
        (hover t₀ (List.mem_append_left _ (Option.mem_toList.mpr ht₀)))]
      exact htyped.target t₀ ht₀

end Clause.Fits

namespace Interpretation

variable {V : Type} {I : Interpretation V} {e : Environment V}

theorem eval_null : I.eval e .null = I.constant .null (.literal .null) := rfl

theorem eval_value (type : ValueType) (name : String) :
    I.eval e (.value type name) = e type (.value name) := rfl

theorem eval_names {type : ValueType} {l : Leaf} (hl : l.Names) :
    I.eval e (.leaf type l) = e type l := by
  rw [eval, if_pos (Leaf.names_iff.mpr hl)]

end Interpretation

/-! ## Binding an operand -/

namespace Environment

variable {V : Type}

/-- The environment with another value for the values of some name. -/
def set (e : Environment V) (name : String) (x : V) : Environment V
  | type, .value n => if n = name then x else e type (.value n)
  | type, l => e type l

theorem set_self (e : Environment V) (type : ValueType) (name : String) (x : V) :
    e.set name x type (.value name) = x := by
  rw [set, if_pos rfl]

theorem set_agreesOn {N : String → Prop} {name : String} (h : ¬N name) (e : Environment V) (x : V) :
    (e.set name x).AgreesOn N e := by
  intro type l hl
  cases l with
  | value n =>
    have hne : n ≠ name := fun heq => h (heq ▸ hl n rfl)
    rw [set, if_neg hne]
  | argument | result | undefined | literal | statics => rfl

end Environment

namespace Inlining

/-- The definition of the term with a fresh name that stands for an operand. -/
def definition (declared : ValueType) (number : Nat) (t : Term) : Predicate :=
  ⟨.state, .equal (.value declared (NameSupply.name number)) t, {}⟩

/-- An operand stands for itself, handed over as declared, or a fresh name that is defined to be
equal to null or to its cast stands for it. -/
theorem bind_cases (actual : Term) {declared : ValueType} (used : Nat)
    (hsuits : actual.passing.Suits declared) :
    ((bind actual declared).run ⟨used⟩ = ((actual, []), ⟨used⟩) ∧
        actual.passing = .ofType declared ∧
        ∀ {V : Type} (I : Interpretation V) e x,
          I.Binds declared (I.passed e actual) x ↔ x = I.eval e actual) ∨
      ∃ t, (t = .null ∨ t = .cast declared actual) ∧
        (bind actual declared).run ⟨used⟩ =
          ((.value declared (NameSupply.name used), [definition declared used t]), ⟨used + 1⟩) ∧
        ∀ {V : Type} (I : Interpretation V) e x,
          I.Binds declared (I.passed e actual) x ↔ I.relation .state (.equal x (I.eval e t)) := by
  rw [bind]
  by_cases hnull : actual.isNull = true
  · have hpassing : actual.passing = .null := if_pos hnull
    rw [if_pos hnull]
    refine .inr ⟨.null, .inl rfl, rfl, fun I e x => ?_⟩
    simp only [Interpretation.Binds, Interpretation.passed, hpassing, Interpretation.eval_null]
  · rw [if_neg hnull]
    have hpassing : actual.passing = .ofType actual.type := if_neg hnull
    rw [Passing.ofType] at hpassing
    by_cases hpointer : actual.type.isPointer = true
    · rw [if_pos hpointer] at hpassing
      rw [hpassing] at hsuits
      have hdeclared : declared.isPointer = true := hsuits
      by_cases htype : actual.type = declared
      · rw [if_neg (by simp [htype])]
        refine .inl ⟨rfl, by rw [hpassing, Passing.ofType, if_pos hdeclared, htype],
          fun I e x => ?_⟩
        simp only [Interpretation.Binds, Interpretation.passed, hpassing, htype]
        simp
      · rw [if_pos (by simp [hpointer, hdeclared, htype])]
        refine .inr ⟨.cast declared actual, .inr rfl, rfl, fun I e x => ?_⟩
        simp only [Interpretation.Binds, Interpretation.passed, hpassing]
        rw [if_pos ⟨hdeclared, htype⟩]
        rfl
    · rw [if_neg hpointer] at hpassing
      rw [hpassing] at hsuits
      have hdeclared : declared.isPointer = false := hsuits
      rw [if_neg (by simp [hdeclared])]
      refine .inl ⟨rfl, by simp [hpassing, Passing.ofType, hdeclared], fun I e x => ?_⟩
      simp only [Interpretation.Binds, Interpretation.passed, hpassing]

variable {W : Vocabulary} {next used used' : Nat} {formal actual : Term} {declared : ValueType}

/-- An operand is bound: the term that stands for it in the body, and what defines that term. -/
structure Binding (W : Vocabulary) (next used used' : Nat) (actual : Term) (declared : ValueType)
    (stand : Term) (defining : List Predicate) : Prop where
  used_le : used ≤ used'
  isOver : stand.IsOver W (IsOlder next used')
  passing : stand.passing = .ofType declared
  defines {p : Predicate} : p ∈ defining → p.IsOver W (IsOlder next used') ∧ callOf? p = none
  /-- Where the definitions hold, what stands for the operand has a value the operand comes to. -/
  binds {V : Type} (I : Interpretation V) (e : Environment V) : (∀ p ∈ defining, I.Holds e p) →
    I.Binds declared (I.passed e actual) (I.eval e stand)
  /-- Whatever value the operand comes to, a name can be given out that makes the definitions hold
  and stands for it. -/
  attains {V : Type} (I : Interpretation V) (e : Environment V) (x : V) :
    I.Binds declared (I.passed e actual) x →
      ∃ e', e'.AgreesOn (IsOlder next used) e ∧ (∀ p ∈ defining, I.Holds e' p) ∧ I.eval e' stand = x

/-- An operand that stands for itself. -/
theorem Binding.direct (hactual : actual.IsOver W (IsOlder next used))
    (hpassing : actual.passing = .ofType declared)
    (hbinds : ∀ {V : Type} (I : Interpretation V) e x,
      I.Binds declared (I.passed e actual) x ↔ x = I.eval e actual) :
    Binding W next used used actual declared actual [] where
  used_le := le_rfl
  isOver := hactual
  passing := hpassing
  defines := nofun
  binds I e _ := (hbinds I e _).mpr rfl
  attains I e x hx := ⟨e, fun _ _ _ => rfl, nofun, ((hbinds I e x).mp hx).symm⟩

/-- An operand that a fresh name stands for. -/
theorem Binding.fresh {t : Term} (ht : t.IsOver W (IsOlder next used))
    (hbinds : ∀ {V : Type} (I : Interpretation V) e x,
      I.Binds declared (I.passed e actual) x ↔ I.relation .state (.equal x (I.eval e t))) :
    Binding W next used (used + 1) actual declared (.value declared (NameSupply.name used))
      [definition declared used t] where
  used_le := Nat.le_succ used
  isOver := isOlder_supplied (Nat.lt_succ_self used) next
  passing := rfl
  defines hmem := by
    obtain rfl := List.mem_singleton.mp hmem
    exact ⟨⟨isOlder_supplied (Nat.lt_succ_self used) next,
      ht.mono fun _ hname => hname.mono le_rfl (Nat.le_succ used), trivial⟩, rfl⟩
  binds I e hholds := (hbinds I e _).mpr (hholds _ (List.mem_singleton_self _))
  attains I e x hx := by
    have hset : (e.set (NameSupply.name used) x).AgreesOn (IsOlder next used) e :=
      e.set_agreesOn (fun h => h.not_supplied used le_rfl rfl) x
    have hvalue : I.eval (e.set (NameSupply.name used) x)
        (.value declared (NameSupply.name used)) = x := by
      rw [I.eval_value, Environment.set_self]
    refine ⟨e.set (NameSupply.name used) x, hset, fun p hp => ?_, hvalue⟩
    obtain rfl := List.mem_singleton.mp hp
    change I.relation .state (.equal (I.eval (e.set (NameSupply.name used) x)
      (.value declared (NameSupply.name used))) (I.eval (e.set (NameSupply.name used) x) t))
    rw [hvalue, I.eval_congr hset.over ht]
    exact (hbinds I e x).mp hx

/-- Binding an operand gives a term that stands for it. -/
theorem exists_binding (used : Nat) (hactual : actual.IsOver W (IsOlder next used))
    (hsuits : actual.passing.Suits declared) :
    ∃ stand defining used', (bind actual declared).run ⟨used⟩ = ((stand, defining), ⟨used'⟩) ∧
      Binding W next used used' actual declared stand defining := by
  rcases bind_cases actual used hsuits with ⟨hrun, hpassing, hbinds⟩ | ⟨t, ht, hrun, hbinds⟩
  · exact ⟨_, _, _, hrun, .direct hactual hpassing hbinds⟩
  · have hterm : t.IsOver W (IsOlder next used) := by
      rcases ht with rfl | rfl
      · exact W.null
      · exact ⟨trivial, hactual⟩
    exact ⟨_, _, _, hrun, .fresh hterm hbinds⟩

/-! ## Binding all operands -/

variable {operands : List (Term × Term × ValueType)} {entries : List (Term × Term)}
  {defining : List Predicate}

/-- Operands are bound: the terms that stand for them in the body, and what defines these. -/
structure Bindings (W : Vocabulary) (next used used' : Nat)
    (operands : List (Term × Term × ValueType)) (entries : List (Term × Term))
    (defining : List Predicate) : Prop where
  used_le : used ≤ used'
  covers {formal actual : Term} {declared : ValueType} : (formal, actual, declared) ∈ operands →
    ∃ stand, (formal, stand) ∈ entries
  isOver {formal stand : Term} : (formal, stand) ∈ entries → stand.IsOver W (IsOlder next used')
  defines {p : Predicate} : p ∈ defining → p.IsOver W (IsOlder next used') ∧ callOf? p = none
  /-- Where the definitions hold, what stands for an operand has a value the operand comes to. -/
  binds {formal stand : Term} : (formal, stand) ∈ entries → ∃ actual declared,
    (formal, actual, declared) ∈ operands ∧ stand.passing = .ofType declared ∧
      ∀ {V : Type} (I : Interpretation V) e, (∀ p ∈ defining, I.Holds e p) →
        I.Binds declared (I.passed e actual) (I.eval e stand)
  /-- Whatever values the operands come to, names can be given out that make the definitions hold. -/
  attains {V : Type} (I : Interpretation V) (e w : Environment V) :
    (∀ formal actual declared, (formal, actual, declared) ∈ operands →
      I.Binds declared (I.passed e actual) (I.eval w formal)) →
    ∃ e', e'.AgreesOn (IsOlder next used) e ∧ (∀ p ∈ defining, I.Holds e' p) ∧
      ∀ formal stand, (formal, stand) ∈ entries → I.eval e' stand = I.eval w formal

theorem Bindings.nil (W : Vocabulary) (next used : Nat) : Bindings W next used used [] [] [] where
  used_le := le_rfl
  covers := nofun
  isOver := nofun
  defines := nofun
  binds := nofun
  attains _ e _ _ := ⟨e, fun _ _ _ => rfl, nofun, nofun⟩

/-- One operand more. -/
theorem Bindings.cons {between : Nat} {stand : Term} {first : List Predicate}
    (h : Binding W next used between actual declared stand first)
    (k : Bindings W next between used' operands entries defining)
    (hoperands : ∀ formal actual declared, (formal, actual, declared) ∈ operands →
      actual.IsOver W (IsOlder next used)) :
    Bindings W next used used' ((formal, actual, declared) :: operands)
      (entries ++ [(formal, stand)]) (first ++ defining) where
  used_le := h.used_le.trans k.used_le
  covers hmem := by
    rcases List.mem_cons.mp hmem with heq | hmem
    · cases heq
      exact ⟨stand, List.mem_append_right _ (List.mem_singleton_self _)⟩
    · obtain ⟨stand, hstand⟩ := k.covers hmem
      exact ⟨stand, List.mem_append_left _ hstand⟩
  isOver hmem := by
    rcases List.mem_append.mp hmem with hmem | hmem
    · exact k.isOver hmem
    · cases List.mem_singleton.mp hmem
      exact h.isOver.mono fun _ hname => hname.mono le_rfl k.used_le
  defines hmem := by
    rcases List.mem_append.mp hmem with hmem | hmem
    · obtain ⟨hover, hcall⟩ := h.defines hmem
      exact ⟨hover.mono fun _ hname => hname.mono le_rfl k.used_le, hcall⟩
    · exact k.defines hmem
  binds hmem := by
    rcases List.mem_append.mp hmem with hmem | hmem
    · obtain ⟨actual', declared', hoperand, hpassing, hbound⟩ := k.binds hmem
      exact ⟨actual', declared', List.mem_cons_of_mem _ hoperand, hpassing,
        fun I e hholds => hbound I e fun p hp => hholds p (List.mem_append_right _ hp)⟩
    · cases List.mem_singleton.mp hmem
      exact ⟨actual, declared, List.mem_cons_self .., h.passing,
        fun I e hholds => h.binds I e fun p hp => hholds p (List.mem_append_left _ hp)⟩
  attains I e w hall := by
    obtain ⟨e₁, hagrees₁, hfirst, hstand⟩ :=
      h.attains I e (I.eval w formal) (hall formal actual declared (List.mem_cons_self ..))
    -- The other operands are older than what was given out for this one.
    obtain ⟨e₂, hagrees₂, hdefining, hstands⟩ := k.attains I e₁ w fun formal' actual' declared' hmem => by
      rw [Interpretation.passed, I.eval_congr hagrees₁.over (hoperands _ _ _ hmem)]
      exact hall formal' actual' declared' (List.mem_cons_of_mem _ hmem)
    refine ⟨e₂, (hagrees₂.mono fun _ hname => hname.mono le_rfl h.used_le).trans hagrees₁,
      fun p hp => ?_, fun formal' stand' hmem => ?_⟩
    · rcases List.mem_append.mp hp with hp | hp
      · exact (I.holds_congr (h.defines hp).1 hagrees₂.over).mpr (hfirst p hp)
      · exact hdefining p hp
    · rcases List.mem_append.mp hmem with hmem | hmem
      · exact hstands formal' stand' hmem
      · cases List.mem_singleton.mp hmem
        rw [I.eval_congr hagrees₂.over h.isOver, hstand]

theorem run_bindAll_cons (rest : List (Term × Term × ValueType)) (used : Nat) :
    (bindAll ((formal, actual, declared) :: rest)).run ⟨used⟩ =
      let bound := (bind actual declared).run ⟨used⟩
      let boundRest := (bindAll rest).run bound.2
      ((boundRest.1.1 ++ [(formal, bound.1.1)], bound.1.2 ++ boundRest.1.2), boundRest.2) := rfl

/-- Binding all operands gives each of them a term that stands for it. -/
theorem bindAll_bindings (operands : List (Term × Term × ValueType)) (used : Nat)
    (hover : ∀ formal actual declared, (formal, actual, declared) ∈ operands →
      actual.IsOver W (IsOlder next used))
    (hsuits : ∀ formal actual declared, (formal, actual, declared) ∈ operands →
      actual.passing.Suits declared) :
    ∃ entries defining used', (bindAll operands).run ⟨used⟩ = ((entries, defining), ⟨used'⟩) ∧
      Bindings W next used used' operands entries defining := by
  induction operands generalizing used with
  | nil => exact ⟨[], [], used, rfl, .nil W next used⟩
  | cons operand rest ih =>
    obtain ⟨formal, actual, declared⟩ := operand
    have hactual := hover formal actual declared (List.mem_cons_self ..)
    have hrest (formal actual : Term) (declared : ValueType)
        (hmem : (formal, actual, declared) ∈ rest) := hover _ _ _ (List.mem_cons_of_mem _ hmem)
    have hsuitsRest (formal actual : Term) (declared : ValueType)
        (hmem : (formal, actual, declared) ∈ rest) := hsuits _ _ _ (List.mem_cons_of_mem _ hmem)
    obtain ⟨stand, first, between, hrun, hbinding⟩ :=
      exists_binding used hactual (hsuits formal actual declared (List.mem_cons_self ..))
    obtain ⟨entries, defining, used', hrunRest, hbindings⟩ := ih between
      (fun _ _ _ hmem => (hrest _ _ _ hmem).mono fun _ hname =>
        hname.mono le_rfl hbinding.used_le) hsuitsRest
    refine ⟨_, _, used', ?_, .cons hbinding hbindings hrest⟩
    rw [run_bindAll_cons, hrun]
    dsimp only
    rw [hrunRest]

/-! ## Operands -/

theorem mem_formals {info : MethodInfo} {receiver : Term} {arguments : List Term} :
    (formal, actual, declared) ∈ formals info receiver arguments ↔
      (info.isStatic = false ∧ formal = .this info.ownerType ∧ actual = receiver ∧
        declared = info.ownerType) ∨
      ∃ index, arguments[index]? = some actual ∧ info.arguments[index]? = some declared ∧
        formal = .argument declared index := by
  rw [formals, List.mem_append]
  refine or_congr ?_ ?_
  · cases info.isStatic <;> simp
  · rw [List.mem_mapIdx]
    constructor
    · rintro ⟨index, hindex, h⟩
      obtain ⟨rfl, rfl, rfl⟩ := by simpa using h
      rw [List.length_zip, Nat.lt_min] at hindex
      exact ⟨index, by simp [hindex.1], by simp [hindex.2], rfl⟩
    · rintro ⟨index, hactual, hdeclared, rfl⟩
      obtain ⟨ha, rfl⟩ := List.getElem?_eq_some_iff.mp hactual
      obtain ⟨hd, rfl⟩ := List.getElem?_eq_some_iff.mp hdeclared
      exact ⟨index, by simp [ha, hd], by simp⟩

/-- No two operands have one formal. -/
theorem formals_unique {info : MethodInfo} {receiver : Term} {arguments : List Term}
    {actual' : Term} {declared' : ValueType}
    (h : (formal, actual, declared) ∈ formals info receiver arguments)
    (h' : (formal, actual', declared') ∈ formals info receiver arguments) :
    actual = actual' ∧ declared = declared' := by
  rcases mem_formals.mp h with ⟨-, rfl, rfl, rfl⟩ | ⟨index, hactual, hdeclared, rfl⟩
  · rcases mem_formals.mp h' with ⟨-, -, rfl, rfl⟩ | ⟨_, -, -, heq⟩
    · exact ⟨rfl, rfl⟩
    · cases heq
  · rcases mem_formals.mp h' with ⟨-, heq, -⟩ | ⟨index', hactual', hdeclared', heq⟩
    · cases heq
    · obtain ⟨-, hindex⟩ := Term.leaf.inj heq
      obtain rfl := Leaf.argument.inj hindex
      exact ⟨Option.some.inj (hactual.symm.trans hactual'),
        Option.some.inj (hdeclared.symm.trans hdeclared')⟩

/-- Formals name places, and are handed over as declared. -/
theorem leaf_of_mem_formals {info : MethodInfo} {receiver : Term} {arguments : List Term}
    (h : (formal, actual, declared) ∈ formals info receiver arguments) :
    ∃ l, formal = .leaf declared l ∧ l.Names ∧ l.IsOver W IsPlain ∧ ∀ m, l ≠ .result m := by
  rcases mem_formals.mp h with ⟨-, rfl, -, rfl⟩ | ⟨index, -, -, rfl⟩
  · exact ⟨_, rfl, .value "this", isPlain_this, nofun⟩
  · exact ⟨_, rfl, .argument index, trivial, nofun⟩

end Inlining
end Concolic
