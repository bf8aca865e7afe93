import Concolic.Proofs.Inlining.Preservation

/-!
# Inlining keeps what a state asks for

What a round makes of a state can be satisfied with values for the names of the round just when the
state is satisfied, and any number of rounds adds up to the same.

## Main statements

* `rounds_settles` — the outcome of any number of rounds.
* `run_satisfied_iff` — inlining keeps what a state asks for.
-/

namespace Concolic

open Inlining

namespace Inlining

variable {V : Type} {S : Setting} {I : Interpretation V} {W : Vocabulary}

/-! ## Rounds -/

/-- The outcome of inlining in a state: what it expands to, or a failure of a program of which not
all bodies can be read. -/
structure Settles (S : Setting) (I : Interpretation V) (W : Vocabulary) (next used : Nat)
    (s : SymbolicState) (outcome : Except Failure SymbolicState) (next' used' : Nat) : Prop where
  exists_ok : S.IsReadable → ∃ s', outcome = .ok s'
  expands (s' : SymbolicState) : outcome = .ok s' →
    State.Expands S I W next used next' used' s' s

/-- One round. -/
theorem round_settles (hfaithful : IsFaithful S I)
    (hbodies : ∀ method info body, S.Inlines method info body →
      ∀ p, body.Occurs p → p.Fits S W IsPlain) {s : SymbolicState} {next : Nat}
    {names names' : NameSupply} {progress : Round} {outcome : Except Failure SymbolicState}
    (hfits : ∀ p, s.Occurs p → p.Fits S W (IsOlder next names.used))
    (hround : (round S next s).run names = ((outcome, progress), names')) :
    Settles S I W next names.used s outcome progress.next names'.used := by
  obtain ⟨t, round', names₁, hbecomes, hrun⟩ :=
    exists_round (fun p hp => (hfits p hp).isOrdinary) next names
  obtain ⟨hfailure, hexpands⟩ := hbecomes.expands hfaithful hbodies hfits
  rw [hrun] at hround
  obtain ⟨hresult, rfl⟩ := Prod.mk.inj hround
  obtain ⟨rfl, rfl⟩ := Prod.mk.inj hresult
  refine ⟨fun hreadable => ⟨t.simplify, ?_⟩, fun s' hs' => ?_⟩
  · rw [hfailure hreadable]
    rfl
  · cases hfound : round'.failure with
    | none =>
      rw [hfound] at hs'
      exact Except.ok.inj hs' ▸ hexpands.simplify
    | some failure =>
      rw [hfound] at hs'
      cases hs'

/-- Any number of rounds. -/
theorem rounds_settles (hfaithful : IsFaithful S I)
    (hbodies : ∀ method info body, S.Inlines method info body →
      ∀ p, body.Occurs p → p.Fits S W IsPlain) (depth : Nat) {s : SymbolicState} {next : Nat}
    {names : NameSupply} (hfits : ∀ p, s.Occurs p → p.Fits S W (IsOlder next names.used)) :
    ∃ next' used', Settles S I W next names.used s ((rounds S depth next s).run names).1
      next' used' := by
  induction depth generalizing s next names with
  | zero =>
    refine ⟨next, names.used, fun _ => ⟨s, rfl⟩, fun s' hs' => ?_⟩
    obtain rfl := Except.ok.inj hs'
    exact .refl hfits
  | succ depth ih =>
    rcases hround : (round S next s).run names with ⟨⟨outcome, progress⟩, names₁⟩
    have hsettles := round_settles hfaithful hbodies hfits hround
    cases outcome with
    | error failure =>
      rw [rounds_of_error hround]
      exact ⟨progress.next, names₁.used, hsettles⟩
    | ok inlined =>
      rw [rounds_of_ok hround]
      split
      · exact ⟨progress.next, names₁.used, hsettles⟩
      · have hexpands := hsettles.expands inlined rfl
        obtain ⟨next', used', hrest⟩ := ih hexpands.fits
        exact ⟨next', used', hrest.exists_ok,
          fun s' hs' => hexpands.trans (hrest.expands s' hs')⟩

/-- **Inlining keeps what a state asks for.** Let calls mean that their bodies can be satisfied, and
let all that is inlined be well typed and written without ambiguity. Then inlining fails only where
a body cannot be read, and whatever terms and predicates mean, a state is satisfied just when what
is inlined can be satisfied with values for the names that inlining makes. -/
theorem run_satisfied_iff (hfaithful : IsFaithful S I)
    (hbodies : ∀ method info body, S.Inlines method info body →
      ∀ p, body.Occurs p → p.Fits S W IsPlain) {s : SymbolicState}
    (hstate : ∀ p, s.Occurs p → p.Fits S W IsPlain) (depth : Nat) (names : NameSupply) :
    (S.IsReadable → ∃ s', ((run S depth s).run names).1 = .ok s') ∧
      ∀ s', ((run S depth s).run names).1 = .ok s' → ∀ e : Environment V,
        s.SatisfiedBy (I.Holds e) ↔
          ∃ e', e'.AgreesOn IsOriginal e ∧ s'.SatisfiedBy (I.Holds e') := by
  obtain ⟨next', used', hsettles⟩ := rounds_settles hfaithful hbodies depth
    fun p hp => (hstate p hp).mono fun _ hname => hname.isOlder 0 names.used
  refine ⟨hsettles.exists_ok, fun s' hrun e => ?_⟩
  have hexpands := hsettles.expands s' hrun
  constructor
  · intro hsat
    obtain ⟨e', hagrees, hsat'⟩ := hexpands.attains e hsat
    exact ⟨e', hagrees.mono fun _ hname => hname.isOlder 0 names.used, hsat'⟩
  · rintro ⟨e', hagrees, hsat'⟩
    refine (State.satisfiedBy_congr fun p hp => ?_).mp (hexpands.sound e' hsat')
    exact I.holds_congr (hstate p hp).isOver
      (hagrees.mono fun _ (hname : IsPlain _) => hname.toIsOriginal).over

end Inlining

/-!
## A workshop

One method makes a value of some class, another takes one of a class derived from it, and both hand
what they have to a third, which requires it not to be null.
-/

namespace Workshop

def base : ValueType := .class "Base"

def derived : ValueType := .class "Derived"

def check : Method := ⟨"Workshop", "check", "(LBase;)V"⟩

def make : Method := ⟨"Workshop", "make", "()LBase;"⟩

def repair : Method := ⟨"Workshop", "repair", "(LDerived;)V"⟩

def checkOf (a : Term) : Predicate := ⟨.state, .unary .call (.call .void check .null [a]), {}⟩

def makeInto (t : Term) : Predicate := ⟨.state, .binary .callInto t (.call base make .null []), {}⟩

def repairOf (a : Term) : Predicate := ⟨.state, .unary .call (.call .void repair .null [a]), {}⟩

/-- The predicate that takes the place of a check. -/
def notNull (a : Term) : Predicate := ⟨.require, .unequal a .null, {}⟩

def checkBody : SymbolicState := .basic [notNull (.argument base 0)]

def makeBody : SymbolicState := .basic [checkOf (.result base make)]

def repairBody : SymbolicState := .basic [checkOf (.argument derived 0)]

def checkInfo : MethodInfo := ⟨check, [base], .void, true, false, false⟩

def makeInfo : MethodInfo := ⟨make, [], base, true, false, false⟩

def repairInfo : MethodInfo := ⟨repair, [derived], .void, true, false, false⟩

def setting : Setting where
  program := Program.Table.toProgram { methods := [
    { info := checkInfo, blocks := [], body := .known checkBody },
    { info := makeInfo, blocks := [], body := .known makeBody },
    { info := repairInfo, blocks := [], body := .known repairBody }] }
  policy := .always

/-- The bodies of the program. -/
inductive States : MethodInfo → SymbolicState → Prop
  | check : States checkInfo checkBody
  | make : States makeInfo makeBody
  | repair : States repairInfo repairBody

theorem exists_states {method : Method} {info : MethodInfo}
    (h : setting.program.method? method = some info) :
    method = info.method ∧ ∃ body, States info body ∧
      setting.program.body? info.method = .ok (some body) := by
  obtain ⟨entry, hentry, rfl⟩ := Option.map_eq_some_iff.mp h
  have hmem : entry ∈ [⟨repairInfo, [], .known repairBody⟩, ⟨makeInfo, [], .known makeBody⟩,
      ⟨checkInfo, [], .known checkBody⟩] := List.mem_of_find?_eq_some hentry
  have hmethod := List.find?_some hentry
  refine ⟨(beq_iff_eq.mp hmethod).symm, ?_⟩
  simp only [List.mem_cons, List.not_mem_nil, or_false] at hmem
  rcases hmem with rfl | rfl | rfl
  · exact ⟨repairBody, .repair, rfl⟩
  · exact ⟨makeBody, .make, rfl⟩
  · exact ⟨checkBody, .check, rfl⟩

theorem states_of_inlines {method : Method} {info : MethodInfo} {body : SymbolicState}
    (h : setting.Inlines method info body) : method = info.method ∧ States info body := by
  obtain ⟨hmethod, body', hstates, hbody⟩ := exists_states h.known
  obtain rfl : body' = body := Option.some.inj (Except.ok.inj (hbody.symm.trans h.stated))
  exact ⟨hmethod, hstates⟩

theorem isReadable : setting.IsReadable := by
  intro method info failure hknown _ hfails
  obtain ⟨-, body, -, hbody⟩ := exists_states hknown
  rw [hbody] at hfails
  cases hfails

/-! ### What is written -/

def words : Vocabulary where
  literal c := c = .null
  method m := m = check ∨ m = make ∨ m = repair
  checked _ := False
  null := rfl
  literal_eq := by
    rintro a b rfl rfl -
    rfl
  method_eq := by
    rintro m n (rfl | rfl | rfl) (rfl | rfl | rfl) h <;>
      first | rfl | exact absurd h (by decide)
  checked_eq := by
    rintro s t ⟨⟩

section Fits

variable {N : String → Prop} {t : Term}

theorem checkOf_fits (ht : t.IsOver words N) (hsuits : t.passing.Suits base) :
    (checkOf t).Fits setting words N where
  isOver := ⟨⟨.inl rfl, rfl, ht, trivial⟩, trivial⟩
  isProper _ _ hcall := by
    cases hcall
    exact ⟨_, _, _, _, rfl⟩
  isTyped hcall hinlines := by
    cases hcall
    obtain ⟨hmethod, hstates⟩ := states_of_inlines hinlines
    cases hstates with
    | check =>
      refine ⟨nofun, fun index actual declared hactual hdeclared => ?_, nofun⟩
      cases index with
      | zero =>
        obtain rfl := Option.some.inj hactual
        obtain rfl := Option.some.inj hdeclared
        exact hsuits
      | succ index => cases hdeclared
    | make | repair => exact absurd hmethod (by decide)

theorem makeInto_fits (ht : t.IsOver words N) (htype : t.passing = .ofType base) :
    (makeInto t).Fits setting words N where
  isOver := ⟨ht, ⟨.inr (.inl rfl), rfl, trivial⟩, trivial⟩
  isProper _ _ hcall := by
    cases hcall
    exact ⟨_, _, _, _, rfl⟩
  isTyped hcall hinlines := by
    cases hcall
    obtain ⟨hmethod, hstates⟩ := states_of_inlines hinlines
    cases hstates with
    | make =>
      refine ⟨nofun, nofun, fun t' ht' => ?_⟩
      obtain rfl := Option.some.inj ht'
      exact htype
    | check | repair => exact absurd hmethod (by decide)

end Fits

theorem eq_of_occurs {p q : Predicate} (h : (State.basic [q]).Occurs p) : p = q :=
  State.occurs_singleton.mp h

theorem bodies_fit (method : Method) (info : MethodInfo) (body : SymbolicState)
    (h : setting.Inlines method info body) (p : Predicate) (hp : body.Occurs p) :
    p.Fits setting words IsPlain := by
  cases (states_of_inlines h).2 with
  | check =>
    obtain rfl := eq_of_occurs hp
    exact .of_callOf?_eq_none ⟨trivial, rfl, trivial⟩ rfl
  | make =>
    obtain rfl := eq_of_occurs hp
    exact checkOf_fits (.inr (.inl rfl)) rfl
  | repair =>
    obtain rfl := eq_of_occurs hp
    exact checkOf_fits trivial rfl

/-! ### What it means -/

/-- Values are numbers, and null is zero. -/
def values (cast : Nat → Nat) : Interpretation Nat where
  constant _ _ := 0
  unary
    | .cast, _, x => cast x
    | _, _, _ => 0
  binary _ _ _ _ := 0
  ternary _ _ _ _ _ := 0
  call _ _ _ _ := 0
  function _ _ _ := 0
  relation
    | _, .equal a b => a = b
    | _, .unequal a b => a ≠ b
    | _, _ => True
  invokes _ _ _ _ := True

/-- The interpretation in which a method may be called just when its body can be satisfied. -/
def calling (I : Interpretation Nat) (info : MethodInfo) (body : SymbolicState) :
    Interpretation Nat :=
  { I with
    invokes := fun method receiver arguments result? =>
      if method = info.method then
        ∃ w, I.Enters info method receiver arguments result? w ∧ body.SatisfiedBy (I.Holds w)
      else I.invokes method receiver arguments result? }

def checking (cast : Nat → Nat) : Interpretation Nat := calling (values cast) checkInfo checkBody

def making (cast : Nat → Nat) : Interpretation Nat := calling (checking cast) makeInfo makeBody

def meaning (cast : Nat → Nat) : Interpretation Nat := calling (making cast) repairInfo repairBody

section Calling

variable {I : Interpretation Nat} {info info' : MethodInfo} {body : SymbolicState} {method : Method}
  {receiver : Passed Nat} {arguments : List (Passed Nat)} {result? : Option Nat}

/-- What a call hands over does not depend on what other calls mean. -/
theorem calling_enters {w : Environment Nat} :
    (calling I info body).Enters info' method receiver arguments result? w ↔
      I.Enters info' method receiver arguments result? w :=
  ⟨fun h => ⟨h.receiver, h.argument, h.result⟩, fun h => ⟨h.receiver, h.argument, h.result⟩⟩

theorem calling_invokes (info : MethodInfo) :
    (calling I info body).invokes info.method receiver arguments result? ↔
      ∃ w, I.Enters info info.method receiver arguments result? w ∧
        body.SatisfiedBy (I.Holds w) :=
  iff_of_eq (if_pos rfl)

theorem calling_invokes_of_ne (h : method ≠ info.method) :
    (calling I info body).invokes method receiver arguments result? ↔
      I.invokes method receiver arguments result? :=
  iff_of_eq (if_neg h)

/-- A static method of one parameter is entered with a value that the operand comes to. -/
theorem enters_one {declared : ValueType} {actual : Passed Nat} {w : Environment Nat} :
    I.Enters ⟨method, [declared], .void, true, false, false⟩ method receiver [actual] none w ↔
      I.Binds declared actual (w declared (.argument 0)) := by
  refine ⟨fun h => h.argument 0 actual declared rfl rfl, fun h => ⟨nofun, ?_, nofun⟩⟩
  rintro (_ | index) actual' declared' hactual hdeclared
  · obtain rfl := Option.some.inj hactual
    obtain rfl := Option.some.inj hdeclared
    exact h
  · cases hdeclared

end Calling

section Meaning

variable {cast : Nat → Nat} {I : Interpretation Nat} {e : Environment Nat} {receiver : Passed Nat}
  {x : Nat}

theorem checkBody_satisfiedBy : checkBody.SatisfiedBy (I.Holds e) ↔
    I.relation .require (.unequal (e base (.argument 0)) (I.constant .null (.literal .null))) := by
  rw [checkBody, State.satisfiedBy_basic, List.forall_mem_singleton]
  rfl

theorem makeBody_satisfiedBy : makeBody.SatisfiedBy (I.Holds e) ↔
    I.invokes check (I.passed e .null) [⟨e base (.result make), .reference base⟩] none := by
  rw [makeBody, State.satisfiedBy_basic, List.forall_mem_singleton]
  rfl

theorem repairBody_satisfiedBy : repairBody.SatisfiedBy (I.Holds e) ↔
    I.invokes check (I.passed e .null) [⟨e derived (.argument 0), .reference derived⟩] none := by
  rw [repairBody, State.satisfiedBy_basic, List.forall_mem_singleton]
  rfl

theorem isFaithful (cast : Nat → Nat) : IsFaithful setting (meaning cast) := by
  intro method info body hinlines receiver arguments result?
  obtain ⟨rfl, hstates⟩ := states_of_inlines hinlines
  cases hstates with
  | check =>
    rw [meaning, calling_invokes_of_ne (by decide), making, calling_invokes_of_ne (by decide),
      checking, calling_invokes]
    refine exists_congr fun w => and_congr
      (calling_enters.trans (calling_enters.trans calling_enters)).symm ?_
    rw [checkBody_satisfiedBy, checkBody_satisfiedBy]
    exact Iff.rfl
  | make =>
    rw [meaning, calling_invokes_of_ne (by decide), making, calling_invokes]
    refine exists_congr fun w => and_congr (calling_enters.trans calling_enters).symm ?_
    rw [makeBody_satisfiedBy, makeBody_satisfiedBy, calling_invokes_of_ne (by decide),
      calling_invokes_of_ne (by decide)]
    exact Iff.rfl
  | repair =>
    rw [meaning, calling_invokes]
    refine exists_congr fun w => and_congr calling_enters.symm ?_
    rw [repairBody_satisfiedBy, repairBody_satisfiedBy, calling_invokes_of_ne (by decide)]
    exact Iff.rfl

/-- What may be checked does not come to null. -/
theorem checking_invokes {actual : Passed Nat} :
    (checking cast).invokes check receiver [actual] none ↔
      ∃ y, (values cast).Binds base actual y ∧ y ≠ 0 := by
  refine (calling_invokes checkInfo).trans ⟨?_, ?_⟩
  · rintro ⟨w, henters, hsat⟩
    exact ⟨_, enters_one.mp henters, checkBody_satisfiedBy.mp hsat⟩
  · rintro ⟨y, hbinds, hy⟩
    exact ⟨fun _ _ => y, enters_one.mpr hbinds, checkBody_satisfiedBy.mpr hy⟩

/-- What may be made is not null. -/
theorem making_invokes : (making cast).invokes make receiver [] (some x) ↔ x ≠ 0 := by
  refine (calling_invokes makeInfo).trans ⟨?_, fun hx => ?_⟩
  · rintro ⟨w, henters, hsat⟩
    obtain rfl : w base (.result make) = x := henters.result x rfl
    obtain ⟨y, rfl, hy⟩ := checking_invokes.mp (makeBody_satisfiedBy.mp hsat)
    exact hy
  · exact ⟨fun _ _ => x, ⟨nofun, nofun, fun y hy => Option.some.inj hy⟩,
      makeBody_satisfiedBy.mpr (checking_invokes.mpr ⟨x, rfl, hx⟩)⟩

/-- The cast of what may be repaired is not null. -/
theorem meaning_invokes :
    (meaning cast).invokes repair receiver [⟨x, .plain⟩] none ↔ cast x ≠ 0 := by
  refine (calling_invokes repairInfo).trans ⟨?_, fun hx => ?_⟩
  · rintro ⟨w, henters, hsat⟩
    obtain rfl : w derived (.argument 0) = x := enters_one.mp henters
    obtain ⟨y, rfl, hy⟩ := checking_invokes.mp ((calling_invokes_of_ne (by decide)).mp
      (repairBody_satisfiedBy.mp hsat))
    exact hy
  · exact ⟨fun _ _ => x, enters_one.mpr rfl, repairBody_satisfiedBy.mpr
      ((calling_invokes_of_ne (by decide)).mpr (checking_invokes.mpr ⟨cast x, rfl, hx⟩))⟩

end Meaning

/-! ### What is inlined -/

/-- A value is made, and one of another class is checked. -/
def order : SymbolicState :=
  .basic [makeInto (.value base "made"), checkOf (.value derived "other")]

/-- The term that stands for a term as one of the class that is checked. -/
def stand : Term := .value base (NameSupply.name 0)

/-- The one gives way to two bodies, and the cast of the other is checked. -/
def delivery : SymbolicState := .basic [notNull (.value base "made"),
  ⟨.state, .equal stand (.cast base (.value derived "other")), {}⟩, notNull stand]

theorem order_fits (p : Predicate) (hp : order.Occurs p) : p.Fits setting words IsPlain := by
  cases hp with
  | basic hmem =>
    rcases List.mem_cons.mp hmem with rfl | hmem
    · exact makeInto_fits (isPlain_of_chars (by decide) (by decide) (by decide) (by decide)) rfl
    · obtain rfl := List.mem_singleton.mp hmem
      exact checkOf_fits (isPlain_of_chars (by decide) (by decide) (by decide) (by decide)) rfl

/-- What is ordered can be had just when what is delivered can, if casts change nothing. -/
theorem order_satisfied_iff :
    IsFaithful setting (meaning id) ∧
    (∀ method info body, setting.Inlines method info body →
      ∀ p, body.Occurs p → p.Fits setting words IsPlain) ∧
    (∀ p, order.Occurs p → p.Fits setting words IsPlain) ∧
    setting.IsReadable ∧
    (run setting 2 order).run ⟨0⟩ = (.ok delivery, ⟨1⟩) ∧
    (order.SatisfiedBy ((meaning id).Holds fun _ _ => 1) ↔
      ∃ e', e'.AgreesOn IsOriginal (fun _ _ => 1) ∧ delivery.SatisfiedBy ((meaning id).Holds e')) :=
  ⟨isFaithful id, bodies_fit, order_fits, isReadable, rfl,
    (run_satisfied_iff (isFaithful id) bodies_fit order_fits 2 ⟨0⟩).2 delivery rfl fun _ _ => 1⟩

/-- A value is made for one of another class. -/
def misfit : SymbolicState := .basic [makeInto (.value derived "made")]

/-- What is checked is no longer the value that was made, but its cast. -/
def misfitted : SymbolicState := .basic [
  ⟨.state, .equal stand (.cast base (.value derived "made")), {}⟩, notNull stand]

/-- A number is repaired in the place of a reference. -/
def mistake : SymbolicState := .basic [repairOf (.value .int "number")]

/-- What is checked is no longer the cast of what was repaired, but the number. -/
def mistaken : SymbolicState := .basic [notNull (.value .int "number")]

/-- Calls must be well typed. If what takes a result has another type than the result, the body may
use its cast where it used the result; if an operand is a reference just when it is not declared to
be one, the body may use it where it used a cast. Here casts come to null. -/
theorem mistyped_calls :
    IsFaithful setting (meaning fun _ => 0) ∧
    (∀ method info body, setting.Inlines method info body →
      ∀ p, body.Occurs p → p.Fits setting words IsPlain) ∧
    (∀ p, misfit.Occurs p ∨ mistake.Occurs p → p.IsOver words IsPlain ∧ p.IsProper) ∧
    (run setting 2 misfit).run ⟨0⟩ = (.ok misfitted, ⟨1⟩) ∧
    misfit.SatisfiedBy ((meaning fun _ => 0).Holds fun _ _ => 1) ∧
    (¬∃ e', e'.AgreesOn IsOriginal (fun _ _ => 1) ∧
      misfitted.SatisfiedBy ((meaning fun _ => 0).Holds e')) ∧
    (run setting 2 mistake).run ⟨0⟩ = (.ok mistaken, ⟨0⟩) ∧
    ¬mistake.SatisfiedBy ((meaning fun _ => 0).Holds fun _ _ => 1) ∧
    ∃ e', e'.AgreesOn IsOriginal (fun _ _ => 1) ∧
      mistaken.SatisfiedBy ((meaning fun _ => 0).Holds e') := by
  refine ⟨isFaithful _, bodies_fit, ?_, rfl, ?_, ?_, rfl, ?_, ?_⟩
  · rintro p (hp | hp)
    · obtain rfl := eq_of_occurs hp
      refine ⟨⟨isPlain_of_chars (by decide) (by decide) (by decide) (by decide),
        ⟨.inr (.inl rfl), rfl, trivial⟩, trivial⟩, fun target? call hcall => ?_⟩
      cases hcall
      exact ⟨_, _, _, _, rfl⟩
    · obtain rfl := eq_of_occurs hp
      refine ⟨⟨⟨.inr (.inr rfl), rfl, isPlain_of_chars (by decide) (by decide) (by decide)
        (by decide), trivial⟩, trivial⟩, fun target? call hcall => ?_⟩
      cases hcall
      exact ⟨_, _, _, _, rfl⟩
  · rw [misfit, State.satisfiedBy_basic, List.forall_mem_singleton]
    exact (calling_invokes_of_ne (by decide)).mpr (making_invokes.mpr one_ne_zero)
  · rintro ⟨e', -, hsat⟩
    rw [misfitted, State.satisfiedBy_basic, List.forall_mem_cons, List.forall_mem_singleton] at hsat
    obtain ⟨hcast, hcheck⟩ := hsat
    exact hcheck hcast
  · rw [mistake, State.satisfiedBy_basic, List.forall_mem_singleton]
    exact fun hrepair => meaning_invokes.mp hrepair rfl
  · refine ⟨fun _ _ => 1, fun _ _ _ => rfl, ?_⟩
    rw [mistaken, State.satisfiedBy_basic, List.forall_mem_singleton]
    exact one_ne_zero

end Workshop
end Concolic
