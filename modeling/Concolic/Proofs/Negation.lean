import Concolic.Proofs.Mutation
import Concolic.Proofs.State.Satisfaction
import Concolic.Replay

/-!
# Negating twice

Of a branch and its negation exactly one holds, whatever the terms stand for. A second negation
mostly gives the branch back. It cannot do so for all: an equality with a truth value is negated in
the value, so that both `x != true` and `x = false` are negated to `x = true`, whose own negation is
the second of them.

A mutation negates one branch and drops what stands behind it. A state that is replayed from there
may be mutated at the same branch again, and then this branch has been negated twice.

## Main statements

* `Clause.isOpposite_inverse` — of a branch and its negation exactly one holds.
* `Clause.inverse_inverse_beq_iff` — which branches a second negation gives back.
* `ExploredPaths.path_mutate_back` — two mutations at one branch negate it twice.
* `Clause.laws_of_negation` — what negation does to branches and to the paths they are on.
-/

namespace Concolic

/-! ## Values of terms -/

/-- What terms stand for: truth values for themselves, all others for anything. -/
structure Appraisal (V : Type) where
  value : Term → V
  truth : Bool → V
  truth_injective : Function.Injective truth
  value_bool {t : Term} {x : Bool} : t.literal? = some (.bool x) → value t = truth x

/-- The term that the relation compares with a truth value stands for a truth value. -/
def Appraisal.IsBooleanOn {V : Type} (v : Appraisal V) (p : Predicate) : Prop :=
  ∀ verb a b x, p.assertion = .binary verb a b → b.literal? = some (.bool x) →
    ∃ y, v.value a = v.truth y

/-- A term for a truth value is the same as the usual one if it has the type of truth values. -/
theorem Term.bool_beq_iff {t : Term} {x : Bool} (h : t.literal? = some (.bool x)) :
    (Term.bool x == t) = true ↔ t.type = .bool := by
  obtain ⟨type, rfl⟩ : ∃ type, t = .leaf type (.literal (.bool x)) := by
    unfold literal? at h
    split at h
    · next type constant => exact ⟨type, by rw [Option.some.inj h]⟩
    · simp at h
  change Term.same _ _ = true ↔ _
  rw [same_iff_head]
  simp [bool, literal, head, operands, Term.sameAll, Term.type, Literal.type, eq_comm]

namespace Clause

/-- The relation holds between what its terms stand for. -/
inductive HoldsIn {V : Type} (v : Appraisal V) : Predicate → Prop
  | equal {role : Role} {a b : Term} {location : Location} :
      v.value a = v.value b → HoldsIn v ⟨role, .equal a b, location⟩
  | unequal {role : Role} {a b : Term} {location : Location} :
      v.value a ≠ v.value b → HoldsIn v ⟨role, .unequal a b, location⟩

section

variable {V : Type} {v : Appraisal V} {p q : Predicate} {a b : Term} {x : Bool}

theorem holdsIn_equal {role : Role} {l : Location} :
    HoldsIn v ⟨role, .equal a b, l⟩ ↔ v.value a = v.value b :=
  ⟨fun | .equal h => h, .equal⟩

theorem holdsIn_unequal {role : Role} {l : Location} :
    HoldsIn v ⟨role, .unequal a b, l⟩ ↔ v.value a ≠ v.value b :=
  ⟨fun | .unequal h => h, .unequal⟩

/-! ## One negation -/

/-- The second relation is the negation of the first. -/
inductive Inverts : Predicate → Predicate → Prop
  | truth {role : Role} {a b : Term} {x : Bool} {location : Location} :
      b.literal? = some (.bool x) →
      Inverts ⟨role, .equal a b, location⟩ ⟨role, .equal a (.bool !x), location⟩
  | equal {role : Role} {a b : Term} {location : Location} :
      (∀ x, b.literal? ≠ some (.bool x)) →
      Inverts ⟨role, .equal a b, location⟩ ⟨role, .unequal a b, location⟩
  | unequal {role : Role} {a b : Term} {location : Location} :
      Inverts ⟨role, .unequal a b, location⟩ ⟨role, .equal a b, location⟩

theorem inverts_inverse (h : p.IsRelation) : Inverts p p.inverse := by
  obtain ⟨role, assertion, location⟩ := p
  obtain ⟨a, b, rfl | rfl⟩ := isRelation_iff.mp h
  · by_cases hb : ∃ x, b.literal? = some (.bool x)
    · obtain ⟨x, hb⟩ := hb
      rw [inverse_equal_bool rfl hb]
      exact .truth hb
    · have hb : ∀ x, b.literal? ≠ some (.bool x) := fun x hx => hb ⟨x, hx⟩
      rw [inverse_equal rfl hb]
      exact .equal hb
  · rw [inverse_unequal rfl]
    exact .unequal

theorem Inverts.location (h : Inverts p q) : q.location = p.location := by
  cases h <;> rfl

theorem Inverts.isRelation (h : Inverts p q) : q.IsRelation := by
  cases h <;> simp [IsRelation, Assertion.kind]

/-- Negation keeps the left term, and it makes up no comparison with a truth value. -/
theorem Inverts.isBooleanOn (h : Inverts p q) (hv : v.IsBooleanOn p) : v.IsBooleanOn q := by
  intro verb a b x hq hb
  cases h with
  | truth hb' =>
    obtain ⟨-, rfl, -⟩ := Assertion.binary.inj hq
    exact hv _ _ _ _ rfl hb'
  | equal | unequal =>
    obtain ⟨-, rfl, rfl⟩ := Assertion.binary.inj hq
    exact hv _ _ _ _ rfl hb

theorem Inverts.holdsIn_iff (h : Inverts p q) (hv : v.IsBooleanOn p) :
    q.HoldsIn v ↔ ¬p.HoldsIn v := by
  cases h with
  | @truth role a b x location hb =>
    -- The left term stands for one of the two truth values, and for no other.
    obtain ⟨y, hy⟩ := hv _ a b x rfl hb
    have hflip : v.value (.bool !x) = v.truth !x := v.value_bool rfl
    rw [holdsIn_equal, holdsIn_equal, v.value_bool hb, hflip, hy, v.truth_injective.eq_iff,
      v.truth_injective.eq_iff, Bool.eq_not]
  | equal => rw [holdsIn_equal, holdsIn_unequal]
  | unequal => rw [holdsIn_equal, holdsIn_unequal, not_ne_iff]

/-- The other side of a branch: another predicate at the same position and of the same role, and
exactly one of the two holds. -/
structure IsOpposite (q p : Predicate) : Prop where
  differs : (q == p) = false
  role : q.role = p.role
  location : q.location = p.location
  holdsIn_iff {V : Type} (v : Appraisal V) : v.IsBooleanOn p → (q.HoldsIn v ↔ ¬p.HoldsIn v)

theorem isOpposite_inverse (h : p.IsRelation) : p.inverse.IsOpposite p where
  differs := inverse_beq_self h
  role := role_inverse p
  location := (inverts_inverse h).location
  holdsIn_iff _ := (inverts_inverse h).holdsIn_iff

/-! ## Two negations -/

/-- The relation has no truth value on its right, or is an equality with one of its own type. -/
def IsRestored (p : Predicate) : Prop :=
  ∀ verb a b x, p.assertion = .binary verb a b → b.literal? = some (.bool x) →
    verb = .equal ∧ b.type = .bool

theorem isRestored_iff {verb : BinaryVerb} (h : p.assertion = .binary verb a b) :
    p.IsRestored ↔ ∀ x, b.literal? = some (.bool x) → verb = .equal ∧ b.type = .bool := by
  constructor
  · exact fun hp x hb => hp verb a b x h hb
  · intro hright verb' c d x hp hb
    obtain ⟨rfl, rfl, rfl⟩ := Assertion.binary.inj (h.symm.trans hp)
    exact hright x hb

/-- Two negations of an equality with a truth value write the truth value anew. -/
theorem inverse_inverse_of_equal (h : p.assertion = .equal a b)
    (hb : b.literal? = some (.bool x)) :
    p.inverse.inverse = { p with assertion := .equal a (.bool x) } := by
  rw [inverse_equal_bool h hb, inverse_equal_bool rfl rfl, Bool.not_not]

/-- Two negations turn an inequality with a truth value into an equality with the other one. -/
theorem inverse_inverse_of_unequal (h : p.assertion = .unequal a b)
    (hb : b.literal? = some (.bool x)) :
    p.inverse.inverse = { p with assertion := .equal a (.bool !x) } := by
  rw [inverse_unequal h, inverse_equal_bool rfl hb]

theorem inverse_inverse_of_ne_truth {verb : BinaryVerb} (hp : p.IsRelation)
    (h : p.assertion = .binary verb a b) (hb : ∀ x, b.literal? ≠ some (.bool x)) :
    p.inverse.inverse = p := by
  obtain ⟨role, assertion, l⟩ := p
  obtain ⟨c, d, rfl | rfl⟩ := isRelation_iff.mp hp
  · obtain ⟨-, rfl, rfl⟩ := Assertion.binary.inj h
    have hfirst : inverse ⟨role, .equal c d, l⟩ = ⟨role, .unequal c d, l⟩ := inverse_equal rfl hb
    rw [hfirst, inverse_unequal rfl]
  · obtain ⟨-, rfl, rfl⟩ := Assertion.binary.inj h
    have hfirst : inverse ⟨role, .unequal c d, l⟩ = ⟨role, .equal c d, l⟩ := inverse_unequal rfl
    rw [hfirst, inverse_equal rfl hb]

theorem relation_beq_relation_iff {verb verb' : BinaryVerb} {c d : Term}
    (hp : p.assertion = .binary verb a b) (hq : q.assertion = .binary verb' c d) :
    (p == q) = true ↔
      p.role = q.role ∧ verb = verb' ∧ (a == c) = true ∧ (b == d) = true := by
  rw [relation_beq_iff hp, hq]
  refine and_congr_right fun _ => ⟨?_, ?_⟩
  · rintro ⟨c', d', heq, hac, hbd⟩
    obtain ⟨rfl, rfl, rfl⟩ := Assertion.binary.inj heq
    exact ⟨rfl, hac, hbd⟩
  · rintro ⟨rfl, hac, hbd⟩
    exact ⟨c, d, rfl, hac, hbd⟩

/-- A second negation gives back the relations without a truth value on their right and the
equalities with one, and no others. -/
theorem inverse_inverse_beq_iff (h : p.IsRelation) :
    (p.inverse.inverse == p) = true ↔ p.IsRestored := by
  obtain ⟨a, b, hp⟩ := isRelation_iff.mp h
  by_cases hb : ∃ x, b.literal? = some (.bool x)
  · obtain ⟨x, hb⟩ := hb
    rcases hp with hp | hp
    · have hagain := inverse_inverse_of_equal hp hb
      rw [hagain, relation_beq_relation_iff rfl hp, Term.bool_beq_iff hb, isRestored_iff hp]
      simp [hb]
    · have hagain := inverse_inverse_of_unequal hp hb
      rw [hagain, relation_beq_relation_iff rfl hp, isRestored_iff hp]
      simp [hb]
  · have hb : ∀ x, b.literal? ≠ some (.bool x) := fun x hx => hb ⟨x, hx⟩
    rcases hp with hp | hp
    all_goals
      rw [inverse_inverse_of_ne_truth h hp hb, isRestored_iff hp]
      exact iff_of_true BEq.rfl fun x hx => absurd hx (hb x)

/-- Two negations come to the same, even where they do not give the relation back. -/
theorem holdsIn_inverse_inverse (h : p.IsRelation) (hv : v.IsBooleanOn p) :
    p.inverse.inverse.HoldsIn v ↔ p.HoldsIn v := by
  have hfirst := inverts_inverse h
  rw [(inverts_inverse hfirst.isRelation).holdsIn_iff (hfirst.isBooleanOn hv),
    hfirst.holdsIn_iff hv, not_not]

end
end Clause

/-! ## Paths with one branch negated -/

namespace State

variable {α : Type} {parts : List α} {k : Nat} {a : α}

/-- What a part among others is changed to, the others stay. -/
theorem exists_split_modify (h : parts[k]? = some a) : ∃ before after,
    parts = before ++ a :: after ∧
      ∀ change : α → α, parts.modify k change = before ++ change a :: after := by
  obtain ⟨hlt, rfl⟩ := List.getElem?_eq_some_iff.mp h
  refine ⟨parts.take k, parts.drop (k + 1), ?_, fun change => ?_⟩
  · rw [← List.drop_eq_getElem_cons hlt, List.take_append_drop]
  · rw [List.modify_eq_take_cons_drop hlt]

/-- States that differ in one part are the same when that part is. -/
theorem basic_exchange_beq_iff [BEq α] [EquivBEq α] {before after : List α} {b : α} :
    (basic (before ++ a :: after) == basic (before ++ b :: after)) = true ↔ (a == b) = true := by
  rw [beq_iff_key, key_basic, key_basic, List.map_append, List.map_append,
    List.append_cancel_left_eq, List.map_cons, List.map_cons, List.cons.injEq,
    Item.toClass_eq_iff, Item.part_beq_part, and_iff_left rfl]

theorem basic_modify_beq_iff [BEq α] [EquivBEq α] (change : α → α) (h : parts[k]? = some a) :
    (basic (parts.modify k change) == basic parts) = true ↔ (change a == a) = true := by
  obtain ⟨before, after, hparts, hchange⟩ := exists_split_modify h
  rw [hchange, hparts, basic_exchange_beq_iff]

theorem satisfiedBy_basic_modify {holds : α → Prop} (change : α → α) (h : parts[k]? = some a)
    (hsame : holds (change a) ↔ holds a) :
    (basic (parts.modify k change)).SatisfiedBy holds ↔ (basic parts).SatisfiedBy holds := by
  obtain ⟨before, after, hparts, hchange⟩ := exists_split_modify h
  rw [hchange, hparts, satisfiedBy_basic, satisfiedBy_basic]
  simp only [List.forall_mem_append, List.forall_mem_cons, hsame]

/-- A state begins with a run of parts when its own are the same, one by one. -/
theorem beq_of_startsWith_concat [BEq α] [EquivBEq α] {s : State α} {lead before after : List α}
    {b : α} (hs : s.IsLinear) (hparts : s.parts = before ++ b :: after)
    (hlength : lead.length = before.length)
    (h : s.startsWith (basic (lead ++ [a])) = true) :
    (basic lead == basic before) = true ∧ (a == b) = true := by
  rw [startsWith_iff_key, hs.key_eq, key_basic, hparts, List.map_append, List.map_append] at h
  obtain ⟨rest, hrest⟩ := h
  rw [List.append_assoc] at hrest
  obtain ⟨hlead, hrest⟩ := List.append_inj hrest (by simpa using hlength)
  have hlast := congrArg List.head? hrest
  simp only [List.map_cons, List.cons_append, List.head?_cons, Option.some.injEq] at hlast
  rw [Item.toClass_eq_iff, Item.part_beq_part] at hlast
  exact ⟨beq_iff_key.mpr (by rwa [key_basic, key_basic]), hlast⟩

theorem basic_concat_beq [BEq α] [EquivBEq α] {lead before : List α} {b : α}
    (hlead : (basic lead == basic before) = true) (hlast : (a == b) = true) :
    (basic (lead ++ [a]) == basic (before ++ [b])) = true := by
  rw [beq_iff_key, key_basic, key_basic] at hlead ⊢
  have hclass : (Item.part a).toClass = (Item.part b).toClass := by
    rwa [Item.toClass_eq_iff, Item.part_beq_part]
  rw [List.map_append, List.map_append, hlead, List.map_singleton, List.map_singleton, hclass]

end State

/-! ## Mutations at one branch -/

namespace ExploredPaths

variable {e e' : ExploredPaths} {s s' : SymbolicState} {k : Nat} {p : Predicate}

/-- A mutation flips the branch of the index. -/
def FlipsAt (e : ExploredPaths) (s : SymbolicState) (k : Nat) : Prop :=
  IsLeast {k | e.IsOpen (s.parts.filter Clause.isPath) k} k

theorem path_mutate_of_flipsAt (h : e.FlipsAt s k)
    (hp : (s.parts.filter Clause.isPath)[k]? = some p) :
    (e.mutate s).path = .basic ((s.parts.filter Clause.isPath).take k ++ [p.inverse]) := by
  obtain ⟨before, q, after, -, hpath, hq, hbefore, hflipped⟩ := flipped_of_isLeast h
  obtain rfl : q = p := Option.some.inj (hq.symm.trans hp)
  rw [mutate, hflipped, State.path_basic, List.filter_append, hbefore]
  simp [hpath]

/-- The path of a state begins with the path that a mutation leads to, and a mutation of this state
flips the same branch again. It leads to the path of the first state with the branch negated
twice. -/
theorem path_mutate_back (hs' : s'.IsLinear)
    (hp : (s.parts.filter Clause.isPath)[k]? = some p) (h : e.FlipsAt s k) (h' : e'.FlipsAt s' k)
    (hlead : s'.path.startsWith (e.mutate s).path = true) :
    ((e'.mutate s').path ==
      .basic ((s.parts.filter Clause.isPath).take k ++ [p.inverse.inverse])) = true := by
  obtain ⟨q, hq, -⟩ := h'.1
  obtain ⟨hlt, -⟩ := List.getElem?_eq_some_iff.mp hp
  obtain ⟨hlt', hget'⟩ := List.getElem?_eq_some_iff.mp hq
  have hparts : s'.path.parts = (s'.parts.filter Clause.isPath).take k ++
      q :: (s'.parts.filter Clause.isPath).drop (k + 1) := by
    rw [State.parts_path hs', ← hget', ← List.drop_eq_getElem_cons hlt', List.take_append_drop]
  -- The branch flipped first stands in the second state, so what is flipped then is its negation.
  rw [path_mutate_of_flipsAt h hp] at hlead
  obtain ⟨hbefore, hsame⟩ := State.beq_of_startsWith_concat (State.isLinear_path hs') hparts
    (by rw [List.length_take_of_le hlt.le, List.length_take_of_le hlt'.le]) hlead
  rw [path_mutate_of_flipsAt h' hq]
  exact State.basic_concat_beq (BEq.symm hbefore) (BEq.symm (Clause.inverse_congr hsame))

/-- The way there and back ends where it began exactly when two negations give the branch back. -/
theorem path_mutate_back_beq_iff (hs' : s'.IsLinear)
    (hp : (s.parts.filter Clause.isPath)[k]? = some p) (h : e.FlipsAt s k) (h' : e'.FlipsAt s' k)
    (hlead : s'.path.startsWith (e.mutate s).path = true) :
    ((e'.mutate s').path == .basic ((s.parts.filter Clause.isPath).take (k + 1))) = true ↔
      (p.inverse.inverse == p) = true := by
  have hback := path_mutate_back hs' hp h h' hlead
  have htake : (s.parts.filter Clause.isPath).take (k + 1) =
      (s.parts.filter Clause.isPath).take k ++ [p] := by
    rw [List.take_add_one, hp]
    rfl
  rw [htake, BEq.congr_left hback]
  exact State.basic_exchange_beq_iff

end ExploredPaths

/-! ## Negation -/

/-- **Negation.** A relation and its negation differ, have one role and one position, and exactly
one of them holds. A second negation gives the relation back unless it is an inequality with a
truth value, or an equality with one of a type that is not its own; it always gives one that holds
alike. So it is for a path of which one branch is negated twice, and for two mutations that flip the
same branch one after the other, the second of them for a state that begins with the path of the
first. -/
theorem Clause.laws_of_negation {p : Predicate} (h : p.IsRelation) :
    p.inverse.IsOpposite p ∧
    ((p.inverse.inverse == p) = true ↔ p.IsRestored) ∧
    (∀ a b x, p.assertion = .unequal a b → b.literal? = some (.bool x) →
      p.inverse.inverse = { p with assertion := .equal a (.bool !x) }) ∧
    (∀ {V : Type} (v : Appraisal V), v.IsBooleanOn p →
      (p.inverse.inverse.HoldsIn v ↔ p.HoldsIn v)) ∧
    (∀ (path : List Predicate) (k : Nat), path[k]? = some p →
      ((State.basic ((path.modify k inverse).modify k inverse) == .basic path) = true ↔
        p.IsRestored) ∧
      ∀ {V : Type} (v : Appraisal V), v.IsBooleanOn p →
        ((State.basic ((path.modify k inverse).modify k inverse)).SatisfiedBy (HoldsIn v) ↔
          (State.basic path).SatisfiedBy (HoldsIn v))) ∧
    ∀ (e e' : ExploredPaths) (s s' : SymbolicState) (k : Nat), s'.IsLinear →
      (s.parts.filter isPath)[k]? = some p → e.FlipsAt s k → e'.FlipsAt s' k →
      s'.path.startsWith (e.mutate s).path = true →
      ((e'.mutate s').path ==
        .basic ((s.parts.filter isPath).take k ++ [p.inverse.inverse])) = true ∧
      (((e'.mutate s').path == .basic ((s.parts.filter isPath).take (k + 1))) = true ↔
        p.IsRestored) := by
  have hrestored := inverse_inverse_beq_iff h
  refine ⟨isOpposite_inverse h, hrestored, fun a b x => inverse_inverse_of_unequal,
    fun v => holdsIn_inverse_inverse h, fun path k hk => ?_, ?_⟩
  · rw [List.modify_modify_eq]
    exact ⟨(State.basic_modify_beq_iff _ hk).trans hrestored, fun v hv =>
      State.satisfiedBy_basic_modify _ hk (holdsIn_inverse_inverse h hv)⟩
  · intro e e' s s' k hs' hp hflips hflips' hlead
    exact ⟨ExploredPaths.path_mutate_back hs' hp hflips hflips' hlead,
      (ExploredPaths.path_mutate_back_beq_iff hs' hp hflips hflips' hlead).trans hrestored⟩

/-! A path takes a case of a switch and then a branch. The branch is flipped, the run from there goes
on to a third one, and the branch is flipped back. -/

namespace Returning

def third : Predicate := ⟨.path, .equal (.value .int "key") (.int 3), {}⟩

def switchedOn : Predicate := ⟨.path, .equal (.value .bool "on") (.bool true), {}⟩

def state : SymbolicState := .basic [third, switchedOn]

def replayed : SymbolicState := .basic [third, switchedOn.inverse, third]

def explored : ExploredPaths where
  paths := [.basic [third.inverse]]

def exploredLater : ExploredPaths := explored.record (.basic [third, switchedOn.inverse])

/-- Everything is true but the truth value that is not. -/
def allTrue : Appraisal Bool where
  value t := t.literal? != some (.bool false)
  truth := id
  truth_injective := Function.injective_id
  value_bool {t x} h := by cases x <;> simp [h]

theorem flipsAt_one {e : ExploredPaths} {s : SymbolicState} {p q : Predicate}
    {rest : List Predicate} (hbranches : s.parts.filter Clause.isPath = p :: q :: rest)
    (hcovered : e.isCovered (.basic [p.inverse]) = true)
    (hfree : e.isCovered (.basic [p, q.inverse]) = false) : e.FlipsAt s 1 := by
  rw [ExploredPaths.FlipsAt, hbranches]
  refine ⟨⟨q, rfl, hfree⟩, fun k hk => ?_⟩
  by_contra hlt
  obtain rfl : k = 0 := by omega
  obtain ⟨p', hp', hopen⟩ := hk
  obtain rfl : p = p' := Option.some.inj hp'
  exact Bool.false_ne_true (hopen.symm.trans hcovered)

/-- The branch is given back, and the path ends as it was. -/
theorem switchedOn_given_back : switchedOn.IsRelation ∧ allTrue.IsBooleanOn switchedOn ∧
    explored.FlipsAt state 1 ∧ exploredLater.FlipsAt replayed 1 ∧
    replayed.path.startsWith (explored.mutate state).path = true ∧
    (switchedOn.inverse.HoldsIn allTrue ↔ ¬switchedOn.HoldsIn allTrue) ∧
    (switchedOn.inverse.inverse == switchedOn) = true ∧
    ((exploredLater.mutate replayed).path == .basic [third, switchedOn]) = true := by
  have hrelation : switchedOn.IsRelation := by decide
  have hboolean : allTrue.IsBooleanOn switchedOn := fun _ a _ _ _ _ => ⟨allTrue.value a, rfl⟩
  have hflips : explored.FlipsAt state 1 := flipsAt_one rfl (by decide +kernel) (by decide +kernel)
  have hflips' : exploredLater.FlipsAt replayed 1 :=
    flipsAt_one rfl (by decide +kernel) (by decide +kernel)
  have hlead : replayed.path.startsWith (explored.mutate state).path = true := by decide +kernel
  have hrestored : switchedOn.IsRestored := (Clause.isRestored_iff rfl).mpr fun _ _ => ⟨rfl, rfl⟩
  obtain ⟨hopposite, hback, -, -, -, hmutations⟩ := Clause.laws_of_negation hrelation
  obtain ⟨-, hpath⟩ := hmutations explored exploredLater state replayed 1
    (State.isLinear_basic _) rfl hflips hflips' hlead
  exact ⟨hrelation, hboolean, hflips, hflips', hlead, hopposite.holdsIn_iff allTrue hboolean,
    hback.mpr hrestored, hpath.mpr hrestored⟩

end Returning

/-! A switch on a truth value has a case for true, and a run takes the default. -/

namespace Refusing

def flag : Term := .value .bool "flag"

def refused : Predicate := ⟨.path, .unequal flag (.bool true), {}⟩

def frame : Replay.Frame := { method := ⟨"Gate", "pass", "(Z)V"⟩ }

def unexplored : ExploredPaths := {}

/-- What the run adds to the path is negated to an equality with true and then to one with false.
The flipped path leads to another path than the one that was flipped. -/
theorem refused_not_given_back :
    frame.addPassage (.switch flag [(.bool true, ⟨1⟩)] ⟨2⟩) (some ⟨2⟩) =
      frame.push refused.role refused.assertion ∧
    refused.IsRelation ∧
    refused.inverse = ⟨.path, .equal flag (.bool true), {}⟩ ∧
    refused.inverse.inverse = ⟨.path, .equal flag (.bool false), {}⟩ ∧
    (refused.inverse.inverse == refused) = false ∧
    unexplored.mutate (.basic [refused]) = .basic [refused.inverse] ∧
    (unexplored.mutate (.basic [refused.inverse]) == .basic [refused]) = false := by
  refine ⟨rfl, by decide, rfl, rfl, ?_, rfl, ?_⟩ <;> decide +kernel

end Refusing

end Concolic
