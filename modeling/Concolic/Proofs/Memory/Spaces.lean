import Concolic.Proofs.Memory.Sets
import Concolic.Proofs.Term.Identity
import Concolic.Proofs.Traversal

/-!
# Memory spaces are the classes of aliases

A state makes two terms names of one object where it sets them equal, stores the one where the
other is read, casts the one to the other, or lets the one choose the other. The spaces of a state
are the classes of the least equivalence that these links generate on its pointers, numbered from
one in the order in which the traversal first comes to a member.

## Main statement

* `MemorySpaces.isPartition_ofState` — what the spaces of a state are.
-/

namespace Concolic

/-! ## Aliases -/

/-- Pointers other than null. -/
def Term.IsReference (t : Term) : Prop := t.type.isPointer = true ∧ t.isNull = false

instance (t : Term) : Decidable t.IsReference :=
  inferInstanceAs (Decidable (t.type.isPointer = true ∧ t.isNull = false))

namespace State

variable {s : SymbolicState}

/-- The state stores the value into the place that the load reads. -/
inductive Stores (s : SymbolicState) : (load value : Term) → Prop
  | field {role : Role} {slot value : Term} {location : Location} :
      s.HasPredicate ⟨role, .binary .fieldStore slot value, location⟩ →
      Stores s (.fieldLoad slot) value
  | element {role : Role} {slot value : Term} {location : Location} :
      s.HasPredicate ⟨role, .binary .arrayStore slot value, location⟩ →
      Stores s (.arrayLoad slot) value

/-- The state makes two terms names of one value. -/
inductive Links (s : SymbolicState) : Term → Term → Prop
  | equality {role : Role} {a b : Term} {location : Location} :
      s.HasPredicate ⟨role, .equal a b, location⟩ → Links s a b
  | store {load value : Term} : s.Stores load value → Links s load value
  | cast {type : ValueType} {a : Term} : s.HasTerm (.cast type a) → Links s (.cast type a) a
  | whenTrue {type : ValueType} {cond a b : Term} :
      s.HasTerm (.ifThenElse type cond a b) → Links s (.ifThenElse type cond a b) a
  | whenFalse {type : ValueType} {cond a b : Term} :
      s.HasTerm (.ifThenElse type cond a b) → Links s (.ifThenElse type cond a b) b

/-- The least equivalence on terms, up to their equality, that joins the pointers other than null
which the state links. -/
def Aliases (s : SymbolicState) : Term → Term → Prop :=
  Relation.EqvGen fun a b => (a == b) = true ∨ s.Links a b ∧ a.IsReference ∧ b.IsReference

/-- The pointers of a state: those that occur in it, and the loads that would read a pointer which
it stores. -/
inductive HasPointer (s : SymbolicState) : Term → Prop
  | occurs {t : Term} : s.HasTerm t → t.type.isPointer = true → HasPointer s t
  | stored {load value : Term} : s.Stores load value → load.IsReference → value.IsReference →
      HasPointer s load

theorem HasTerm.of_mem_operands {a t : Term} (h : s.HasTerm t) (ha : a ∈ t.operands) :
    s.HasTerm a := by
  apply isInState_of_mem_visits (v := .term a)
  exact visits_subset_of_hasTerm h (visits_subset_of_mem_operands ha (term_mem_visits_self a))

theorem HasPredicate.hasTerm {a : Term} {p : Predicate} (h : s.HasPredicate p)
    (ha : a ∈ p.operands) : s.HasTerm a := by
  rcases h with hp | ⟨type, params, body, hterm, hp⟩
  · exact ⟨p, a, hp, ha, .self⟩
  · apply isInState_of_mem_visits (v := .term a)
    have hbody := visits_subset_of_hasTerm hterm
    apply hbody
    apply visits_subset_body
    apply visits_subset_of_occurs hp
    exact visits_subset_of_mem_clause ha (term_mem_visits_self a)

/-- What aliases a pointer other than null is one itself. -/
theorem Aliases.isReference_iff {a b : Term} (h : s.Aliases a b) :
    a.IsReference ↔ b.IsReference := by
  induction h with
  | rel a b h =>
    rcases h with h | ⟨-, ha, hb⟩
    · rw [Term.IsReference, Term.IsReference, Term.isNull_congr h, Term.type_of_same h]
    · exact iff_of_true ha hb
  | refl => rfl
  | symm _ _ _ ih => exact ih.symm
  | trans _ _ _ _ _ ih ih' => exact ih.trans ih'

theorem HasPointer.isPointer {t : Term} (h : s.HasPointer t) : t.type.isPointer = true := by
  cases h with
  | occurs _ h => exact h
  | stored _ h _ => exact h.1

theorem Aliases.of_beq {a b : Term} (h : (a == b) = true) : s.Aliases a b := .rel _ _ (.inl h)

theorem Aliases.symm {a b : Term} (h : s.Aliases a b) : s.Aliases b a :=
  Relation.EqvGen.symm _ _ h

theorem Aliases.trans {a b c : Term} (h : s.Aliases a b) (h' : s.Aliases b c) : s.Aliases a c :=
  Relation.EqvGen.trans _ _ _ h h'

end State

namespace MemorySpaces

/-! ## The sets of a state -/

/-- The pairs that a visit unites. -/
def unions (v : Visit) : List (Term × Term) := (links v).filter fun (a, b) => linkable a b

/-- The terms that a visit registers, in order: its own, if it is a pointer, and then the sides of
each pair that it unites. -/
def registrations (v : Visit) : List Term :=
  v.term?.toList.filter (·.type.isPointer) ++ (unions v).flatMap fun (a, b) => [a, b]

/-- The terms that the traversal of a state registers, in order. -/
def registered (s : SymbolicState) : List Term := s.visits.flatMap registrations

/-- The pairs that the traversal of a state unites. -/
def united (s : SymbolicState) : List (Term × Term) := s.visits.flatMap unions

/-- The sets that the traversal of a state builds. -/
def setsOf (s : SymbolicState) : TermSets := s.visits.foldl register {}

theorem register_term (c : TermSets) (t : Term) :
    register c (.term t) = (unions (.term t)).foldl (fun c pair => c.union pair.1 pair.2)
      (if t.type.isPointer then (c.insert t).2 else c) := rfl

theorem register_predicate (c : TermSets) (p : Predicate) :
    register c (.predicate p) =
      (unions (.predicate p)).foldl (fun c pair => c.union pair.1 pair.2) c := rfl

theorem represents_register {c : TermSets} {ts : List Term} {pairs : List (Term × Term)}
    (h : c.Represents ts pairs) (v : Visit) :
    (register c v).Represents (ts ++ registrations v) (pairs ++ unions v) := by
  unfold registrations
  rw [← List.append_assoc]
  cases v with
  | predicate p =>
    rw [register_predicate]
    simpa [Visit.term?] using h.unions (unions (.predicate p))
  | term t =>
    rw [register_term]
    by_cases hpointer : t.type.isPointer = true
    · simpa [Visit.term?, hpointer] using (h.insert t).unions (unions (.term t))
    · simpa [Visit.term?, hpointer] using h.unions (unions (.term t))

theorem represents_visits {c : TermSets} {ts : List Term} {pairs : List (Term × Term)}
    (h : c.Represents ts pairs) (vs : List Visit) :
    (vs.foldl register c).Represents (ts ++ vs.flatMap registrations)
      (pairs ++ vs.flatMap unions) := by
  induction vs generalizing c ts pairs with
  | nil => simpa using h
  | cons v vs ih => simpa [List.append_assoc] using ih (represents_register h v)

theorem represents_setsOf (s : SymbolicState) :
    (setsOf s).Represents (registered s) (united s) := by
  have h := represents_visits .nil s.visits
  rwa [List.nil_append, List.nil_append] at h

variable {s : SymbolicState} {a b t : Term}

theorem linkable_iff : linkable a b = true ↔ a.IsReference ∧ b.IsReference := by
  simp [linkable, Term.IsReference]
  tauto

/-- The links of the visits of a state are those of the state. -/
theorem exists_mem_links : (∃ v ∈ s.visits, (a, b) ∈ links v) ↔ s.Links a b := by
  constructor
  · rintro ⟨v, hv, hlink⟩
    unfold links at hlink
    split at hlink
    · obtain ⟨rfl, rfl⟩ := Prod.mk.inj (List.mem_singleton.mp hlink)
      exact .equality (State.predicate_mem_visits.mp hv)
    · obtain ⟨rfl, rfl⟩ := Prod.mk.inj (List.mem_singleton.mp hlink)
      exact .store (.field (State.predicate_mem_visits.mp hv))
    · obtain ⟨rfl, rfl⟩ := Prod.mk.inj (List.mem_singleton.mp hlink)
      exact .store (.element (State.predicate_mem_visits.mp hv))
    · cases hlink
    · obtain ⟨rfl, rfl⟩ := Prod.mk.inj (List.mem_singleton.mp hlink)
      exact .cast (State.term_mem_visits.mp hv)
    · rcases List.mem_cons.mp hlink with hlink | hlink
      · obtain ⟨rfl, rfl⟩ := Prod.mk.inj hlink
        exact .whenTrue (State.term_mem_visits.mp hv)
      · obtain ⟨rfl, rfl⟩ := Prod.mk.inj (List.mem_singleton.mp hlink)
        exact .whenFalse (State.term_mem_visits.mp hv)
    · cases hlink
  · intro h
    cases h with
    | equality hp => exact ⟨_, State.predicate_mem_visits.mpr hp, by simp [links]⟩
    | store h =>
      cases h with
      | field hp => exact ⟨_, State.predicate_mem_visits.mpr hp, by simp [links]⟩
      | element hp => exact ⟨_, State.predicate_mem_visits.mpr hp, by simp [links]⟩
    | cast ht => exact ⟨_, State.term_mem_visits.mpr ht, by simp [links, Term.cast]⟩
    | whenTrue ht => exact ⟨_, State.term_mem_visits.mpr ht, by simp [links, Term.ifThenElse]⟩
    | whenFalse ht => exact ⟨_, State.term_mem_visits.mpr ht, by simp [links, Term.ifThenElse]⟩

theorem mem_united : (a, b) ∈ united s ↔ s.Links a b ∧ a.IsReference ∧ b.IsReference := by
  rw [← exists_mem_links, ← linkable_iff]
  simp only [united, unions, List.mem_flatMap, List.mem_filter]
  constructor
  · rintro ⟨v, hv, hlink, hlinkable⟩
    exact ⟨⟨v, hv, hlink⟩, hlinkable⟩
  · rintro ⟨⟨v, hv, hlink⟩, hlinkable⟩
    exact ⟨v, hv, hlink, hlinkable⟩

theorem joined_united : TermSets.Joined (united s) = s.Aliases := by
  unfold TermSets.Joined State.Aliases
  congr 1
  funext a b
  rw [mem_united]

/-- Both sides of a link are pointers of the state where they are pointers other than null. -/
theorem hasPointer_of_links (h : s.Links a b) (ha : a.IsReference) (hb : b.IsReference) :
    s.HasPointer a ∧ s.HasPointer b := by
  cases h with
  | equality hp =>
    exact ⟨.occurs (hp.hasTerm (by simp [Clause.operands, Assertion.operands])) ha.1,
      .occurs (hp.hasTerm (by simp [Clause.operands, Assertion.operands])) hb.1⟩
  | store h =>
    refine ⟨.stored h ha hb, .occurs ?_ hb.1⟩
    cases h with
    | field hp => exact hp.hasTerm (by simp [Clause.operands, Assertion.operands])
    | element hp => exact hp.hasTerm (by simp [Clause.operands, Assertion.operands])
  | cast ht =>
    exact ⟨.occurs ht ha.1,
      .occurs (ht.of_mem_operands (by simp [Term.cast, Term.operands])) hb.1⟩
  | whenTrue ht =>
    exact ⟨.occurs ht ha.1,
      .occurs (ht.of_mem_operands (by simp [Term.ifThenElse, Term.operands])) hb.1⟩
  | whenFalse ht =>
    exact ⟨.occurs ht ha.1,
      .occurs (ht.of_mem_operands (by simp [Term.ifThenElse, Term.operands])) hb.1⟩

/-- The traversal registers the pointers of a state. -/
theorem mem_registered : t ∈ registered s ↔ s.HasPointer t := by
  have hmem : t ∈ registered s ↔ (.term t ∈ s.visits ∧ t.type.isPointer = true) ∨
      ∃ a b, (a, b) ∈ united s ∧ (t = a ∨ t = b) := by
    simp only [registered, registrations, united, List.mem_flatMap, List.mem_append,
      List.mem_filter, Option.mem_toList]
    constructor
    · rintro ⟨v, hv, ⟨hterm, hpointer⟩ | ⟨⟨a, b⟩, hpair, ht⟩⟩
      · cases v with
        | predicate p => cases hterm
        | term u =>
          obtain rfl := Option.some.inj hterm
          exact .inl ⟨hv, hpointer⟩
      · exact .inr ⟨a, b, ⟨v, hv, hpair⟩, by simpa using ht⟩
    · rintro (⟨hv, hpointer⟩ | ⟨a, b, ⟨v, hv, hpair⟩, ht⟩)
      · exact ⟨_, hv, .inl ⟨rfl, hpointer⟩⟩
      · exact ⟨v, hv, .inr ⟨(a, b), hpair, by simpa using ht⟩⟩
  rw [hmem, State.term_mem_visits]
  constructor
  · rintro (⟨hterm, hpointer⟩ | ⟨a, b, hpair, ht⟩)
    · exact .occurs hterm hpointer
    · obtain ⟨hlink, ha, hb⟩ := mem_united.mp hpair
      have hpointers := hasPointer_of_links hlink ha hb
      rcases ht with rfl | rfl
      · exact hpointers.1
      · exact hpointers.2
  · intro h
    cases h with
    | occurs hterm hpointer => exact .inl ⟨hterm, hpointer⟩
    | stored h ht hv => exact .inr ⟨t, _, mem_united.mpr ⟨.store h, ht, hv⟩, .inl rfl⟩

/-! ## Numbers -/

/-- The root of a registered term, which decides on its space; null has none. -/
def rootOf? (c : TermSets) (t : Term) : Option Nat :=
  if t.isNull then none else (c.number? t).map c.sets.root

theorem rootOf?_congr (c : TermSets) (h : (a == b) = true) : rootOf? c a = rootOf? c b := by
  simp only [rootOf?, Term.isNull_congr h, TermSets.number?_congr c h]

theorem root?_fst (c : TermSets) (t : Term) : (c.root? t).1 = (c.number? t).map c.sets.root := by
  unfold TermSets.root?
  cases c.number? t with
  | none => rfl
  | some n => simp [UnionFind.find_fst]

theorem rootOf?_eq_some_iff {c : TermSets} {r : Nat} :
    rootOf? c t = some r ↔ t.isNull = false ∧ (c.root? t).1 = some r := by
  rw [rootOf?, root?_fst]
  cases t.isNull <;> simp

/-- The roots that have a space when all terms have been passed, in the order of the spaces. -/
def numbering (c : TermSets) (ts : List Term) (numbered : List Nat) : List Nat :=
  (ts.filterMap (rootOf? c)).foldl addNew numbered

theorem assign_null {c : TermSets} {ts : List Term} {numbered : List Nat}
    (h : t.isNull = true) :
    assign c (t :: ts) numbered = (t, nullSpace) :: assign c ts numbered := by
  rw [assign, if_pos h]

theorem assign_unregistered {c : TermSets} {ts : List Term} {numbered : List Nat}
    (hnull : t.isNull = false) (h : (c.root? t).1 = none) :
    assign c (t :: ts) numbered = assign c ts numbered := by
  simp [assign, hnull, h]

theorem assign_root {c : TermSets} {ts : List Term} {numbered : List Nat} {r : Nat}
    (h : rootOf? c t = some r) :
    assign c (t :: ts) numbered =
      (t, (addNew numbered r).idxOf r + 1) :: assign c ts (addNew numbered r) := by
  obtain ⟨hnull, hroot⟩ := rootOf?_eq_some_iff.mp h
  have hany : numbered.any (· == r) = (numbered.findIdx? (· == r)).isSome :=
    List.findIdx?_isSome.symm
  simp only [assign, hnull, Bool.false_eq_true, if_false, hroot, addNew, hany]
  cases hplace : numbered.findIdx? (· == r) with
  | some place =>
    have hidx : numbered.idxOf r = place := by
      rw [List.idxOf, List.findIdx_eq_getD_findIdx?, hplace]
      rfl
    simp [hidx]
  | none =>
    have hmem : r ∉ numbered := by
      intro hmem
      have hnone := List.findIdx?_eq_none_iff.mp hplace r hmem
      simp at hnone
    simp [List.idxOf_append_of_notMem hmem]

/-- Spaces are numbered by the place of their root among the roots, as these first appear. -/
theorem mem_assign {c : TermSets} {ts : List Term} {numbered : List Nat} {n : Nat} :
    (t, n) ∈ assign c ts numbered ↔ t ∈ ts ∧
      (t.isNull = true ∧ n = nullSpace ∨
        ∃ r, rootOf? c t = some r ∧ n = (numbering c ts numbered).idxOf r + 1) := by
  induction ts generalizing numbered with
  | nil => simp [assign]
  | cons u ts ih =>
    cases hu : rootOf? c u with
    | none =>
      have hnumbering : numbering c (u :: ts) numbered = numbering c ts numbered := by
        simp [numbering, hu]
      rw [hnumbering]
      cases hnull : u.isNull with
      | true =>
        rw [assign_null hnull, List.mem_cons, ih, Prod.mk.injEq, List.mem_cons]
        constructor
        · rintro (⟨rfl, rfl⟩ | ⟨ht, h⟩)
          · exact ⟨.inl rfl, .inl ⟨hnull, rfl⟩⟩
          · exact ⟨.inr ht, h⟩
        · rintro ⟨rfl | ht, h⟩
          · rcases h with ⟨-, rfl⟩ | ⟨r, hr, -⟩
            · exact .inl ⟨rfl, rfl⟩
            · rw [hu] at hr
              cases hr
          · exact .inr ⟨ht, h⟩
      | false =>
        have hroot : (c.root? u).1 = none := by simpa [rootOf?, hnull, root?_fst] using hu
        rw [assign_unregistered hnull hroot, ih, List.mem_cons]
        refine and_congr_left fun h => ⟨.inr, fun ht => ht.elim ?_ id⟩
        rintro rfl
        rcases h with ⟨htrue, -⟩ | ⟨r, hr, -⟩
        · rw [hnull] at htrue
          cases htrue
        · rw [hu] at hr
          cases hr
    | some r =>
      have hnumbering : numbering c (u :: ts) numbered = numbering c ts (addNew numbered r) := by
        simp [numbering, hu]
      have hplace : (numbering c ts (addNew numbered r)).idxOf r = (addNew numbered r).idxOf r := by
        apply idxOf_foldl_addNew
        unfold addNew
        split
        · next hany => simpa using hany
        · simp
      rw [assign_root hu, List.mem_cons, ih, hnumbering, Prod.mk.injEq, List.mem_cons]
      constructor
      · rintro (⟨rfl, rfl⟩ | ⟨ht, h⟩)
        · exact ⟨.inl rfl, .inr ⟨r, hu, by rw [hplace]⟩⟩
        · exact ⟨.inr ht, h⟩
      · rintro ⟨rfl | ht, h⟩
        · rcases h with ⟨hnull, -⟩ | ⟨q, hq, rfl⟩
          · rw [(rootOf?_eq_some_iff.mp hu).1] at hnull
            cases hnull
          · obtain rfl : r = q := Option.some.inj (hu.symm.trans hq)
            exact .inl ⟨rfl, by rw [hplace]⟩
        · exact .inr ⟨ht, h⟩

/-! ## The spaces of a state -/

/-- The roots of the sets of a state, in the order of the spaces. -/
def roots (s : SymbolicState) : List Nat := firsts ((setsOf s).terms.filterMap (rootOf? (setsOf s)))

theorem mem_ofState {n : Nat} : (t, n) ∈ (ofState s).spaces ↔ t ∈ (setsOf s).terms ∧
    (t.isNull = true ∧ n = nullSpace ∨
      ∃ r, rootOf? (setsOf s) t = some r ∧ n = (roots s).idxOf r + 1) := mem_assign

theorem exists_of_number? {c : TermSets} {n : Nat} (h : c.number? t = some n) :
    ∃ u ∈ c.terms, (u == t) = true := by
  have hsome := TermSets.number?_isSome c t
  rw [h] at hsome
  simpa using hsome.symm

theorem spaceOf?_null (m : MemorySpaces) (h : t.isNull = true) : m.spaceOf? t = some nullSpace := by
  rw [spaceOf?, if_pos h]

/-- The space of a term is the place of its root. -/
theorem spaceOf?_ofState (h : t.isNull = false) :
    (ofState s).spaceOf? t = (rootOf? (setsOf s) t).map fun r => (roots s).idxOf r + 1 := by
  rw [spaceOf?, if_neg (by simp [h])]
  cases hfind : (ofState s).spaces.find? fun entry => entry.1 == t with
  | some entry =>
    obtain ⟨hmem, hroot⟩ := mem_ofState.mp (List.mem_of_find?_eq_some hfind)
    have heq : (entry.1 == t) = true := by simpa using List.find?_some hfind
    rcases hroot with ⟨hnull, -⟩ | ⟨r, hr, hn⟩
    · rw [Term.isNull_congr heq, h] at hnull
      cases hnull
    · rw [← rootOf?_congr _ heq, hr]
      simp [hn]
  | none =>
    cases hroot : rootOf? (setsOf s) t with
    | none => rfl
    | some r =>
      obtain ⟨n, hn⟩ : ∃ n, (setsOf s).number? t = some n := by
        obtain ⟨-, hroot⟩ := rootOf?_eq_some_iff.mp hroot
        rw [root?_fst, Option.map_eq_some_iff] at hroot
        exact hroot.imp fun n hn => hn.1
      obtain ⟨u, hu, hut⟩ := exists_of_number? hn
      have hmem : (u, (roots s).idxOf r + 1) ∈ (ofState s).spaces :=
        mem_ofState.mpr ⟨hu, .inr ⟨r, (rootOf?_congr _ hut).trans hroot, rfl⟩⟩
      have hnone := List.find?_eq_none.mp hfind _ hmem
      exact absurd hut hnone

theorem registered_iff : ((setsOf s).number? t).isSome = true ↔
    ∃ u, s.HasPointer u ∧ (u == t) = true := by
  rw [TermSets.number?_isSome, (represents_setsOf s).terms_eq, any_firsts, List.any_eq_true]
  simp only [mem_registered]

/-- The non-null terms that have a space are those that equal a pointer of the state. -/
theorem spaceOf?_isSome_iff (h : t.isNull = false) :
    ((ofState s).spaceOf? t).isSome = true ↔ ∃ u, s.HasPointer u ∧ (u == t) = true := by
  rw [spaceOf?_ofState h, Option.isSome_map, rootOf?, if_neg (by simp [h]), Option.isSome_map,
    registered_iff]

variable {n r q : Nat}

theorem number?_of_rootOf? (h : rootOf? (setsOf s) t = some r) :
    ∃ n, (setsOf s).number? t = some n ∧ (setsOf s).sets.root n = r := by
  obtain ⟨-, hroot⟩ := rootOf?_eq_some_iff.mp h
  rwa [root?_fst, Option.map_eq_some_iff] at hroot

theorem rootOf?_eq_iff (ha : rootOf? (setsOf s) a = some r) (hb : rootOf? (setsOf s) b = some q) :
    r = q ↔ s.Aliases a b := by
  obtain ⟨n, hn, rfl⟩ := number?_of_rootOf? ha
  obtain ⟨m, hm, rfl⟩ := number?_of_rootOf? hb
  rw [(represents_setsOf s).root_eq_iff a b n m hn hm, joined_united]

theorem isReference_of_rootOf? (h : rootOf? (setsOf s) t = some r) : t.IsReference := by
  obtain ⟨n, hn, -⟩ := number?_of_rootOf? h
  obtain ⟨u, hu, hut⟩ := registered_iff.mp (Option.isSome_of_eq_some hn)
  refine ⟨?_, (rootOf?_eq_some_iff.mp h).1⟩
  rw [← Term.type_of_same hut]
  exact hu.isPointer

theorem rootOf?_of_hasPointer (h : s.HasPointer t) (hnull : t.isNull = false) :
    ∃ r, rootOf? (setsOf s) t = some r := by
  obtain ⟨n, hn⟩ := Option.isSome_iff_exists.mp (registered_iff.mpr ⟨t, h, BEq.rfl⟩)
  exact ⟨(setsOf s).sets.root n, by simp [rootOf?, hnull, hn]⟩

/-- A registered term has the root of another when it aliases that one. -/
theorem rootOf?_eq_some_iff_aliases (ht : s.HasPointer t)
    (ha : rootOf? (setsOf s) a = some r) : rootOf? (setsOf s) t = some r ↔ s.Aliases t a := by
  constructor
  · exact fun h => (rootOf?_eq_iff h ha).mp rfl
  · intro h
    have hreference := h.isReference_iff.mpr (isReference_of_rootOf? ha)
    obtain ⟨q, hq⟩ := rootOf?_of_hasPointer ht hreference.2
    rw [hq, (rootOf?_eq_iff hq ha).mpr h]

theorem mem_roots_of (h : rootOf? (setsOf s) t = some r) : r ∈ roots s := by
  obtain ⟨n, hn, -⟩ := number?_of_rootOf? h
  obtain ⟨u, hu, hut⟩ := exists_of_number? hn
  exact mem_firsts.mpr (List.mem_filterMap.mpr ⟨u, hu, (rootOf?_congr _ hut).trans h⟩)

theorem exists_of_mem_roots (h : r ∈ roots s) :
    ∃ t ∈ (setsOf s).terms, rootOf? (setsOf s) t = some r :=
  List.mem_filterMap.mp (mem_firsts.mp h)

/-- The numbers of the spaces are the places of the roots. -/
theorem exists_spaceOf?_iff : (∃ t, t.isNull = false ∧ (ofState s).spaceOf? t = some n) ↔
    ∃ r ∈ roots s, n = (roots s).idxOf r + 1 := by
  constructor
  · rintro ⟨t, hnull, h⟩
    rw [spaceOf?_ofState hnull, Option.map_eq_some_iff] at h
    obtain ⟨r, hr, rfl⟩ := h
    exact ⟨r, mem_roots_of hr, rfl⟩
  · rintro ⟨r, hr, rfl⟩
    obtain ⟨t, -, ht⟩ := exists_of_mem_roots hr
    have hnull := (rootOf?_eq_some_iff.mp ht).1
    exact ⟨t, hnull, by rw [spaceOf?_ofState hnull, ht]; rfl⟩

theorem exists_place_iff :
    (∃ r ∈ roots s, n = (roots s).idxOf r + 1) ↔ 1 ≤ n ∧ n ≤ (roots s).length := by
  constructor
  · rintro ⟨r, hr, rfl⟩
    have := List.idxOf_lt_length_of_mem hr
    omega
  · rintro ⟨hpos, hle⟩
    have hlt : n - 1 < (roots s).length := by omega
    have hnodup : (roots s).Nodup := nodup_firsts _
    refine ⟨(roots s)[n - 1], List.getElem_mem _, ?_⟩
    rw [hnodup.idxOf_getElem]
    omega

/-- There are as many spaces as roots. -/
theorem count_ofState (s : SymbolicState) : (ofState s).count = (roots s).length := by
  have hmem (n : Nat) :
      n ∈ (((ofState s).spaces.map (·.2)).filter (· != nullSpace)).eraseDups ↔
        n ∈ List.range' 1 (roots s).length := by
    rw [List.mem_eraseDups, List.mem_filter, List.mem_map, List.mem_range'_1]
    have hplace : (∃ entry ∈ (ofState s).spaces, entry.2 = n) ∧ (n != nullSpace) = true ↔
        ∃ r ∈ roots s, n = (roots s).idxOf r + 1 := by
      constructor
      · rintro ⟨⟨⟨t, _⟩, hentry, rfl⟩, hn⟩
        rcases mem_ofState.mp hentry with ⟨-, ⟨-, rfl⟩ | ⟨r, hr, hplace⟩⟩
        · simp at hn
        · exact ⟨r, mem_roots_of hr, hplace⟩
      · rintro ⟨r, hr, rfl⟩
        obtain ⟨t, ht, hroot⟩ := exists_of_mem_roots hr
        exact ⟨⟨_, mem_ofState.mpr ⟨ht, .inr ⟨r, hroot, rfl⟩⟩, rfl⟩, by simp [nullSpace]⟩
    rw [hplace, exists_place_iff]
    omega
  have hperm := (List.perm_ext_iff_of_nodup (nodup_eraseDups _) (List.nodup_range' 1)).mpr hmem
  rw [count, hperm.length_eq, List.length_range']

/-- Spaces are in the order in which the traversal comes to their members. -/
theorem place_lt_place_iff (ha : rootOf? (setsOf s) a = some r)
    (hb : rootOf? (setsOf s) b = some q) : (roots s).idxOf r < (roots s).idxOf q ↔
      ComesFirst (registered s) (s.Aliases · a) (s.Aliases · b) := by
  have hcongr (k : Nat) (u v : Term) (huv : (u == v) = true) :
      rootOf? (setsOf s) u = some k ↔ rootOf? (setsOf s) v = some k := by
    rw [rootOf?_congr _ huv]
  rw [idxOf_lt_idxOf_iff, roots, comesFirst_firsts (by simp_all) (by simp_all),
    comesFirst_filterMap, (represents_setsOf s).terms_eq,
    comesFirst_firsts (hcongr r) (hcongr q)]
  refine comesFirst_congr (fun t ht => ?_) fun t ht => ?_
  · exact rootOf?_eq_some_iff_aliases (mem_registered.mp ht) ha
  · exact rootOf?_eq_some_iff_aliases (mem_registered.mp ht) hb

/-- The spaces are the classes of the aliases of a state, in the order of the traversal. -/
structure IsPartition (s : SymbolicState) (m : MemorySpaces) : Prop where
  null_space : ∀ t : Term, t.isNull = true → m.spaceOf? t = some nullSpace
  hasSpace_iff : ∀ t : Term, t.isNull = false →
    ((m.spaceOf? t).isSome = true ↔ ∃ u, s.HasPointer u ∧ (u == t) = true)
  space_eq_iff : ∀ a b : Term, s.HasPointer a → s.HasPointer b → a.isNull = false →
    b.isNull = false → (m.spaceOf? a = m.spaceOf? b ↔ s.Aliases a b)
  number_iff : ∀ n : Nat,
    (∃ t : Term, t.isNull = false ∧ m.spaceOf? t = some n) ↔ 1 ≤ n ∧ n ≤ m.count
  lt_iff : ∀ (a b : Term) (x y : Nat), a.isNull = false → b.isNull = false →
    m.spaceOf? a = some x → m.spaceOf? b = some y →
      (x < y ↔ ComesFirst (registered s) (s.Aliases · a) (s.Aliases · b))

theorem isPartition_ofState (s : SymbolicState) : IsPartition s (ofState s) where
  null_space t h := spaceOf?_null _ h
  hasSpace_iff t h := spaceOf?_isSome_iff h
  space_eq_iff a b ha hb hnullA hnullB := by
    obtain ⟨r, hr⟩ := rootOf?_of_hasPointer ha hnullA
    obtain ⟨q, hq⟩ := rootOf?_of_hasPointer hb hnullB
    rw [spaceOf?_ofState hnullA, spaceOf?_ofState hnullB, hr, hq, ← rootOf?_eq_iff hr hq]
    simp [List.idxOf_inj (mem_roots_of hr)]
  number_iff n := by rw [exists_spaceOf?_iff, exists_place_iff, count_ofState]
  lt_iff a b x y hnullA hnullB hx hy := by
    rw [spaceOf?_ofState hnullA, Option.map_eq_some_iff] at hx
    rw [spaceOf?_ofState hnullB, Option.map_eq_some_iff] at hy
    obtain ⟨r, hr, rfl⟩ := hx
    obtain ⟨q, hq, rfl⟩ := hy
    rw [Nat.add_lt_add_iff_right, place_lt_place_iff hr hq]

end MemorySpaces
end Concolic
