import Concolic.Proofs.ValueType.Values
import Concolic.ValueType.Merge
import Mathlib.Data.List.Perm.Basic

/-!
# Merging operand types

What types merge to depends on which types there are, not on their order or number: ancestors of one
another are the same class, and the widest integral type is told apart from the others by its bits.
Only `char` and `short` have as many, so between these two the order matters. The merge is an upper
bound of the classes, and it has room for the numbers of all operands unless a `char` stands beside
a narrow type with negative numbers.

## Main definitions

* `Hierarchy.IsOrder` — classes are ordered by being ancestors of one another.
* `ValueType.IsTie` — `char` and `short` are the widest of integral types.
* `ValueType.MixesSigns` — `char` is, and there are types with negative numbers.
* `ValueType.IsUniform` — the types are of one kind.
* `ValueType.Merges` — all that types can merge to.

## Main statements

* `ValueType.commonAncestor?_eq_some_iff` — the class that is an ancestor of all is found.
* `ValueType.merge?_congr` — the order and number of the operands do not matter.
* `ValueType.exists_merge?_iff` — which types merge.
-/

namespace Concolic

/-- Being an ancestor is a partial order of the classes. -/
structure Hierarchy.IsOrder (hierarchy : Hierarchy) : Prop where
  refl : ∀ a, hierarchy.isAncestor a a = true
  antisymm : ∀ {a b}, hierarchy.isAncestor a b = true → hierarchy.isAncestor b a = true → a = b
  trans : ∀ {a b c}, hierarchy.isAncestor a b = true → hierarchy.isAncestor b c = true →
    hierarchy.isAncestor a c = true

namespace ValueType

variable {hierarchy : Hierarchy} {types types' seen rest rest' : List ValueType}
  {first first' second r s t : ValueType} {classes : List String} {a c : String}

/-- `char` and `short` are among the operands, all of which are integral, and nothing is wider. -/
def IsTie (types : List ValueType) : Prop :=
  (∀ t ∈ types, t = .null ∨ t.isIntegral = true) ∧
    .char ∈ types ∧ .short ∈ types ∧ .int ∉ types ∧ .long ∉ types

/-- `char`, which has no negative numbers, is beside a type that has some, and nothing is wider. -/
def MixesSigns (types : List ValueType) : Prop :=
  .char ∈ types ∧ (.byte ∈ types ∨ .short ∈ types) ∧ .int ∉ types ∧ .long ∉ types

/-- The types are of one kind: alike, of the heap, integral or real. The type of `null` is of every
kind. -/
def IsUniform (types : List ValueType) : Prop :=
  (∃ r, ∀ t ∈ types, t = .null ∨ t = r) ∨ (∀ t ∈ types, t.isPointer = true) ∨
    (∀ t ∈ types, t = .null ∨ t.isIntegral = true) ∨ ∀ t ∈ types, t = .null ∨ t.isReal = true

/-! ## Candidates -/

/-- One more candidate, if it is new and not `null`. -/
def addCandidate (seen : List ValueType) (t : ValueType) : List ValueType :=
  if t = .null ∨ t ∈ seen then seen else seen ++ [t]

theorem mem_addCandidate : s ∈ addCandidate seen t ↔ s ∈ seen ∨ (s = t ∧ s ≠ .null) := by
  unfold addCandidate
  by_cases h : t = .null ∨ t ∈ seen
  · rw [if_pos h, iff_comm, or_iff_left_iff_imp]
    rintro ⟨rfl, hnull⟩
    exact h.resolve_left hnull
  · rw [if_neg h, List.mem_append, List.mem_singleton]
    rw [not_or] at h
    refine or_congr_right (iff_self_and.mpr ?_)
    rintro rfl
    exact h.1

theorem nodup_addCandidate (hseen : seen.Nodup) : (addCandidate seen t).Nodup := by
  unfold addCandidate
  split
  · exact hseen
  · next h =>
    rw [not_or] at h
    exact (List.perm_append_singleton t seen).nodup_iff.mpr (List.nodup_cons.mpr ⟨h.2, hseen⟩)

theorem mem_foldl_addCandidate :
    s ∈ types.foldl addCandidate seen ↔ s ∈ seen ∨ (s ∈ types ∧ s ≠ .null) := by
  induction types generalizing seen with
  | nil => simp
  | cons t types ih =>
    rw [List.foldl_cons, ih, mem_addCandidate, List.mem_cons]
    tauto

theorem nodup_foldl_addCandidate (hseen : seen.Nodup) :
    (types.foldl addCandidate seen).Nodup := by
  induction types generalizing seen with
  | nil => exact hseen
  | cons t types ih => exact ih (nodup_addCandidate hseen)

theorem nodup_mergeCandidates (types : List ValueType) : (mergeCandidates types).Nodup :=
  nodup_foldl_addCandidate List.nodup_nil

theorem mem_mergeCandidates : t ∈ mergeCandidates types ↔ t ∈ types ∧ t ≠ .null :=
  mem_foldl_addCandidate.trans (or_iff_right List.not_mem_nil)

theorem mergeCandidates_perm (h : ∀ t, t ∈ types ↔ t ∈ types') :
    (mergeCandidates types).Perm (mergeCandidates types') := by
  rw [List.perm_ext_iff_of_nodup (nodup_mergeCandidates _) (nodup_mergeCandidates _)]
  intro t
  rw [mem_mergeCandidates, mem_mergeCandidates, h]

/-! ## Classes -/

theorem mem_filterMap_className? : c ∈ types.filterMap className? ↔ .class c ∈ types := by
  rw [List.mem_filterMap]
  constructor
  · rintro ⟨t, ht, hc⟩
    cases t with
    | «class» => cases hc; exact ht
    | _ => cases hc
  · intro h
    exact ⟨_, h, rfl⟩

/-- The class that is an ancestor of all, if there is one, wherever it stands. -/
theorem commonAncestor?_eq_some_iff (h : hierarchy.IsOrder) :
    commonAncestor? hierarchy classes = some a ↔
      a ∈ classes ∧ ∀ c ∈ classes, hierarchy.isAncestor a c = true := by
  have hall {b : String} : (classes.all fun other =>
      b == other || hierarchy.isAncestor b other) = true ↔
        ∀ c ∈ classes, hierarchy.isAncestor b c = true := by
    rw [List.all_eq_true]
    refine forall₂_congr fun c _ => ?_
    rw [Bool.or_eq_true, beq_iff_eq, or_iff_right_iff_imp]
    rintro rfl
    exact h.refl b
  have hfound {b : String} (hb : commonAncestor? hierarchy classes = some b) :
      b ∈ classes ∧ ∀ c ∈ classes, hierarchy.isAncestor b c = true := by
    unfold commonAncestor? at hb
    have habove := List.find?_some hb
    exact ⟨List.mem_of_find?_eq_some hb, hall.mp habove⟩
  constructor
  · exact hfound
  · rintro ⟨ha, habove⟩
    cases hb : commonAncestor? hierarchy classes with
    | none => exact absurd (hall.mpr habove) (List.find?_eq_none.mp hb a ha)
    | some b =>
      obtain ⟨hmem, habove'⟩ := hfound hb
      rw [h.antisymm (habove b hmem) (habove' a ha)]

/-! ## Integral types -/

theorem widest_cons : widest first (t :: rest) =
    widest (if first.bits?.getD 0 ≤ t.bits?.getD 0 then t else first) rest := rfl

theorem widest_mem (first : ValueType) (rest : List ValueType) :
    widest first rest ∈ first :: rest := by
  induction rest generalizing first with
  | nil => exact List.mem_singleton_self _
  | cons t rest ih =>
    rw [widest_cons]
    split
    · exact List.mem_cons_of_mem _ (ih t)
    · exact List.cons_subset_cons _ (List.subset_cons_self ..) (ih first)

theorem bits_le_widest (first : ValueType) (rest : List ValueType) :
    ∀ t ∈ first :: rest, t.bits?.getD 0 ≤ (widest first rest).bits?.getD 0 := by
  induction rest generalizing first with
  | nil => simp [widest]
  | cons s rest ih =>
    rw [widest_cons]
    have hle := ih (if first.bits?.getD 0 ≤ s.bits?.getD 0 then s else first)
    have hhead := hle _ (List.mem_cons_self ..)
    have hboth : first.bits?.getD 0 ≤
          (if first.bits?.getD 0 ≤ s.bits?.getD 0 then s else first).bits?.getD 0 ∧
        s.bits?.getD 0 ≤
          (if first.bits?.getD 0 ≤ s.bits?.getD 0 then s else first).bits?.getD 0 := by
      split <;> omega
    intro t ht
    rw [List.mem_cons, List.mem_cons] at ht
    obtain rfl | rfl | ht := ht
    · exact hboth.1.trans hhead
    · exact hboth.2.trans hhead
    · exact hle t (List.mem_cons_of_mem _ ht)

/-- Integral types with as many bits are the same, or `char` and `short`. -/
theorem eq_or_of_bits_eq (hs : s.isIntegral = true) (ht : t.isIntegral = true)
    (h : s.bits?.getD 0 = t.bits?.getD 0) :
    s = t ∨ (s = .char ∧ t = .short) ∨ (s = .short ∧ t = .char) := by
  cases s <;> cases t <;> simp_all [isIntegral, bits?]

theorem isTie_of_mem (hmem : ∀ t, t ∈ first :: rest ↔ t ∈ types ∧ t ≠ .null)
    (hintegral : ∀ t ∈ first :: rest, t.isIntegral = true) (hchar : .char ∈ types)
    (hshort : .short ∈ types) (hbits : ∀ t ∈ first :: rest, t.bits?.getD 0 ≤ 16) :
    IsTie types := by
  have hbits' {t : ValueType} (ht : t ∈ types) (hnull : t ≠ .null) : t.bits?.getD 0 ≤ 16 :=
    hbits t ((hmem t).mpr ⟨ht, hnull⟩)
  refine ⟨fun t ht => ?_, hchar, hshort, fun hint => ?_, fun hlong => ?_⟩
  · by_cases hnull : t = .null
    · exact .inl hnull
    · exact .inr (hintegral t ((hmem t).mpr ⟨ht, hnull⟩))
  · exact absurd (hbits' hint nofun) (by decide)
  · exact absurd (hbits' hlong nofun) (by decide)

/-- The widest type is the same in whatever order, unless there is a tie. -/
theorem widest_perm (hperm : (first :: rest).Perm (first' :: rest'))
    (hmem : ∀ t, t ∈ first :: rest ↔ t ∈ types ∧ t ≠ .null)
    (hintegral : ∀ t ∈ first :: rest, t.isIntegral = true) (htie : ¬IsTie types) :
    widest first rest = widest first' rest' := by
  have hleft := widest_mem first rest
  have hright := hperm.mem_iff.mpr (widest_mem first' rest')
  have hbits : (widest first rest).bits?.getD 0 = (widest first' rest').bits?.getD 0 :=
    Nat.le_antisymm (bits_le_widest first' rest' _ (hperm.mem_iff.mp hleft))
      (bits_le_widest first rest _ hright)
  have hwidest := bits_le_widest first rest
  rcases eq_or_of_bits_eq (hintegral _ hleft) (hintegral _ hright) hbits with
    heq | ⟨hchar, hshort⟩ | ⟨hshort, hchar⟩
  · exact heq
  · rw [hchar] at hleft hwidest
    rw [hshort] at hright
    exact absurd (isTie_of_mem hmem hintegral ((hmem _).mp hleft).1 ((hmem _).mp hright).1 hwidest)
      htie
  · rw [hshort] at hleft hwidest
    rw [hchar] at hright
    exact absurd (isTie_of_mem hmem hintegral ((hmem _).mp hright).1 ((hmem _).mp hleft).1 hwidest)
      htie

/-! ## Order -/

theorem all_eq_of_perm {p : ValueType → Bool} (h : types.Perm types') :
    types.all p = types'.all p := by
  rw [Bool.eq_iff_iff, List.all_eq_true, List.all_eq_true]
  exact forall_congr' fun t => by rw [h.mem_iff]

theorem commonAncestor?_perm (horder : hierarchy.IsOrder) {classes' : List String}
    (h : classes.Perm classes') :
    commonAncestor? hierarchy classes = commonAncestor? hierarchy classes' := by
  refine Option.ext fun a => ?_
  rw [commonAncestor?_eq_some_iff horder, commonAncestor?_eq_some_iff horder, h.mem_iff]
  exact and_congr_right' (forall_congr' fun c => by rw [h.mem_iff])

/-- What two or more candidates merge to. -/
def mergeSeveral? (hierarchy : Hierarchy) (first : ValueType) (rest : List ValueType) :
    Option ValueType :=
  if (first :: rest).all isPointer then
    if ((first :: rest).filterMap className?).length = (first :: rest).length then
      some (((commonAncestor? hierarchy ((first :: rest).filterMap className?)).map .class).getD
        object)
    else some object
  else if (first :: rest).all isIntegral then some (widest first rest)
  else if (first :: rest).all isReal then some .double
  else none

theorem merge?_of_none (h : mergeCandidates types = []) :
    merge? hierarchy types = if types.isEmpty then none else some .null := by
  rw [merge?, h]

theorem merge?_of_one (h : mergeCandidates types = [t]) : merge? hierarchy types = some t := by
  rw [merge?, h]

theorem merge?_of_several (h : mergeCandidates types = first :: second :: rest) :
    merge? hierarchy types = mergeSeveral? hierarchy first (second :: rest) := by
  rw [merge?, h]
  rfl

theorem mergeSeveral?_perm (horder : hierarchy.IsOrder)
    (hperm : (first :: rest).Perm (first' :: rest'))
    (hmem : ∀ t, t ∈ first :: rest ↔ t ∈ types ∧ t ≠ .null) (htie : ¬IsTie types) :
    mergeSeveral? hierarchy first rest = mergeSeveral? hierarchy first' rest' := by
  have hclasses := hperm.filterMap className?
  have hwidest (hintegral : (first' :: rest').all isIntegral = true) :
      widest first rest = widest first' rest' := by
    rw [← all_eq_of_perm hperm, List.all_eq_true] at hintegral
    exact widest_perm hperm hmem hintegral htie
  unfold mergeSeveral?
  rw [all_eq_of_perm hperm, all_eq_of_perm hperm, all_eq_of_perm hperm, hclasses.length_eq,
    hperm.length_eq, commonAncestor?_perm horder hclasses]
  by_cases hintegral : (first' :: rest').all isIntegral = true
  · rw [hwidest hintegral]
  · rw [if_neg hintegral, if_neg hintegral]

/-- What types merge to depends on which there are, unless `char` and `short` are the widest. -/
theorem merge?_congr (horder : hierarchy.IsOrder) (hmem : ∀ t, t ∈ types ↔ t ∈ types')
    (htie : ¬IsTie types) : merge? hierarchy types = merge? hierarchy types' := by
  have hperm := mergeCandidates_perm hmem
  have hcandidates (t : ValueType) := @mem_mergeCandidates types t
  rcases hc : mergeCandidates types with _ | ⟨first, _ | ⟨second, rest⟩⟩
  · rw [hc, List.nil_perm] at hperm
    have hempty : types.isEmpty = types'.isEmpty := by
      rw [Bool.eq_iff_iff, List.isEmpty_iff, List.isEmpty_iff, List.eq_nil_iff_forall_not_mem,
        List.eq_nil_iff_forall_not_mem]
      exact forall_congr' fun t => by rw [hmem]
    rw [merge?_of_none hc, merge?_of_none hperm, hempty]
  · rw [hc, List.singleton_perm] at hperm
    rw [merge?_of_one hc, merge?_of_one hperm.symm]
  · rcases hc' : mergeCandidates types' with _ | ⟨first', _ | ⟨second', rest'⟩⟩
    · rw [hc, hc'] at hperm
      exact absurd hperm.length_eq (by simp)
    · rw [hc, hc'] at hperm
      exact absurd hperm.length_eq (by simp)
    · rw [hc] at hcandidates
      rw [hc, hc'] at hperm
      rw [merge?_of_several hc, merge?_of_several hc']
      exact mergeSeveral?_perm horder hperm hcandidates htie

/-! ## Upper bounds -/

/-- All that types can merge to. The type of `null` is among those of any kind. -/
inductive Merges (hierarchy : Hierarchy) (types : List ValueType) : ValueType → Prop
  /-- The only type there is. -/
  | alike {t : ValueType} : (∀ s ∈ types, s = .null ∨ s = t) → Merges hierarchy types t
  /-- The root of the classes, for whatever points to the heap. -/
  | root : (∀ s ∈ types, s.isPointer = true) → Merges hierarchy types object
  /-- An ancestor of all classes. -/
  | ancestor {a : String} : (∀ s ∈ types, s.isPointer = true) →
      (∀ c, .class c ∈ types → hierarchy.isAncestor a c = true) → Merges hierarchy types (.class a)
  /-- The widest of integral types. -/
  | widest {t : ValueType} : (∀ s ∈ types, s = .null ∨ s.isIntegral = true) → t ∈ types →
      t.isIntegral = true → (∀ s ∈ types, s.bits?.getD 0 ≤ t.bits?.getD 0) →
      Merges hierarchy types t
  /-- The wider of the real types. -/
  | double : (∀ s ∈ types, s = .null ∨ s.isReal = true) → Merges hierarchy types .double

theorem merges_of_several (horder : hierarchy.IsOrder)
    (hmem : ∀ t, t ∈ first :: rest ↔ t ∈ types ∧ t ≠ .null)
    (h : mergeSeveral? hierarchy first rest = some r) : Merges hierarchy types r := by
  have hall {p : ValueType → Bool} (hp : (first :: rest).all p = true) :
      ∀ s ∈ types, s = .null ∨ p s = true := by
    intro s hs
    rw [or_iff_not_imp_left]
    intro hnull
    exact List.all_eq_true.mp hp s ((hmem s).mpr ⟨hs, hnull⟩)
  unfold mergeSeveral? at h
  split at h
  · next hpointers =>
    have hpointer : ∀ s ∈ types, s.isPointer = true := by
      intro s hs
      rcases hall hpointers s hs with rfl | hs
      · rfl
      · exact hs
    split at h
    · cases hfound : commonAncestor? hierarchy ((first :: rest).filterMap className?) with
      | none =>
        rw [hfound] at h
        obtain rfl := Option.some.inj h
        exact .root hpointer
      | some a =>
        rw [hfound] at h
        obtain rfl := Option.some.inj h
        refine .ancestor hpointer fun c hc => ?_
        refine ((commonAncestor?_eq_some_iff horder).mp hfound).2 c ?_
        exact mem_filterMap_className?.mpr ((hmem _).mpr ⟨hc, nofun⟩)
    · obtain rfl := Option.some.inj h
      exact .root hpointer
  · split at h
    · next hintegral =>
      obtain rfl := Option.some.inj h
      have hwidest := widest_mem first rest
      refine .widest (hall hintegral) ((hmem _).mp hwidest).1
        (List.all_eq_true.mp hintegral _ hwidest) fun s hs => ?_
      by_cases hnull : s = .null
      · rw [hnull]
        exact Nat.zero_le _
      · exact bits_le_widest first rest s ((hmem s).mpr ⟨hs, hnull⟩)
    · split at h
      · next hreal =>
        obtain rfl := Option.some.inj h
        exact .double (hall hreal)
      · cases h

theorem merges_of_merge? (horder : hierarchy.IsOrder) (h : merge? hierarchy types = some r) :
    Merges hierarchy types r := by
  have hmem (t : ValueType) := @mem_mergeCandidates types t
  rcases hc : mergeCandidates types with _ | ⟨first, _ | ⟨second, rest⟩⟩
  · rw [hc] at hmem
    refine .alike fun s hs => .inl ?_
    by_contra hnull
    exact List.not_mem_nil ((hmem s).mpr ⟨hs, hnull⟩)
  · rw [merge?_of_one hc] at h
    obtain rfl := Option.some.inj h
    rw [hc] at hmem
    refine .alike fun s hs => or_iff_not_imp_left.mpr fun hnull => ?_
    exact List.mem_singleton.mp ((hmem s).mpr ⟨hs, hnull⟩)
  · rw [merge?_of_several hc] at h
    rw [hc] at hmem
    exact merges_of_several horder hmem h

theorem Merges.isUniform (h : Merges hierarchy types r) : IsUniform types := by
  cases h with
  | alike hsame => exact .inl ⟨_, hsame⟩
  | root hpointer | ancestor hpointer => exact .inr (.inl hpointer)
  | widest hintegral => exact .inr (.inr (.inl hintegral))
  | double hreal => exact .inr (.inr (.inr hreal))

theorem exists_mergeSeveral? (h : (first :: rest).all isPointer = true ∨
    (first :: rest).all isIntegral = true ∨ (first :: rest).all isReal = true) :
    ∃ r, mergeSeveral? hierarchy first rest = some r := by
  unfold mergeSeveral?
  split
  · split <;> exact ⟨_, rfl⟩
  · next hpointer =>
    split
    · exact ⟨_, rfl⟩
    · next hintegral =>
      rw [if_pos ((h.resolve_left hpointer).resolve_left hintegral)]
      exact ⟨_, rfl⟩

/-- Types merge if there are any and they are of one kind. -/
theorem exists_merge?_iff (horder : hierarchy.IsOrder) :
    (∃ r, merge? hierarchy types = some r) ↔ types ≠ [] ∧ IsUniform types := by
  constructor
  · rintro ⟨r, h⟩
    refine ⟨?_, (merges_of_merge? horder h).isUniform⟩
    rintro rfl
    cases h
  · rintro ⟨hne, huniform⟩
    have hmem {t : ValueType} := @mem_mergeCandidates types t
    have hdistinct := nodup_mergeCandidates types
    rcases hc : mergeCandidates types with _ | ⟨first, _ | ⟨second, rest⟩⟩
    · rw [merge?_of_none hc, if_neg (by rwa [List.isEmpty_iff])]
      exact ⟨_, rfl⟩
    · exact ⟨_, merge?_of_one hc⟩
    · rw [merge?_of_several hc]
      rw [hc] at hmem hdistinct
      have hall {p : ValueType → Bool} (hp : ∀ t ∈ types, t = .null ∨ p t = true) :
          (first :: second :: rest).all p = true := by
        rw [List.all_eq_true]
        intro t ht
        obtain ⟨ht, hnull⟩ := hmem.mp ht
        exact (hp t ht).resolve_left hnull
      rcases huniform with ⟨r, hsame⟩ | hpointer | hintegral | hreal
      · obtain ⟨hfirst, hfirst'⟩ := hmem.mp (List.mem_cons_self ..)
        obtain ⟨hsecond, hsecond'⟩ := hmem.mp (List.mem_cons_of_mem first (List.mem_cons_self ..))
        have heq : first = second := ((hsame _ hfirst).resolve_left hfirst').trans
          ((hsame _ hsecond).resolve_left hsecond').symm
        exact absurd (heq ▸ List.mem_cons_self ..) (List.nodup_cons.mp hdistinct).1
      · exact exists_mergeSeveral? (.inl (hall fun t ht => .inr (hpointer t ht)))
      · exact exists_mergeSeveral? (.inr (.inl (hall hintegral)))
      · exact exists_mergeSeveral? (.inr (.inr (hall hreal)))

namespace Merges

theorem isAncestor (horder : hierarchy.IsOrder) (h : Merges hierarchy types r)
    (hc : .class c ∈ types) :
    r = object ∨ ∃ a, r = .class a ∧ hierarchy.isAncestor a c = true := by
  cases h with
  | alike hsame =>
    obtain rfl := (hsame _ hc).resolve_left nofun
    exact .inr ⟨c, rfl, horder.refl c⟩
  | root => exact .inl rfl
  | ancestor _ habove => exact .inr ⟨_, rfl, habove c hc⟩
  | widest hintegral => exact absurd ((hintegral _ hc).resolve_left nofun) Bool.false_ne_true
  | double hreal => exact absurd ((hreal _ hc).resolve_left nofun) Bool.false_ne_true

theorem bits_le (h : Merges hierarchy types r) (ht : t ∈ types) (hintegral : t.isIntegral = true) :
    r ∈ types ∧ r.isIntegral = true ∧ t.bits?.getD 0 ≤ r.bits?.getD 0 := by
  have hnull : t ≠ .null := by
    rintro rfl
    cases hintegral
  cases h with
  | alike hsame =>
    obtain rfl := (hsame t ht).resolve_left hnull
    exact ⟨ht, hintegral, Nat.le_refl _⟩
  | root hpointer | ancestor hpointer =>
    have hnumeric : t.isNumeric = true := by rw [isNumeric, hintegral, Bool.true_or]
    exact absurd ((not_isPointer_of_isNumeric hnumeric).symm.trans (hpointer t ht))
      Bool.false_ne_true
  | widest _ hr hrintegral hbits => exact ⟨hr, hrintegral, hbits t ht⟩
  | double hreal =>
    exact absurd ((isReal_of_isIntegral hintegral).symm.trans ((hreal t ht).resolve_left hnull))
      Bool.false_ne_true

/-- Only where `char` is the widest can there be a number that it has no room for, or that there is
no room for in a `short` as wide. -/
theorem holds_of_isIntegral (h : Merges hierarchy types r) (hsigns : ¬MixesSigns types)
    (ht : t ∈ types) (hintegral : t.isIntegral = true) {q : Quantity} (hq : t.Holds q) :
    r.Holds q := by
  obtain ⟨hr, hrintegral, hbits⟩ := h.bits_le ht hintegral
  have hnarrow (hle : r.bits?.getD 0 ≤ 16) : .int ∉ types ∧ .long ∉ types := by
    constructor
    · intro hint
      exact absurd ((h.bits_le hint rfl).2.2.trans hle) (by decide)
    · intro hlong
      exact absurd ((h.bits_le hlong rfl).2.2.trans hle) (by decide)
  refine Holds.widen hintegral hrintegral hbits ?_ ?_ hq
  · rintro ⟨rfl, rfl | rfl⟩
    · exact hsigns ⟨hr, .inl ht, hnarrow (Nat.le_refl _)⟩
    · exact hsigns ⟨hr, .inr ht, hnarrow (Nat.le_refl _)⟩
  · rintro ⟨rfl, rfl⟩
    exact hsigns ⟨ht, .inr hr, hnarrow (Nat.le_refl _)⟩

theorem holds_of_isReal (h : Merges hierarchy types r) (ht : t ∈ types) (hreal : t.isReal = true)
    {q : Quantity} (hq : t.Holds q) : r.Holds q := by
  have hnull : t ≠ .null := by
    rintro rfl
    cases hreal
  cases h with
  | alike hsame =>
    obtain rfl := (hsame t ht).resolve_left hnull
    exact hq
  | root hpointer | ancestor hpointer =>
    have hnumeric : t.isNumeric = true := by rw [isNumeric, hreal, Bool.or_true]
    exact absurd ((not_isPointer_of_isNumeric hnumeric).symm.trans (hpointer t ht))
      Bool.false_ne_true
  | widest hintegral =>
    have hreal' := isReal_of_isIntegral ((hintegral t ht).resolve_left hnull)
    exact absurd (hreal'.symm.trans hreal) Bool.false_ne_true
  | double =>
    cases t with
    | float => exact holds_double_of_float hq
    | double => exact hq
    | _ => cases hreal

end Merges

/-- Types merge if they are of one kind. What they merge to depends on which there are, unless `char`
and `short` are the widest. It is an ancestor of all classes or the root of them, the type with most
bits of integral ones, and it has room for the numbers of all operands unless `char` is the widest
and others have numbers below zero. -/
theorem merging_laws (horder : hierarchy.IsOrder) :
    (∀ {types types' : List ValueType}, (∀ t, t ∈ types ↔ t ∈ types') → ¬IsTie types →
      merge? hierarchy types = merge? hierarchy types') ∧
    (∀ {types : List ValueType}, (∃ r, merge? hierarchy types = some r) ↔
      types ≠ [] ∧ IsUniform types) ∧
    ∀ {types : List ValueType} {r : ValueType}, merge? hierarchy types = some r →
      (∀ c, .class c ∈ types →
        r = object ∨ ∃ a, r = .class a ∧ hierarchy.isAncestor a c = true) ∧
      (∀ t ∈ types, t.isIntegral = true → r ∈ types ∧ t.bits?.getD 0 ≤ r.bits?.getD 0) ∧
      (¬MixesSigns types → ∀ t ∈ types, t.isNumeric = true → ∀ q, t.Holds q → r.Holds q) := by
  refine ⟨merge?_congr horder, exists_merge?_iff horder, fun {types r} h => ?_⟩
  have hmerges := merges_of_merge? horder h
  refine ⟨fun c hc => hmerges.isAncestor horder hc, fun t ht hintegral => ?_,
    fun hsigns t ht hnumeric q hq => ?_⟩
  · obtain ⟨hr, -, hbits⟩ := hmerges.bits_le ht hintegral
    exact ⟨hr, hbits⟩
  · rw [isNumeric, Bool.or_eq_true] at hnumeric
    rcases hnumeric with hintegral | hreal
    · exact hmerges.holds_of_isIntegral hsigns ht hintegral hq
    · exact hmerges.holds_of_isReal ht hreal hq

/-- Every class extends the root, and `B` extends `A` as well. -/
def twoClasses : Hierarchy where
  isAncestor a d := a == d || a == "java/lang/Object" || (a == "A" && d == "B")

theorem isOrder_twoClasses : twoClasses.IsOrder where
  refl a := by simp [twoClasses]
  antisymm h h' := by
    simp only [twoClasses, Bool.or_eq_true, Bool.and_eq_true, beq_iff_eq] at h h'
    grind
  trans h h' := by
    simp only [twoClasses, Bool.or_eq_true, Bool.and_eq_true, beq_iff_eq] at h h' ⊢
    grind

/-- Operands of every kind: classes in either order, with `null` and one of them twice; integral
types with `char` among them; real types. -/
theorem merging_kinds : twoClasses.IsOrder ∧
    merge? twoClasses [.class "B", .null, .class "A"] =
      merge? twoClasses [.class "A", .class "B", .null, .class "B"] ∧
    merge? twoClasses [.class "B", .null, .class "A"] = some (.class "A") ∧
    merge? twoClasses [.byte, .int, .char] = some .int ∧
    (∀ q, byte.Holds q → int.Holds q) ∧
    merge? twoClasses [.double, .float] = some .double ∧ ∀ q, float.Holds q → double.Holds q := by
  obtain ⟨hcongr, -, hupper⟩ := merging_laws isOrder_twoClasses
  have hclasses : ¬IsTie [.class "B", .null, .class "A"] := fun htie => by simp [IsTie] at htie
  have hsame : ∀ t : ValueType, t ∈ [.class "B", .null, .class "A"] ↔
      t ∈ [.class "A", .class "B", .null, .class "B"] := by
    intro t
    simp only [List.mem_cons, List.not_mem_nil, or_false]
    tauto
  have hintegral : merge? twoClasses [.byte, .int, .char] = some .int := by decide
  have hreal : merge? twoClasses [.double, .float] = some .double := by decide
  refine ⟨isOrder_twoClasses, hcongr hsame hclasses, by decide, hintegral, ?_, hreal, ?_⟩
  · exact (hupper hintegral).2.2 (by simp [MixesSigns]) .byte (by simp) rfl
  · exact (hupper hreal).2.2 (by simp [MixesSigns]) .float (by simp) rfl

/-- With `byte`, `char` is the wider type, but it has no room for numbers below zero, and between
`char` and `short` the last one is taken. -/
theorem merge_of_byte_and_char : twoClasses.IsOrder ∧
    merge? twoClasses [.byte, .char] = some .char ∧
    byte.Holds (.ofInt (-1)) ∧ ¬char.Holds (.ofInt (-1)) ∧
    merge? twoClasses [.char, .short] = some .short ∧
    merge? twoClasses [.short, .char] = some .char := by
  refine ⟨isOrder_twoClasses, by decide, ?_, ?_, by decide, by decide⟩
  · exact holds_byte_iff.mpr ⟨-1, by decide, by decide, rfl⟩
  · intro h
    obtain ⟨i, hlow, -, hi⟩ := holds_char_iff.mp h
    have hminus := Quantity.ofInt_injective hi
    omega

end ValueType
end Concolic
