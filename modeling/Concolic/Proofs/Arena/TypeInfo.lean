import Concolic.Proofs.Arena.Requirements
import Concolic.Proofs.Inlining.Names
import Concolic.Proofs.State.Linear
import Mathlib.Data.Set.Function
import Mathlib.Order.Interval.Set.Defs

/-!
# What type information says

The type information of a value says of every object and array that it reaches, once, of which type
it is. It binds the value to the load of a slot that holds it where the walk first comes to it, and
only there. So a value that several slots hold is bound to the first of them alone, and the root is
bound to none, whatever holds it.

## Main statements

* `Arena.types_run` — what is said along a walk, with flags that are numbered one after another.
* `Arena.bound_mem_iff` — a value is bound to the slot of which the requirements say first that it
  holds the value.
* `Arena.typeInfo_account` — what the type information of a value says; all slots are bound exactly
  if none holds what another one holds, or the root.
* `Arena.Couple.right_not_bound` — a slot that holds an object and is not bound to it.
-/

namespace Concolic

/-- Something to be said of the type of a value. -/
inductive TypeFact where
  /-- What lies on the heap has a flag for its type, which is set. -/
  | flagged (h : Handle)
  /-- A value is what the load of a slot reads. -/
  | bound (owner : Handle) (slot : Slot) (child : Handle)
  deriving DecidableEq

/-- The value that the fact is about. -/
def TypeFact.subject : TypeFact → Handle
  | .flagged h | .bound _ _ h => h

namespace Arena

open Spanning (orderOfAll Walks)

variable {a : Arena} {h k o owner root v : Handle} {slot : Slot} {via : Option Slot}
  {seen seen' hs ks : List Handle} {edges : List (Option Slot × Handle)} {used : Nat}
  {number : Handle → Nat} {onward ts : List (Spanning (Option Slot) Handle)}

/-! ## Facts -/

/-- How a fact is written, where the flags are numbered. -/
def typePredicates (a : Arena) (number : Handle → Nat) : TypeFact → List Predicate
  | .flagged h =>
    let flag : Term := .value .bool (NameSupply.name (number h))
    [⟨.state, .equal flag (.instanceOf (a.node h).type (a.term h)), {}⟩,
      ⟨.assume, .equal flag (.bool true), {}⟩]
  | .bound owner slot child => [⟨.state, .equal (a.term child) (slot.load (a.term owner)), {}⟩]

/-- The flag of a value by itself. -/
def ownType (a : Arena) (h : Handle) : List TypeFact :=
  if (a.node h).isOnHeap then [.flagged h] else []

/-- A value is bound to the slot that a walk comes through, if there is anything to be said behind
it. -/
def binding (owner : Handle) (t : Spanning (Option Slot) Handle) (behind : List TypeFact) :
    List TypeFact :=
  if behind.isEmpty then [] else t.via.toList.map fun slot => .bound owner slot t.vertex

mutual

/-- What is said along a walk. -/
def typeAccount (a : Arena) : Spanning (Option Slot) Handle → List TypeFact
  | .visit _ h onward => a.ownType h ++ typeAccountOfSlots a h onward
  | .again _ _ => []

/-- What is said along the ways out of a value. -/
def typeAccountOfSlots (a : Arena) (owner : Handle) :
    List (Spanning (Option Slot) Handle) → List TypeFact
  | [] => []
  | t :: rest =>
    binding owner t (typeAccount a t) ++ typeAccount a t ++ typeAccountOfSlots a owner rest

end

/-! ## Flags -/

/-- The objects and arrays among some values. -/
def onHeap (a : Arena) (hs : List Handle) : List Handle := hs.filter fun h => (a.node h).isOnHeap

/-- The values are numbered one after another. -/
def Numbered (number : Handle → Nat) (used : Nat) (hs : List Handle) : Prop :=
  hs.map number = List.range' used hs.length

theorem Numbered.of_append (h : Numbered number used (hs ++ ks)) :
    Numbered number used hs ∧ Numbered number (used + hs.length) ks := by
  rw [Numbered, List.map_append, List.length_append, ← List.range'_append_1] at h
  exact List.append_inj h (by simp)

/-- Values can be numbered from where a supply stands. -/
theorem exists_numbered (hnodup : hs.Nodup) (used : Nat) : ∃ number, Numbered number used hs := by
  refine ⟨fun h => used + hs.idxOf h, List.ext_getElem (by simp) fun i hi hi' => ?_⟩
  rw [List.getElem_map, hnodup.idxOf_getElem, List.getElem_range', Nat.one_mul]

/-- Every number in between is the number of one of the values. -/
theorem Numbered.bijOn (h : Numbered number used hs) :
    Set.BijOn number {v | v ∈ hs} (Set.Ico used (used + hs.length)) := by
  have hmem (i : Nat) : i ∈ hs.map number ↔ used ≤ i ∧ i < used + hs.length := by
    rw [h, List.mem_range'_1]
  have hnodup : (hs.map number).Nodup := by
    rw [h]
    exact List.nodup_range'
  refine ⟨fun v hv => (hmem _).mp (List.mem_map_of_mem hv), ?_, fun i hi => ?_⟩
  · exact fun v hv w hw heq => List.inj_on_of_nodup_map hnodup hv hw heq
  · exact List.mem_map.mp ((hmem i).mpr hi)

theorem onHeap_append (a : Arena) (hs ks : List Handle) :
    a.onHeap (hs ++ ks) = a.onHeap hs ++ a.onHeap ks := List.filter_append ..

theorem typeFlag_run (a : Arena) (h : Handle) (hnumber : Numbered number used (a.onHeap [h])) :
    (typeFlag (a.node h)).run ⟨used⟩ =
      ((a.ownType h).flatMap (a.typePredicates number), ⟨used + (a.onHeap [h]).length⟩) := by
  by_cases hheap : (a.node h).isOnHeap = true
  · have hself : a.onHeap [h] = [h] := by simp [onHeap, hheap]
    rw [hself] at hnumber ⊢
    have hused : number h = used := (List.cons.inj hnumber).1
    rw [typeFlag, if_pos hheap, ownType, if_pos hheap, List.flatMap_singleton, typePredicates,
      hused]
    rfl
  · have hnone : a.onHeap [h] = [] := by simp [onHeap, hheap]
    rw [hnone, typeFlag, if_neg hheap, ownType, if_neg hheap]
    rfl

theorem types_visit_run (a : Arena) (via : Option Slot) (h : Handle)
    (onward : List (Spanning (Option Slot) Handle)) (names : NameSupply) :
    (a.types (.visit via h onward)).run names =
      let (own, names) := (typeFlag (a.node h)).run names
      let (others, names) := (a.typesOfSlots h onward).run names
      (own ++ others, names) := rfl

theorem typesOfSlots_cons_run (a : Arena) (owner : Handle) (t : Spanning (Option Slot) Handle)
    (rest : List (Spanning (Option Slot) Handle)) (names : NameSupply) :
    (a.typesOfSlots owner (t :: rest)).run names =
      let (own, names) := (a.types t).run names
      let (others, names) := (a.typesOfSlots owner rest).run names
      let bindings := if own.isEmpty then [] else
        (a.loadInto owner t).toList.map fun load => ⟨.state, .equal (a.term t.vertex) load, {}⟩
      (bindings ++ own ++ others, names) := rfl

theorem flatMap_binding (a : Arena) (owner : Handle) (t : Spanning (Option Slot) Handle)
    (behind : List TypeFact) :
    (binding owner t behind).flatMap (a.typePredicates number) =
      if behind.isEmpty then [] else (a.loadInto owner t).toList.map fun load =>
        ⟨.state, .equal (a.term t.vertex) load, {}⟩ := by
  rw [binding, loadInto]
  cases behind.isEmpty <;> cases t.via <;> rfl

theorem isEmpty_flatMap_typePredicates (facts : List TypeFact) :
    (facts.flatMap (a.typePredicates number)).isEmpty = facts.isEmpty := by
  cases facts with
  | nil => rfl
  | cons fact facts => cases fact <;> rfl

mutual

/-- What is said along a walk, where the flags are numbered one after another. -/
theorem types_run (a : Arena) (number : Handle → Nat) :
    (t : Spanning (Option Slot) Handle) → (used : Nat) →
      Numbered number used (a.onHeap t.order) → (a.types t).run ⟨used⟩ =
        ((a.typeAccount t).flatMap (a.typePredicates number),
          ⟨used + (a.onHeap t.order).length⟩)
  | .visit via h onward, used, hnumber => by
    have hsplit : (Spanning.visit via h onward).order = [h] ++ orderOfAll onward := rfl
    rw [hsplit, onHeap_append] at hnumber ⊢
    obtain ⟨hown, honward⟩ := hnumber.of_append
    simp only [types_visit_run, typeFlag_run a h hown, typesOfSlots_run a h number onward _ honward,
      typeAccount, List.flatMap_append, List.length_append, Nat.add_assoc]
  | .again _ _, used, _ => rfl

theorem typesOfSlots_run (a : Arena) (owner : Handle) (number : Handle → Nat) :
    (ts : List (Spanning (Option Slot) Handle)) → (used : Nat) →
      Numbered number used (a.onHeap (orderOfAll ts)) → (a.typesOfSlots owner ts).run ⟨used⟩ =
        ((a.typeAccountOfSlots owner ts).flatMap (a.typePredicates number),
          ⟨used + (a.onHeap (orderOfAll ts)).length⟩)
  | [], used, _ => rfl
  | t :: rest, used, hnumber => by
    rw [orderOfAll, onHeap_append] at hnumber ⊢
    obtain ⟨hfirst, hrest⟩ := hnumber.of_append
    simp only [typesOfSlots_cons_run, types_run a number t _ hfirst,
      typesOfSlots_run a owner number rest _ hrest, typeAccountOfSlots, List.flatMap_append,
      List.length_append, Nat.add_assoc, isEmpty_flatMap_typePredicates, flatMap_binding]

end

/-! ## What is bound -/

theorem flagged_mem_ownType : .flagged k ∈ a.ownType h ↔ k = h ∧ (a.node h).isOnHeap = true := by
  rw [ownType]
  split <;> simp_all

theorem bound_not_mem_ownType : .bound o slot k ∉ a.ownType h := by
  rw [ownType]
  split <;> simp

theorem subject_of_mem_ownType {fact : TypeFact} (hfact : fact ∈ a.ownType h) :
    fact.subject = h := by
  cases fact with
  | flagged => exact (flagged_mem_ownType.mp hfact).1
  | bound => exact absurd hfact bound_not_mem_ownType

theorem nodup_ownType : (a.ownType h).Nodup := by
  rw [ownType]
  split <;> simp

theorem bound_mem_binding {t : Spanning (Option Slot) Handle} {behind : List TypeFact} :
    .bound o slot k ∈ binding owner t behind ↔
      behind ≠ [] ∧ o = owner ∧ t.via = some slot ∧ k = t.vertex := by
  rw [binding]
  cases behind with
  | nil => simp
  | cons =>
    simp only [List.isEmpty_cons, Bool.false_eq_true, if_false, List.mem_map, Option.mem_toList,
      TypeFact.bound.injEq]
    constructor
    · rintro ⟨slot, hvia, rfl, rfl, rfl⟩
      exact ⟨List.cons_ne_nil _ _, rfl, hvia, rfl⟩
    · rintro ⟨-, rfl, hvia, rfl⟩
      exact ⟨slot, hvia, rfl, rfl, rfl⟩

theorem flagged_not_mem_binding {t : Spanning (Option Slot) Handle} {behind : List TypeFact} :
    .flagged k ∉ binding owner t behind := by
  rw [binding]
  split <;> simp

theorem nodup_binding {t : Spanning (Option Slot) Handle} {behind : List TypeFact} :
    (binding owner t behind).Nodup := by
  rw [binding]
  split
  · exact List.nodup_nil
  · cases t.via <;> simp

theorem typeAccountOfSlots_cons (a : Arena) (owner : Handle) (t : Spanning (Option Slot) Handle)
    (ts : List (Spanning (Option Slot) Handle)) :
    a.typeAccountOfSlots owner (t :: ts) =
      a.typeAccountOfSlots owner [t] ++ a.typeAccountOfSlots owner ts := by
  simp only [typeAccountOfSlots, List.append_nil]

theorem typeAccountOfSlots_again (a : Arena) (owner : Handle) (via : Option Slot) (v : Handle)
    (ts : List (Spanning (Option Slot) Handle)) :
    a.typeAccountOfSlots owner (.again via v :: ts) = a.typeAccountOfSlots owner ts := by
  rw [typeAccountOfSlots, typeAccount, binding]
  rfl

theorem typeAccountOfSlots_visit (a : Arena) (owner : Handle) (via : Option Slot) (v : Handle)
    (onward ts : List (Spanning (Option Slot) Handle)) :
    a.typeAccountOfSlots owner (.visit via v onward :: ts) =
      binding owner (.visit via v onward) (a.ownType v ++ a.typeAccountOfSlots v onward) ++
        (a.ownType v ++ a.typeAccountOfSlots v onward) ++ a.typeAccountOfSlots owner ts := by
  rw [typeAccountOfSlots, typeAccount]

theorem flagged_mem_iff (h : Walks a.edges seen edges ts seen') (owner : Handle) :
    .flagged k ∈ a.typeAccountOfSlots owner ts ↔
      k ∈ orderOfAll ts ∧ (a.node k).isOnHeap = true := by
  induction h generalizing owner with
  | nil => simp [typeAccountOfSlots, orderOfAll]
  | again _ _ ih =>
    rw [typeAccountOfSlots_again]
    exact ih owner
  | @visit _ _ _ edge _ _ _ _ _ _ ihonward ih =>
    simp only [typeAccountOfSlots_visit, List.mem_append, flagged_not_mem_binding,
      flagged_mem_ownType, ihonward edge.2, ih owner, orderOfAll, Spanning.order, List.cons_append,
      List.mem_cons, false_or]
    constructor
    · rintro ((⟨rfl, hheap⟩ | ⟨hk, hheap⟩) | ⟨hk, hheap⟩)
      · exact ⟨.inl rfl, hheap⟩
      · exact ⟨.inr (.inl hk), hheap⟩
      · exact ⟨.inr (.inr hk), hheap⟩
    · rintro ⟨rfl | hk | hk, hheap⟩
      · exact .inl (.inl ⟨rfl, hheap⟩)
      · exact .inl (.inr ⟨hk, hheap⟩)
      · exact .inr ⟨hk, hheap⟩

theorem mem_order_of_bound (h : Walks a.edges seen edges ts seen')
    (hbound : .bound o slot k ∈ a.typeAccountOfSlots owner ts) : k ∈ orderOfAll ts := by
  induction h generalizing owner with
  | nil => simp [typeAccountOfSlots] at hbound
  | again _ _ ih =>
    rw [typeAccountOfSlots_again] at hbound
    exact ih hbound
  | visit _ _ _ ihonward ih =>
    simp only [typeAccountOfSlots_visit, List.mem_append, bound_mem_binding,
      bound_not_mem_ownType, false_or] at hbound
    rcases hbound with (⟨-, -, -, rfl⟩ | hbound) | hbound
    · exact List.mem_append_left _ (List.mem_cons_self ..)
    · exact List.mem_append_left _ (List.mem_cons_of_mem _ (ihonward hbound))
    · exact List.mem_append_right _ (ih hbound)

/-- A walk says something only of what it comes to for the first time. -/
theorem subject_mem_order (h : Walks a.edges seen edges ts seen') {fact : TypeFact}
    (hfact : fact ∈ a.typeAccountOfSlots owner ts) : fact.subject ∈ orderOfAll ts := by
  cases fact with
  | flagged => exact ((flagged_mem_iff h owner).mp hfact).1
  | bound => exact mem_order_of_bound h hfact

/-- Nothing is said twice along a walk. -/
theorem nodup_typeAccountOfSlots (h : Walks a.edges seen edges ts seen') (owner : Handle) :
    (a.typeAccountOfSlots owner ts).Nodup := by
  induction h generalizing owner with
  | nil => simp [typeAccountOfSlots]
  | again _ _ ih =>
    rw [typeAccountOfSlots_again]
    exact ih owner
  | @visit seen mid _ edge _ onward ts hnew honward hrest ihonward ih =>
    have hself : ∀ fact ∈ a.typeAccountOfSlots edge.2 onward, fact.subject ≠ edge.2 :=
      fun fact hfact heq => honward.not_mem_of_mem (subject_mem_order honward hfact)
        (heq ▸ List.mem_cons_self ..)
    have hone : Walks a.edges seen [edge] [.visit edge.1 edge.2 onward] mid :=
      .visit hnew honward .nil
    have hown : (a.ownType edge.2 ++ a.typeAccountOfSlots edge.2 onward).Nodup := by
      refine List.nodup_append.mpr ⟨nodup_ownType, ihonward edge.2, ?_⟩
      rintro fact hfact _ hbehind rfl
      exact hself fact hbehind (subject_of_mem_ownType hfact)
    have hfirst : (a.typeAccountOfSlots owner [.visit edge.1 edge.2 onward]).Nodup := by
      rw [typeAccountOfSlots_visit, typeAccountOfSlots, List.append_nil]
      refine List.nodup_append.mpr ⟨nodup_binding, hown, ?_⟩
      rintro fact hfact _ hbehind rfl
      cases fact with
      | flagged => exact flagged_not_mem_binding hfact
      | bound =>
        rcases List.mem_append.mp hbehind with hbehind | hbehind
        · exact bound_not_mem_ownType hbehind
        · exact hself _ hbehind (bound_mem_binding.mp hfact).2.2.2
    rw [typeAccountOfSlots_cons]
    refine List.nodup_append.mpr ⟨hfirst, ih owner, ?_⟩
    rintro fact hfact _ hlater rfl
    refine hrest.not_mem_of_mem (subject_mem_order hrest hlater) ?_
    exact hone.mem_iff.mpr (.inr (subject_mem_order hone hfact))

/-! ## The first slot -/

theorem find?_eq_of_before {facts before after : List Fact}
    (heq : facts = before ++ .holds o slot k :: a.ownAccount k ++ after)
    (hbefore : ∀ fact ∈ before, ¬fact.Mentions k) :
    facts.find? (fun fact => fact.Mentions k) = some (.holds o slot k) := by
  have hnone : before.find? (fun fact => fact.Mentions k) = none := by simpa using hbefore
  rw [heq, List.append_assoc, List.find?_append, hnone, Option.none_or, List.cons_append,
    List.find?_cons_of_pos (by simp [Fact.Mentions])]

theorem exists_find?_eq_some (h : Walks a.edges seen edges ts seen') (howner : owner ∈ seen)
    (hlabels : ∀ edge ∈ edges, edge.1.isSome = true) (hk : k ∈ orderOfAll ts) :
    ∃ o slot, (a.accountOfSlots owner ts).find? (fun fact => fact.Mentions k) =
      some (.holds o slot k) := by
  obtain ⟨before, o, slot, after, heq, -, hbefore⟩ := exists_holds_before h howner hlabels hk
  exact ⟨o, slot, find?_eq_of_before heq hbefore⟩

theorem find?_eq_none (h : Walks a.edges seen edges ts seen') (howner : owner ∈ seen)
    (hk : k ∉ seen') :
    (a.accountOfSlots owner ts).find? (fun fact => fact.Mentions k) = none := by
  simpa using fun fact hfact hmentions => hk (mem_seen_of_mentions h howner hfact hmentions)

/-- What is on the heap and is come to for the first time is bound to the slot of which it is said
first that it holds the value. -/
theorem bound_mem_iff (h : Walks a.edges seen edges ts seen') (howner : owner ∈ seen)
    (hlabels : ∀ edge ∈ edges, edge.1.isSome = true) (hk : k ∉ seen)
    (hheap : (a.node k).isOnHeap = true) : .bound o slot k ∈ a.typeAccountOfSlots owner ts ↔
      (a.accountOfSlots owner ts).find? (fun fact => fact.Mentions k) = some (.holds o slot k) := by
  induction h generalizing owner with
  | nil => simp [typeAccountOfSlots, accountOfSlots]
  | @again seen _ edge rest ts hmem _ ih =>
    obtain ⟨hlabel, hlabels⟩ := List.forall_mem_cons.mp hlabels
    obtain ⟨slot', hslot⟩ := Option.isSome_iff_exists.mp hlabel
    have hhead : ¬(Fact.holds owner slot' edge.2).Mentions k := by
      rintro (rfl | rfl)
      · exact hk howner
      · exact hk hmem
    rw [typeAccountOfSlots_again, ih howner hlabels hk, accountOfSlots_again hslot,
      List.find?_cons_of_neg (by simpa using hhead)]
  | @visit seen mid _ edge rest onward ts hnew honward hrest ihonward ih =>
    obtain ⟨hlabel, hlabels⟩ := List.forall_mem_cons.mp hlabels
    obtain ⟨slot', hslot⟩ := Option.isSome_iff_exists.mp hlabel
    have hinside (hbound : .bound o slot k ∈ a.typeAccountOfSlots edge.2 onward) :
        k ∈ orderOfAll onward := mem_order_of_bound honward hbound
    have hlater (hbound : .bound o slot k ∈ a.typeAccountOfSlots owner ts) : k ∉ mid :=
      hrest.not_mem_of_mem (mem_order_of_bound hrest hbound)
    rw [accountOfSlots_visit hslot, typeAccountOfSlots_visit]
    simp only [List.mem_append, bound_mem_binding, bound_not_mem_ownType, false_or]
    by_cases hself : edge.2 = k
    · -- The slot that the walk comes through is the first, and nothing is bound behind it again.
      subst hself
      have hnot : .bound o slot edge.2 ∉ a.typeAccountOfSlots edge.2 onward :=
        fun hbound => honward.not_mem_of_mem (hinside hbound) (List.mem_cons_self ..)
      have hnot' : .bound o slot edge.2 ∉ a.typeAccountOfSlots owner ts :=
        fun hbound => hlater hbound (honward.subset (List.mem_cons_self ..))
      have hsaid : a.ownType edge.2 ++ a.typeAccountOfSlots edge.2 onward ≠ [] := by
        simp [ownType, hheap]
      rw [List.cons_append, List.find?_cons_of_pos (by simp [Fact.Mentions])]
      simp [hnot, hnot', hsaid, hslot, Spanning.via, Spanning.vertex, eq_comm]
    · have hfirst : ∀ fact ∈ .holds owner slot' edge.2 :: a.ownAccount edge.2,
          ¬fact.Mentions k := not_mentions_of_ne (fun heq => hk (heq ▸ howner)) hself
      have hhead : (Fact.holds owner slot' edge.2 :: a.ownAccount edge.2).find?
          (fun fact => fact.Mentions k) = none := by simpa using hfirst
      have hvertex : k ≠ (Spanning.visit edge.1 edge.2 onward).vertex := Ne.symm hself
      rw [List.find?_append, hhead, Option.none_or, List.find?_append]
      simp only [hvertex, and_false, false_or]
      by_cases hmem : k ∈ orderOfAll onward
      · have hnot : .bound o slot k ∉ a.typeAccountOfSlots owner ts :=
          fun hbound => hlater hbound (honward.mem_iff.mpr (.inr hmem))
        obtain ⟨o', slot'', hfound⟩ := exists_find?_eq_some honward (List.mem_cons_self ..)
          (fun _ => isSome_of_mem_edges) hmem
        rw [or_iff_left hnot, hfound, Option.some_or, ← hfound]
        exact ihonward (List.mem_cons_self ..) (fun _ => isSome_of_mem_edges)
          (honward.not_mem_of_mem hmem)
      · have hunseen : k ∉ edge.2 :: seen := List.not_mem_cons_of_ne_of_not_mem (Ne.symm hself) hk
        have hmid : k ∉ mid := fun hmid => (honward.mem_iff.mp hmid).elim hunseen hmem
        have howner' : owner ∈ mid := honward.subset (List.mem_cons_of_mem _ howner)
        rw [find?_eq_none honward (List.mem_cons_self ..) hmid, Option.none_or,
          ← ih howner' hlabels hmid]
        exact or_iff_right fun hbound => hmem (hinside hbound)

/-! ## The type information -/

/-- A slot of a container that is reached holds an object or an array. -/
def HoldsOnHeap (a : Arena) (root owner : Handle) (slot : Slot) (child : Handle) : Prop :=
  a.Reaches root owner ∧ (slot, child) ∈ (a.node owner).slots ∧ (a.node child).isOnHeap = true

/-- Every object and array that is reached is held by one slot only, and the root by none. -/
structure IsUnshared (a : Arena) (root : Handle) : Prop where
  root_free : ∀ owner slot, ¬a.HoldsOnHeap root owner slot root
  eq_of_holds : ∀ owner slot owner' slot' child, a.HoldsOnHeap root owner slot child →
    a.HoldsOnHeap root owner' slot' child → owner = owner' ∧ slot = slot'

/-- What the type information of a value says. -/
def typeAccountFrom (a : Arena) (root : Handle) : List TypeFact := a.typeAccount (a.walk root)

theorem typeInfo_run (a : Arena) (root : Handle) (names : NameSupply)
    (hnumber : Numbered number names.used (a.onHeap (a.walk root).order)) :
    (a.typeInfo root).run names =
      (.basic ((a.typeAccountFrom root).flatMap (a.typePredicates number)),
        ⟨names.used + (a.onHeap (a.walk root).order).length⟩) := by
  have hrun : (a.typeInfo root).run names =
      let (parts, names) := (a.types (a.walk root)).run names
      (.basic parts, names) := rfl
  rw [hrun, types_run a number _ _ hnumber, typeAccountFrom]

namespace IsValid

theorem nodup_typeAccountFrom (ha : a.IsValid) (root : Handle) :
    (a.typeAccountFrom root).Nodup := by
  obtain ⟨onward, seen', hwalk, honward⟩ := ha.exists_walks root
  rw [typeAccountFrom, hwalk, typeAccount]
  refine List.nodup_append.mpr ⟨nodup_ownType, nodup_typeAccountOfSlots honward root, ?_⟩
  rintro fact hfact _ hmem rfl
  refine honward.not_mem_of_mem (subject_mem_order honward hmem) ?_
  exact List.mem_singleton.mpr (subject_of_mem_ownType hfact)

theorem flagged_mem_typeAccountFrom (ha : a.IsValid) :
    .flagged h ∈ a.typeAccountFrom root ↔ a.Reaches root h ∧ (a.node h).isOnHeap = true := by
  obtain ⟨onward, seen', hwalk, honward⟩ := ha.exists_walks root
  rw [← ha.mem_order_walk, typeAccountFrom, hwalk, typeAccount, Spanning.order, List.mem_append,
    flagged_mem_ownType, flagged_mem_iff honward, List.mem_cons]
  constructor
  · rintro (⟨rfl, hheap⟩ | ⟨hmem, hheap⟩)
    · exact ⟨.inl rfl, hheap⟩
    · exact ⟨.inr hmem, hheap⟩
  · rintro ⟨rfl | hmem, hheap⟩
    · exact .inl ⟨rfl, hheap⟩
    · exact .inr ⟨hmem, hheap⟩

/-- The root is bound to no slot. -/
theorem root_not_bound (ha : a.IsValid) : .bound owner slot root ∉ a.typeAccountFrom root := by
  obtain ⟨onward, seen', hwalk, honward⟩ := ha.exists_walks root
  rw [typeAccountFrom, hwalk, typeAccount, List.mem_append, or_iff_right bound_not_mem_ownType]
  intro hbound
  exact honward.not_mem_of_mem (mem_order_of_bound honward hbound) (List.mem_cons_self ..)

/-- What is on the heap is bound to the slot of which the requirements say first that it holds the
value, if they do not say something of the value before. -/
theorem bound_mem_typeAccountFrom (ha : a.IsValid) (hheap : (a.node h).isOnHeap = true) :
    .bound owner slot h ∈ a.typeAccountFrom root ↔
      (a.accountFrom root).find? (fun fact => fact.Mentions h) = some (.holds owner slot h) := by
  obtain ⟨onward, seen', hwalk, honward⟩ := ha.exists_walks root
  have haccount : a.accountFrom root = a.ownAccount root ++ a.accountOfSlots root onward := by
    rw [accountFrom, hwalk, account]
  rw [haccount, List.find?_append]
  by_cases hroot : h = root
  · subst hroot
    have hfound : (a.ownAccount h).find? (fun fact => fact.Mentions h) = some (.notNull h) := by
      simp only [Node.isOnHeap] at hheap
      rw [ownAccount]
      split at hheap <;> simp_all [Fact.Mentions]
    rw [hfound, Option.some_or]
    exact iff_of_false ha.root_not_bound (by simp)
  · have hnone : (a.ownAccount root).find? (fun fact => fact.Mentions h) = none := by
      simpa using fun fact hfact hmentions => hroot (eq_of_mem_ownAccount hfact hmentions).symm
    rw [hnone, Option.none_or, typeAccountFrom, hwalk, typeAccount, List.mem_append,
      or_iff_right bound_not_mem_ownType]
    exact bound_mem_iff honward (List.mem_cons_self ..) (fun _ => isSome_of_mem_edges)
      (mt List.mem_singleton.mp hroot) hheap

theorem exists_bound (ha : a.IsValid) (hreach : a.Reaches root h)
    (hheap : (a.node h).isOnHeap = true) (hne : h ≠ root) :
    ∃ owner slot, .bound owner slot h ∈ a.typeAccountFrom root := by
  obtain ⟨before, owner, slot, after, heq, -, hbefore⟩ := ha.exists_holds_first hreach hne
  exact ⟨owner, slot, (ha.bound_mem_typeAccountFrom hheap).mpr (find?_eq_of_before heq hbefore)⟩

/-- A binding is to a slot that holds the value. -/
theorem holdsOnHeap_of_bound (ha : a.IsValid) (hheap : (a.node h).isOnHeap = true)
    (hbound : .bound owner slot h ∈ a.typeAccountFrom root) : a.HoldsOnHeap root owner slot h := by
  have hfact := List.mem_of_find?_eq_some ((ha.bound_mem_typeAccountFrom hheap).mp hbound)
  obtain ⟨hreach, hfact⟩ := ha.mem_accountFrom.mp hfact
  exact ⟨hreach, (holds_mem_accountOf.mp hfact).2, hheap⟩

end IsValid

/-- All slots with objects and arrays are bound to them exactly if each of these is held by one slot
only, and the root by none. -/
theorem forall_bound_iff (ha : a.IsValid) (root : Handle) :
    (∀ owner slot child, a.HoldsOnHeap root owner slot child →
      .bound owner slot child ∈ a.typeAccountFrom root) ↔ a.IsUnshared root := by
  constructor
  · intro hall
    refine ⟨fun owner slot hholds => ?_, fun owner slot owner' slot' child hholds hholds' => ?_⟩
    · exact ha.root_not_bound (hall owner slot root hholds)
    · have hfirst := (ha.bound_mem_typeAccountFrom hholds.2.2).mp (hall _ _ _ hholds)
      have hfirst' := (ha.bound_mem_typeAccountFrom hholds.2.2).mp (hall _ _ _ hholds')
      obtain ⟨howner, hslot, -⟩ := Fact.holds.inj (Option.some.inj (hfirst.symm.trans hfirst'))
      exact ⟨howner, hslot⟩
  · intro hunshared owner slot child hholds
    have hne : child ≠ root := by
      rintro rfl
      exact hunshared.root_free owner slot hholds
    have hreach : a.Reaches root child := hholds.1.tail (leads_of_mem hholds.2.1)
    obtain ⟨owner', slot', hbound⟩ := ha.exists_bound hreach hholds.2.2 hne
    have hholds' := ha.holdsOnHeap_of_bound hholds.2.2 hbound
    obtain ⟨rfl, rfl⟩ := hunshared.eq_of_holds _ _ _ _ _ hholds hholds'
    exact hbound

/-- The type information of a value says, each once, of every object and array that it reaches that
a flag of its own is whether the value is of its type, and that the flag is set. It binds each of
them but the root to the slot of which the requirements say first that it holds the value, and to no
other. So it binds all slots with objects and arrays exactly if each of these is held by one slot
only, and the root by none. -/
theorem typeInfo_account (ha : a.IsValid) (root : Handle) (names : NameSupply) :
    ∃ (facts : List TypeFact) (number : Handle → Nat) (names' : NameSupply),
      (a.typeInfo root).run names =
        (.basic (facts.flatMap (a.typePredicates number)), names') ∧
      facts.Nodup ∧
      (∀ h, .flagged h ∈ facts ↔ a.Reaches root h ∧ (a.node h).isOnHeap = true) ∧
      Set.BijOn number {h | .flagged h ∈ facts} (Set.Ico names.used names'.used) ∧
      (∀ h, a.Reaches root h → (a.node h).isOnHeap = true → h ≠ root →
        ∃ owner slot, .bound owner slot h ∈ facts) ∧
      (∀ owner slot child, (a.node child).isOnHeap = true → (.bound owner slot child ∈ facts ↔
        (a.accountFrom root).find? (fun fact => fact.Mentions child) =
          some (.holds owner slot child))) ∧
      ((∀ owner slot child, a.HoldsOnHeap root owner slot child →
        .bound owner slot child ∈ facts) ↔ a.IsUnshared root) := by
  have hnodup : (a.onHeap (a.walk root).order).Nodup := (ha.nodup_order_walk root).filter _
  obtain ⟨number, hnumber⟩ := exists_numbered hnodup names.used
  have hflagged : {h | .flagged h ∈ a.typeAccountFrom root} =
      {h | h ∈ a.onHeap (a.walk root).order} := by
    ext h
    simp only [Set.mem_ofPred_eq, ha.flagged_mem_typeAccountFrom, onHeap, List.mem_filter,
      ha.mem_order_walk]
  refine ⟨a.typeAccountFrom root, number, _, a.typeInfo_run root names hnumber,
    ha.nodup_typeAccountFrom root, fun h => ha.flagged_mem_typeAccountFrom, ?_,
    fun h => ha.exists_bound, fun owner slot child => ha.bound_mem_typeAccountFrom,
    forall_bound_iff ha root⟩
  rw [hflagged]
  exact hnumber.bijOn

/-! A pair holds an object on its left, or the same object on both sides. -/

namespace Couple

def pair : Node := ⟨.value (.class "Pair") "pair", .class "Pair", .object, []⟩

def leaf : Node := ⟨.value (.class "Leaf") "leaf", .class "Leaf", .object, []⟩

def left : Slot := .field "left" (.class "Leaf")

def right : Slot := .field "right" (.class "Leaf")

def bare : Arena := ((({} : Arena).push pair).2.push leaf).2

def single : Arena := bare.setField ⟨0⟩ "left" (.class "Leaf") ⟨1⟩

def arena : Arena := single.setField ⟨0⟩ "right" (.class "Leaf") ⟨1⟩

theorem isValid_single : single.IsValid := by
  have hpair := isValid_push (n := pair) isValid_empty rfl
  exact isValid_setField (isValid_push (n := leaf) hpair rfl) _ _ (by decide)

theorem isValid_arena : arena.IsValid := isValid_setField isValid_single _ _ (by decide)

/-- On one side only, the object is held by one slot. -/
theorem isUnshared_single : single.IsUnshared ⟨0⟩ := by
  have hnodes : ∀ index < 2, ∀ entry ∈ (single.node ⟨index⟩).slots,
      index = 0 ∧ entry = (left, ⟨1⟩) := by decide
  have hholds (owner : Handle) (slot : Slot) (child : Handle)
      (hholds : single.HoldsOnHeap ⟨0⟩ owner slot child) :
      owner.index = 0 ∧ (slot, child) = (left, ⟨1⟩) :=
    hnodes owner.index (lt_size_of_mem_slots hholds.2.1) _ hholds.2.1
  refine ⟨fun owner slot h => ?_, fun owner slot owner' slot' child h h' => ?_⟩
  · have hchild := (Prod.mk.inj (hholds _ _ _ h).2).2
    cases hchild
  · obtain ⟨howner, hslot⟩ := hholds _ _ _ h
    obtain ⟨howner', hslot'⟩ := hholds _ _ _ h'
    exact ⟨Handle.eq_of_index (howner.trans howner'.symm),
      (Prod.mk.inj (hslot.trans hslot'.symm)).1⟩

/-- The object on the left is bound to its slot. -/
theorem left_bound : single.IsValid ∧ ∃ (facts : List TypeFact) (number : Handle → Nat)
    (names' : NameSupply),
    (single.typeInfo ⟨0⟩).run {} =
      (.basic (facts.flatMap (single.typePredicates number)), names') ∧
    facts.Nodup ∧ .flagged ⟨0⟩ ∈ facts ∧ .bound ⟨0⟩ left ⟨1⟩ ∈ facts := by
  obtain ⟨facts, number, names', hrun, hnodup, hflagged, -, -, -, hall⟩ :=
    typeInfo_account isValid_single ⟨0⟩ {}
  exact ⟨isValid_single, facts, number, names', hrun, hnodup,
    (hflagged _).mpr ⟨.refl, by decide⟩,
    hall.mpr isUnshared_single _ _ _ ⟨.refl, by decide, by decide⟩⟩

/-- The object on both sides is bound to the slot on the left, and nothing is said of the one on the
right. -/
theorem right_not_bound : arena.IsValid ∧ (∀ h, (arena.node h).shape ≠ .statics) ∧
    arena.HoldsOnHeap ⟨0⟩ ⟨0⟩ right ⟨1⟩ ∧
    ⟨.state, .equal (arena.term ⟨1⟩) (right.load (arena.term ⟨0⟩)), {}⟩ ∉
      ((arena.typeInfo ⟨0⟩).run {}).1.parts := by
  have hnumber : Numbered Handle.index 0 (arena.onHeap (arena.walk ⟨0⟩).order) := by
    rw [Numbered]
    decide +kernel
  have hfacts : arena.typeAccountFrom ⟨0⟩ =
      [.flagged ⟨0⟩, .bound ⟨0⟩ left ⟨1⟩, .flagged ⟨1⟩] := by decide +kernel
  refine ⟨isValid_arena, ?_, ⟨.refl, by decide, by decide⟩, ?_⟩
  · intro h
    rcases Nat.lt_or_ge h.index 2 with hlt | hge
    · have hnodes : ∀ index < 2, (arena.node ⟨index⟩).shape ≠ .statics := by decide
      exact hnodes h.index hlt
    · have hsize : arena.size = 2 := by decide
      rw [node_of_size_le (hsize ▸ hge)]
      exact nofun
  · rw [typeInfo_run arena ⟨0⟩ {} hnumber, hfacts, State.parts_basic]
    simp [typePredicates, left, right, Slot.load, Term.field, Term.fieldLoad, Term.instanceOf]

end Couple

end Arena
end Concolic
