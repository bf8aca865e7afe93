import Mathlib.Data.List.Forall2
import Concolic.Proofs.State.Linear
import Concolic.Proofs.State.Ways

/-!
# Satisfied states

A state asks for all of its parts in a row, and of a choice for one of its alternatives. What it
asks for is read off its items, so it does not matter how the state was put together; a choice
that leaves no trace there asks for nothing.

Simplifying merges alternatives that are the same. It changes nothing in what is asked for as
long as parts that are the same hold alike.

## Main statements

* `satisfiedBy_choice` — a choice asks for one of its alternatives.
* `satisfiedBy_simplify` — simplifying keeps what a state asks for.
-/

namespace Concolic.State

variable {α : Type} {holds holds' : α → Prop}

/-! ## Items -/

mutual

/-- The item is a part that holds, or a choice of which one alternative is satisfied. -/
def Item.SatisfiedBy (holds : α → Prop) : Item α → Prop
  | .part a => holds a
  | .branch alternatives => Item.SomeSatisfiedBy holds alternatives

def Item.AllSatisfiedBy (holds : α → Prop) : List (Item α) → Prop
  | [] => True
  | x :: xs => Item.SatisfiedBy holds x ∧ Item.AllSatisfiedBy holds xs

def Item.SomeSatisfiedBy (holds : α → Prop) : List (List (Item α)) → Prop
  | [] => False
  | xs :: rest => Item.AllSatisfiedBy holds xs ∨ Item.SomeSatisfiedBy holds rest

end

/-- What the state asks for holds. -/
def SatisfiedBy (holds : α → Prop) (s : State α) : Prop := Item.AllSatisfiedBy holds s.items

namespace Item

theorem allSatisfiedBy_append {xs ys : List (Item α)} :
    AllSatisfiedBy holds (xs ++ ys) ↔ AllSatisfiedBy holds xs ∧ AllSatisfiedBy holds ys := by
  induction xs with
  | nil => simp [AllSatisfiedBy]
  | cons x xs ih => rw [List.cons_append, AllSatisfiedBy, AllSatisfiedBy, ih, and_assoc]

theorem allSatisfiedBy_map_part {parts : List α} :
    AllSatisfiedBy holds (parts.map .part) ↔ ∀ a ∈ parts, holds a := by
  induction parts with
  | nil => simp [AllSatisfiedBy]
  | cons a parts ih => rw [List.map_cons, AllSatisfiedBy, SatisfiedBy, ih, List.forall_mem_cons]

theorem someSatisfiedBy_iff {alternatives : List (List (Item α))} :
    SomeSatisfiedBy holds alternatives ↔ ∃ xs ∈ alternatives, AllSatisfiedBy holds xs := by
  induction alternatives with
  | nil => simp [SomeSatisfiedBy]
  | cons xs rest ih => simp [SomeSatisfiedBy, ih]

section

variable [BEq α]

mutual

theorem satisfiedBy_of_same (hcongr : ∀ a b, (a == b) = true → (holds a ↔ holds b)) :
    ∀ {x y : Item α}, Item.same x y = true → (SatisfiedBy holds x ↔ SatisfiedBy holds y)
  | .part a, .part b, h => hcongr a b (by simpa [Item.same] using h)
  | .branch xs, .branch ys, h => by
    rw [SatisfiedBy, SatisfiedBy]
    exact someSatisfiedBy_of_same hcongr (by simpa [Item.same] using h)
  | .part _, .branch _, h => by simp [Item.same] at h
  | .branch _, .part _, h => by simp [Item.same] at h

theorem allSatisfiedBy_of_same (hcongr : ∀ a b, (a == b) = true → (holds a ↔ holds b)) :
    ∀ {xs ys : List (Item α)}, Item.sameRuns xs ys = true →
      (AllSatisfiedBy holds xs ↔ AllSatisfiedBy holds ys)
  | [], [], _ => Iff.rfl
  | x :: xs, y :: ys, h => by
    rw [Item.sameRuns, Bool.and_eq_true] at h
    rw [AllSatisfiedBy, AllSatisfiedBy]
    exact and_congr (satisfiedBy_of_same hcongr h.1) (allSatisfiedBy_of_same hcongr h.2)
  | [], _ :: _, h => by simp [Item.sameRuns] at h
  | _ :: _, [], h => by simp [Item.sameRuns] at h

theorem someSatisfiedBy_of_same (hcongr : ∀ a b, (a == b) = true → (holds a ↔ holds b)) :
    ∀ {xs ys : List (List (Item α))}, Item.sameBranches xs ys = true →
      (SomeSatisfiedBy holds xs ↔ SomeSatisfiedBy holds ys)
  | [], [], _ => Iff.rfl
  | x :: xs, y :: ys, h => by
    rw [Item.sameBranches, Bool.and_eq_true] at h
    rw [SomeSatisfiedBy, SomeSatisfiedBy]
    exact or_congr (allSatisfiedBy_of_same hcongr h.1) (someSatisfiedBy_of_same hcongr h.2)
  | [], _ :: _, h => by simp [Item.sameBranches] at h
  | _ :: _, [], h => by simp [Item.sameBranches] at h

end

end

end Item

/-! ## States -/

variable {s t : State α} {alternatives : List (State α)}

@[simp] theorem satisfiedBy_basic {parts : List α} :
    (basic parts).SatisfiedBy holds ↔ ∀ a ∈ parts, holds a := by
  rw [SatisfiedBy, items_basic, Item.allSatisfiedBy_map_part]

@[simp] theorem satisfiedBy_chain :
    (chain s t).SatisfiedBy holds ↔ s.SatisfiedBy holds ∧ t.SatisfiedBy holds := by
  rw [SatisfiedBy, items_chain, Item.allSatisfiedBy_append]
  exact Iff.rfl

@[simp] theorem satisfiedBy_concat :
    (s.concat t).SatisfiedBy holds ↔ s.SatisfiedBy holds ∧ t.SatisfiedBy holds := by
  rw [SatisfiedBy, items_concat, Item.allSatisfiedBy_append]
  exact Iff.rfl

theorem satisfiedBy_of_items_eq_nil (h : s.items = []) : s.SatisfiedBy holds := by
  rw [SatisfiedBy, h, Item.AllSatisfiedBy]
  trivial

/-- A choice asks for one of its alternatives, if it has any. -/
theorem satisfiedBy_choice : (choice alternatives).SatisfiedBy holds ↔
    alternatives = [] ∨ ∃ s ∈ alternatives, s.SatisfiedBy holds := by
  by_cases hempty : ∀ x ∈ itemsOfAll alternatives, x = []
  · refine iff_of_true (satisfiedBy_of_items_eq_nil (items_choice_of_empty hempty)) ?_
    cases alternatives with
    | nil => exact .inl rfl
    | cons s rest =>
      have hs : s.items = [] := hempty _ (mem_itemsOfAll.mpr ⟨s, List.mem_cons_self .., rfl⟩)
      exact .inr ⟨s, List.mem_cons_self .., satisfiedBy_of_items_eq_nil hs⟩
  · have hne : alternatives ≠ [] := by
      rintro rfl
      exact hempty (by simp [itemsOfAll])
    have hitems : (choice alternatives).items = [.branch (itemsOfAll alternatives)] := by
      rw [items_choice, if_neg (by simpa using hempty)]
    rw [SatisfiedBy, hitems, Item.AllSatisfiedBy, Item.AllSatisfiedBy, and_true,
      Item.SatisfiedBy, Item.someSatisfiedBy_iff, or_iff_right hne]
    constructor
    · rintro ⟨xs, hxs, hall⟩
      obtain ⟨s, hs, rfl⟩ := mem_itemsOfAll.mp hxs
      exact ⟨s, hs, hall⟩
    · rintro ⟨s, hs, hall⟩
      exact ⟨s.items, mem_itemsOfAll.mpr ⟨s, hs, rfl⟩, hall⟩

/-- Where lists are related, each member of the first is related to one of the second. -/
theorem exists_of_forall₂ {β γ : Type} {R : β → γ → Prop} {bs : List β} {cs : List γ}
    (h : List.Forall₂ R bs cs) : ∀ b ∈ bs, ∃ c ∈ cs, R b c := by
  induction h with
  | nil => nofun
  | @cons b c _ _ hbc _ ih =>
    rw [List.forall_mem_cons]
    refine ⟨⟨c, List.mem_cons_self .., hbc⟩, fun b hb => ?_⟩
    obtain ⟨c, hc, hbc⟩ := ih b hb
    exact ⟨c, List.mem_cons_of_mem _ hc, hbc⟩

/-- Choices are satisfied as their alternatives are. -/
theorem satisfiedBy_choice_imp {holds' : α → Prop} {alternatives' : List (State α)}
    (h : List.Forall₂ (fun t s => t.SatisfiedBy holds' → s.SatisfiedBy holds)
      alternatives' alternatives) (hsat : (choice alternatives').SatisfiedBy holds') :
    (choice alternatives).SatisfiedBy holds := by
  rw [satisfiedBy_choice] at hsat ⊢
  rcases hsat with rfl | ⟨t, ht, hsat⟩
  · exact .inl (List.forall₂_nil_left_iff.mp h)
  · obtain ⟨s, hs, himp⟩ := exists_of_forall₂ h t ht
    exact .inr ⟨s, hs, himp hsat⟩

theorem satisfiedBy_choice_congr {holds' : α → Prop} {alternatives' : List (State α)}
    (h : List.Forall₂ (fun t s => t.SatisfiedBy holds' ↔ s.SatisfiedBy holds)
      alternatives' alternatives) :
    (choice alternatives').SatisfiedBy holds' ↔ (choice alternatives).SatisfiedBy holds :=
  ⟨satisfiedBy_choice_imp (h.imp fun _ _ => Iff.mp),
    satisfiedBy_choice_imp (h.imp fun _ _ => Iff.mpr).flip⟩

/-- What a state asks for depends on the parts in it only. -/
theorem satisfiedBy_congr : ∀ {s : State α}, (∀ a, s.Occurs a → (holds a ↔ holds' a)) →
    (s.SatisfiedBy holds ↔ s.SatisfiedBy holds')
  | .basic parts, h => by
    rw [satisfiedBy_basic, satisfiedBy_basic]
    exact forall₂_congr fun a ha => h a (.basic ha)
  | .chain s t, h => by
    rw [satisfiedBy_chain, satisfiedBy_chain]
    exact and_congr (satisfiedBy_congr fun a ha => h a (.first ha))
      (satisfiedBy_congr fun a ha => h a (.second ha))
  | .choice alternatives, h => by
    rw [satisfiedBy_choice, satisfiedBy_choice]
    exact or_congr_right (exists_congr fun s => and_congr_right fun hs =>
      satisfiedBy_congr fun a ha => h a (.choice hs ha))

/-! ## Simplification -/

theorem occurs_of_concat {a : α} (h : (s.concat t).Occurs a) : s.Occurs a ∨ t.Occurs a := by
  unfold concat at h
  split at h
  · exact .inl h
  · split at h
    · exact .inr h
    · split at h
      · cases h with
        | basic hmem => exact (List.mem_append.mp hmem).imp .basic .basic
      · cases h with
        | first h => exact .inl h
        | second h => exact .inr h

section

variable [BEq α]

theorem occurs_of_collapse {a : α} {states : List (State α)} (h : (collapse states).Occurs a) :
    ∃ s ∈ states, s.Occurs a := by
  cases states with
  | nil =>
    cases h with
    | basic hmem => cases hmem
  | cons first rest =>
    rw [collapse] at h
    split at h
    · exact ⟨first, List.mem_cons_self .., h⟩
    · cases h with
      | choice hs ha => exact ⟨_, hs, ha⟩

theorem mem_simplifyAll {states : List (State α)} :
    t ∈ simplifyAll states ↔ ∃ s ∈ states, s.simplify = t := by
  induction states with
  | nil => simp [simplifyAll]
  | cons s states ih => simp [simplifyAll, ih, eq_comm]

/-- Simplifying adds no parts. -/
theorem occurs_of_simplify {a : α} : ∀ {s : State α}, s.simplify.Occurs a → s.Occurs a
  | .basic _, h => by simpa only [simplify] using h
  | .chain s t, h => by
    rw [simplify] at h
    exact (occurs_of_concat h).elim (fun h => .first (occurs_of_simplify h))
      fun h => .second (occurs_of_simplify h)
  | .choice alternatives, h => by
    rw [simplify] at h
    obtain ⟨_, ht, ha⟩ := occurs_of_collapse h
    obtain ⟨s, hs, rfl⟩ := mem_simplifyAll.mp ht
    exact .choice hs (occurs_of_simplify ha)

/-- Merging alternatives that are the same keeps what is asked for, if parts that are the same
hold alike. -/
theorem satisfiedBy_collapse (hcongr : ∀ a b, (a == b) = true → (holds a ↔ holds b))
    {states : List (State α)} :
    (collapse states).SatisfiedBy holds ↔ states = [] ∨ ∃ s ∈ states, s.SatisfiedBy holds := by
  cases states with
  | nil => exact iff_of_true (by simp [collapse, empty]) (.inl rfl)
  | cons first rest =>
    rw [collapse]
    by_cases hsame : rest.all (· == first) = true
    · rw [if_pos hsame]
      refine ⟨fun h => .inr ⟨first, List.mem_cons_self .., h⟩, ?_⟩
      rintro (hnil | ⟨s, hs, h⟩)
      · cases hnil
      · rcases List.mem_cons.mp hs with rfl | hs
        · exact h
        · have hfirst : (s == first) = true := List.all_eq_true.mp hsame s hs
          exact (Item.allSatisfiedBy_of_same hcongr hfirst).mp h
    · rw [if_neg hsame, satisfiedBy_choice]

theorem satisfiedBy_simplify_of_congr (hcongr : ∀ a b, (a == b) = true → (holds a ↔ holds b)) :
    ∀ {s : State α}, s.simplify.SatisfiedBy holds ↔ s.SatisfiedBy holds
  | .basic _ => by rw [simplify]
  | .chain s t => by
    rw [simplify, satisfiedBy_concat, satisfiedBy_chain, satisfiedBy_simplify_of_congr hcongr,
      satisfiedBy_simplify_of_congr hcongr]
  | .choice alternatives => by
    have hnil : simplifyAll alternatives = [] ↔ alternatives = [] := by
      cases alternatives <;> simp [simplifyAll]
    rw [simplify, satisfiedBy_collapse hcongr, satisfiedBy_choice, hnil]
    refine or_congr_right ⟨?_, ?_⟩
    · rintro ⟨_, ht, h⟩
      obtain ⟨s, hs, rfl⟩ := mem_simplifyAll.mp ht
      exact ⟨s, hs, (satisfiedBy_simplify_of_congr hcongr).mp h⟩
    · rintro ⟨s, hs, h⟩
      exact ⟨s.simplify, mem_simplifyAll.mpr ⟨s, hs, rfl⟩,
        (satisfiedBy_simplify_of_congr hcongr).mpr h⟩

/-- If among certain parts those that are the same hold alike, they hold as some property says
that does not tell parts that are the same apart. -/
theorem exists_congruent [EquivBEq α] (among : α → Prop)
    (hcongr : ∀ a b, among a → among b → (a == b) = true → (holds a ↔ holds b)) :
    ∃ likewise : α → Prop, (∀ a, among a → (holds a ↔ likewise a)) ∧
      ∀ a b, (a == b) = true → (likewise a ↔ likewise b) :=
  ⟨fun a => ∃ b, among b ∧ (a == b) = true ∧ holds b,
    fun a ha => ⟨fun h => ⟨a, ha, BEq.rfl, h⟩,
      fun ⟨b, hb, hab, h⟩ => (hcongr a b ha hb hab).mpr h⟩,
    fun _ _ hab => ⟨fun ⟨c, hc, hac, h⟩ => ⟨c, hc, BEq.trans (BEq.symm hab) hac, h⟩,
      fun ⟨c, hc, hbc, h⟩ => ⟨c, hc, BEq.trans hab hbc, h⟩⟩⟩

/-- **Simplifying keeps what a state asks for**, if among its parts those that are the same hold
alike. -/
theorem satisfiedBy_simplify [EquivBEq α]
    (hcongr : ∀ a b, s.Occurs a → s.Occurs b → (a == b) = true → (holds a ↔ holds b)) :
    s.simplify.SatisfiedBy holds ↔ s.SatisfiedBy holds := by
  obtain ⟨likewise, hlikewise, hsame⟩ := exists_congruent (fun a => s.Occurs a) hcongr
  calc s.simplify.SatisfiedBy holds
      ↔ s.simplify.SatisfiedBy likewise :=
        satisfiedBy_congr fun a ha => hlikewise a (occurs_of_simplify ha)
    _ ↔ s.SatisfiedBy likewise := satisfiedBy_simplify_of_congr hsame
    _ ↔ s.SatisfiedBy holds := (satisfiedBy_congr hlikewise).symm

/-- States that are the same ask for the same, if among their parts those that are the same hold
alike. -/
theorem satisfiedBy_of_beq [EquivBEq α] {among : α → Prop} (hs : ∀ a, s.Occurs a → among a)
    (ht : ∀ a, t.Occurs a → among a)
    (hcongr : ∀ a b, among a → among b → (a == b) = true → (holds a ↔ holds b))
    (h : (s == t) = true) : s.SatisfiedBy holds ↔ t.SatisfiedBy holds := by
  obtain ⟨likewise, hlikewise, hsame⟩ := exists_congruent among hcongr
  calc s.SatisfiedBy holds
      ↔ s.SatisfiedBy likewise := satisfiedBy_congr fun a ha => hlikewise a (hs a ha)
    _ ↔ t.SatisfiedBy likewise := Item.allSatisfiedBy_of_same hsame h
    _ ↔ t.SatisfiedBy holds := satisfiedBy_congr fun a ha => (hlikewise a (ht a ha)).symm

end
end Concolic.State
