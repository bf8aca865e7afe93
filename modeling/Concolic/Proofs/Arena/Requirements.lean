import Concolic.Proofs.Arena.Depth
import Concolic.Proofs.Spanning.Reachability

/-!
# What requirements say

The requirements of a value say of everything that it reaches, once, what it is: that it is not null
if it lies on the heap, its length if it is an array, and of each of its slots what the slot holds.
They are given along one walk, so what a slot holds is said before anything is said of a value that
is first reached through it.

## Main statements

* `Arena.account_perm` — along a walk, all is said that there is to say of what it comes to.
* `Arena.requirements_account` — what the requirements of a value say, and in which order.
-/

namespace Concolic

/-- Something to be said of a value. -/
inductive Fact where
  /-- What lies on the heap is not null. -/
  | notNull (h : Handle)
  /-- An array has its length. -/
  | length (h : Handle) (value : Int32)
  /-- A slot holds the value that it leads to. -/
  | holds (owner : Handle) (slot : Slot) (child : Handle)
  deriving DecidableEq

namespace Fact

/-- The value that the fact is about. -/
def subject : Fact → Handle
  | .notNull h | .length h _ | .holds h _ _ => h

/-- The fact is about the value, or about a slot that leads to it. -/
def Mentions : Fact → Handle → Prop
  | .notNull h, k | .length h _, k => h = k
  | .holds owner _ child, k => owner = k ∨ child = k

instance (fact : Fact) (k : Handle) : Decidable (fact.Mentions k) :=
  match fact with
  | .notNull h | .length h _ => inferInstanceAs (Decidable (h = k))
  | .holds owner _ child => inferInstanceAs (Decidable (owner = k ∨ child = k))

end Fact

namespace Arena

open Spanning (orderOfAll Walks)

variable {a : Arena} {h k owner root v : Handle} {slot : Slot} {via : Option Slot}
  {seen seen' : List Handle} {edges : List (Option Slot × Handle)}
  {ts : List (Spanning (Option Slot) Handle)}

/-! ## Facts -/

/-- How a fact is written. -/
def predicate (a : Arena) : Fact → Predicate
  | .notNull h => ⟨.axiomatic, .unequal (a.term h) .null, {}⟩
  | .length h value => ⟨.require, .equal (.arrayLength (a.term h)) (.int value), {}⟩
  | .holds owner slot child => ⟨.require, .equal (slot.load (a.term owner)) (a.term child), {}⟩

/-- What is to be said of a value by itself. -/
def ownAccount (a : Arena) (h : Handle) : List Fact :=
  match (a.node h).shape with
  | .constant _ | .statics => []
  | .object => [.notNull h]
  | .array length => [.notNull h, .length h length]

/-- What slots hold, said of the slots behind some edges. -/
def slotAccount (owner : Handle) (edges : List (Option Slot × Handle)) : List Fact :=
  edges.flatMap fun edge => edge.1.toList.map fun slot => .holds owner slot edge.2

/-- All that is to be said of a value. -/
def accountOf (a : Arena) (h : Handle) : List Fact := a.ownAccount h ++ slotAccount h (a.edges h)

theorem map_ownAccount (a : Arena) (h : Handle) :
    (a.ownAccount h).map a.predicate = ownFacts (a.node h) := by
  simp only [ownAccount, ownFacts]
  cases (a.node h).shape <;> rfl

theorem mem_slotAccount {fact : Fact} : fact ∈ slotAccount owner edges ↔
    ∃ slot child, (some slot, child) ∈ edges ∧ fact = .holds owner slot child := by
  simp only [slotAccount, List.mem_flatMap, List.mem_map, Option.mem_toList]
  constructor
  · rintro ⟨⟨via, child⟩, hedge, slot, rfl, rfl⟩
    exact ⟨slot, child, hedge, rfl⟩
  · rintro ⟨slot, child, hedge, rfl⟩
    exact ⟨_, hedge, slot, rfl, rfl⟩

theorem mem_edges {slot : Slot} : (some slot, k) ∈ a.edges h ↔ (slot, k) ∈ (a.node h).slots := by
  simp [edges]

theorem isSome_of_mem_edges {edge : Option Slot × Handle} (hedge : edge ∈ a.edges h) :
    edge.1.isSome = true := by
  obtain ⟨entry, -, rfl⟩ := List.mem_map.mp hedge
  rfl

theorem subject_of_mem_ownAccount {fact : Fact} (hfact : fact ∈ a.ownAccount h) :
    fact.subject = h := by
  simp only [ownAccount] at hfact
  split at hfact <;> simp only [List.mem_cons, List.not_mem_nil, or_false] at hfact
  · rw [hfact, Fact.subject]
  · rcases hfact with rfl | rfl <;> rfl

/-- What is said of a value by itself mentions no other. -/
theorem eq_of_mem_ownAccount {fact : Fact} (hfact : fact ∈ a.ownAccount h) (hk : fact.Mentions k) :
    h = k := by
  simp only [ownAccount] at hfact
  split at hfact <;> simp only [List.mem_cons, List.not_mem_nil, or_false] at hfact
  · subst hfact
    exact hk
  · rcases hfact with rfl | rfl <;> exact hk

theorem subject_of_mem_accountOf {fact : Fact} (hfact : fact ∈ a.accountOf h) :
    fact.subject = h := by
  rcases List.mem_append.mp hfact with hfact | hfact
  · exact subject_of_mem_ownAccount hfact
  · obtain ⟨slot, child, -, rfl⟩ := mem_slotAccount.mp hfact
    rfl

theorem notNull_mem_accountOf :
    .notNull k ∈ a.accountOf h ↔ h = k ∧ (a.node h).isOnHeap = true := by
  have hslots : .notNull k ∉ slotAccount h (a.edges h) := by simp [mem_slotAccount]
  simp only [accountOf, List.mem_append, hslots, or_false, ownAccount, Node.isOnHeap]
  cases (a.node h).shape <;> simp [eq_comm]

theorem length_mem_accountOf {value : Int32} :
    .length k value ∈ a.accountOf h ↔ h = k ∧ (a.node h).shape = .array value := by
  have hslots : .length k value ∉ slotAccount h (a.edges h) := by simp [mem_slotAccount]
  simp only [accountOf, List.mem_append, hslots, or_false, ownAccount]
  cases (a.node h).shape <;> simp [eq_comm]

theorem holds_mem_accountOf {slot : Slot} {child : Handle} :
    .holds k slot child ∈ a.accountOf h ↔ h = k ∧ (slot, child) ∈ (a.node h).slots := by
  have hown : .holds k slot child ∉ a.ownAccount h := by
    simp only [ownAccount]
    split <;> simp
  simp only [accountOf, List.mem_append, hown, false_or, mem_slotAccount, mem_edges,
    Fact.holds.injEq]
  constructor
  · rintro ⟨_, _, hentry, rfl, rfl, rfl⟩
    exact ⟨rfl, hentry⟩
  · rintro ⟨rfl, hentry⟩
    exact ⟨slot, child, hentry, rfl, rfl, rfl⟩

/-- Nothing is to be said of a value twice. -/
theorem IsValid.nodup_accountOf (ha : a.IsValid) (h : Handle) : (a.accountOf h).Nodup := by
  have hslots : (slotAccount h (a.edges h)).Nodup := by
    have hmap : slotAccount h (a.edges h) =
        (a.node h).slots.map fun entry => .holds h entry.1 entry.2 := by
      simp [slotAccount, edges, List.flatMap_map, ← List.map_eq_flatMap]
    rw [hmap]
    refine List.Nodup.map ?_ (ha h).ordered.nodup
    rintro ⟨slot, child⟩ ⟨slot', child'⟩ heq
    obtain ⟨-, rfl, rfl⟩ := Fact.holds.inj heq
    rfl
  have hown : (a.ownAccount h).Nodup := by
    simp only [ownAccount]
    split <;> simp
  refine List.nodup_append.mpr ⟨hown, hslots, ?_⟩
  rintro fact hfact _ hslot rfl
  obtain ⟨slot, child, -, rfl⟩ := mem_slotAccount.mp hslot
  simp only [ownAccount] at hfact
  split at hfact <;> simp at hfact

/-! ## Along a walk -/

mutual

/-- What is said along a walk. -/
def account (a : Arena) : Spanning (Option Slot) Handle → List Fact
  | .visit _ h onward => a.ownAccount h ++ accountOfSlots a h onward
  | .again _ _ => []

/-- What is said along the ways out of a value: what the slot holds, and then what is said of the
value in it. -/
def accountOfSlots (a : Arena) (owner : Handle) :
    List (Spanning (Option Slot) Handle) → List Fact
  | [] => []
  | t :: rest => (t.via.toList.map fun slot => .holds owner slot t.vertex) ++ account a t
      ++ accountOfSlots a owner rest

end

mutual

theorem facts_eq (a : Arena) :
    (t : Spanning (Option Slot) Handle) → a.facts t = (a.account t).map a.predicate
  | .visit _ h onward => by
    rw [facts, account, List.map_append, map_ownAccount, factsOfSlots_eq a h onward]
  | .again _ _ => by rw [facts, account, List.map_nil]

theorem factsOfSlots_eq (a : Arena) (owner : Handle) :
    (ts : List (Spanning (Option Slot) Handle)) →
      a.factsOfSlots owner ts = (a.accountOfSlots owner ts).map a.predicate
  | [] => by rw [factsOfSlots, accountOfSlots, List.map_nil]
  | t :: rest => by
    rw [factsOfSlots, accountOfSlots, List.map_append, List.map_append, facts_eq a t,
      factsOfSlots_eq a owner rest, loadInto]
    cases t.via <;> rfl

end

/-- Along a walk, all is said that there is to say of what it comes to, and what the slots hold that
it sets out with. -/
theorem account_perm (h : Walks a.edges seen edges ts seen') (owner : Handle) :
    (a.accountOfSlots owner ts).Perm
      (slotAccount owner edges ++ (orderOfAll ts).flatMap a.accountOf) := by
  induction h generalizing owner with
  | nil => exact .nil
  | again _ _ ih =>
    simp only [accountOfSlots, account, Spanning.via, Spanning.vertex, orderOfAll, Spanning.order,
      slotAccount, List.flatMap_cons, List.append_nil, List.nil_append, List.append_assoc]
    exact (ih owner).append_left _
  | @visit _ _ _ edge _ _ _ _ _ _ ihonward ih =>
    refine List.perm_iff_count.mpr fun fact => ?_
    have honward := (ihonward edge.2).count_eq fact
    have hrest := (ih owner).count_eq fact
    simp only [accountOfSlots, account, Spanning.via, Spanning.vertex, orderOfAll, Spanning.order,
      slotAccount, accountOf, List.flatMap_cons, List.flatMap_append, List.count_append]
      at honward hrest ⊢
    omega

/-- Of what lies behind the edges of a walk, nothing is said but what the walk comes to, and what it
sets out from. -/
theorem mem_seen_of_mentions (h : Walks a.edges seen edges ts seen') (howner : owner ∈ seen)
    {fact : Fact} (hfact : fact ∈ a.accountOfSlots owner ts) (hk : fact.Mentions k) :
    k ∈ seen' := by
  rcases List.mem_append.mp ((account_perm h owner).mem_iff.mp hfact) with hfact | hfact
  · obtain ⟨slot, child, hedge, rfl⟩ := mem_slotAccount.mp hfact
    rcases hk with rfl | rfl
    · exact h.subset howner
    · exact h.mem_of_edge hedge
  · obtain ⟨v, hv, hfact⟩ := List.mem_flatMap.mp hfact
    have hseen : v ∈ seen' := h.mem_iff.mpr (.inr hv)
    rcases List.mem_append.mp hfact with hfact | hfact
    · exact eq_of_mem_ownAccount hfact hk ▸ hseen
    · obtain ⟨slot, child, hedge, rfl⟩ := mem_slotAccount.mp hfact
      rcases hk with rfl | rfl
      · exact hseen
      · exact h.closed hv hedge

theorem accountOfSlots_again (hslot : via = some slot) (owner v : Handle)
    (ts : List (Spanning (Option Slot) Handle)) :
    a.accountOfSlots owner (.again via v :: ts) =
      .holds owner slot v :: a.accountOfSlots owner ts := by
  simp [accountOfSlots, account, Spanning.via, Spanning.vertex, hslot]

theorem accountOfSlots_visit (hslot : via = some slot) (owner v : Handle)
    (onward ts : List (Spanning (Option Slot) Handle)) :
    a.accountOfSlots owner (.visit via v onward :: ts) =
      (.holds owner slot v :: a.ownAccount v) ++
        (a.accountOfSlots v onward ++ a.accountOfSlots owner ts) := by
  simp [accountOfSlots, account, Spanning.via, Spanning.vertex, hslot]

theorem not_mentions_of_ne (howner : owner ≠ k) (hv : v ≠ k) :
    ∀ fact ∈ .holds owner slot v :: a.ownAccount v, ¬fact.Mentions k := by
  refine List.forall_mem_cons.mpr ⟨?_, fun fact hfact hmentions => ?_⟩
  · rintro (heq | heq)
    · exact howner heq
    · exact hv heq
  · exact hv (eq_of_mem_ownAccount hfact hmentions)

/-- What a walk comes to for the first time is told of right behind the slot through which it comes
there, and nothing mentions it before. -/
theorem exists_holds_before (h : Walks a.edges seen edges ts seen') (howner : owner ∈ seen)
    (hlabels : ∀ edge ∈ edges, edge.1.isSome = true) (hk : k ∈ orderOfAll ts) :
    ∃ before o slot after,
      a.accountOfSlots owner ts = before ++ .holds o slot k :: a.ownAccount k ++ after ∧ o ≠ k ∧
        ∀ fact ∈ before, ¬fact.Mentions k := by
  have hunseen := h.not_mem_of_mem hk
  induction h generalizing owner with
  | nil => cases hk
  | @again seen _ edge rest ts hmem _ ih =>
    obtain ⟨hlabel, hlabels⟩ := List.forall_mem_cons.mp hlabels
    obtain ⟨slot, hslot⟩ := Option.isSome_iff_exists.mp hlabel
    obtain ⟨before, o, slot', after, heq, hne, hbefore⟩ := ih howner hlabels hk hunseen
    refine ⟨.holds owner slot edge.2 :: before, o, slot', after, ?_, hne, ?_⟩
    · rw [accountOfSlots_again hslot, heq]
      rfl
    · refine List.forall_mem_cons.mpr ⟨?_, hbefore⟩
      rintro (rfl | rfl)
      · exact hunseen howner
      · exact hunseen hmem
  | @visit seen mid _ edge rest onward ts hnew honward hrest ihonward ih =>
    obtain ⟨hlabel, hlabels⟩ := List.forall_mem_cons.mp hlabels
    obtain ⟨slot, hslot⟩ := Option.isSome_iff_exists.mp hlabel
    rw [accountOfSlots_visit hslot]
    by_cases hself : edge.2 = k
    · subst hself
      exact ⟨[], owner, slot, _, rfl, fun heq => hnew (heq ▸ howner), nofun⟩
    have hfirst : ∀ fact ∈ .holds owner slot edge.2 :: a.ownAccount edge.2, ¬fact.Mentions k :=
      not_mentions_of_ne (fun heq => hunseen (heq ▸ howner)) hself
    simp only [orderOfAll, Spanning.order, List.cons_append, List.mem_cons, List.mem_append] at hk
    rcases hk with hk | hk | hk
    · exact absurd hk.symm hself
    · have hunseen' : k ∉ edge.2 :: seen :=
        List.not_mem_cons_of_ne_of_not_mem (Ne.symm hself) hunseen
      obtain ⟨before, o, slot', after, heq, hne, hbefore⟩ :=
        ihonward (List.mem_cons_self ..) (fun _ => isSome_of_mem_edges) hk hunseen'
      refine ⟨.holds owner slot edge.2 :: a.ownAccount edge.2 ++ before, o, slot',
        after ++ a.accountOfSlots owner ts, ?_, hne, ?_⟩
      · simp [heq]
      · exact List.forall_mem_append.mpr ⟨hfirst, hbefore⟩
    · have hunseen' := hrest.not_mem_of_mem hk
      have howner' : owner ∈ mid := honward.subset (List.mem_cons_of_mem _ howner)
      obtain ⟨before, o, slot', after, heq, hne, hbefore⟩ := ih howner' hlabels hk hunseen'
      refine ⟨.holds owner slot edge.2 :: a.ownAccount edge.2 ++
        (a.accountOfSlots edge.2 onward ++ before), o, slot', after, ?_, hne, ?_⟩
      · simp [heq]
      · refine List.forall_mem_append.mpr ⟨hfirst, List.forall_mem_append.mpr ⟨?_, hbefore⟩⟩
        intro fact hfact hmentions
        exact hunseen' (mem_seen_of_mentions honward (List.mem_cons_self ..) hfact hmentions)

/-! ## The requirements -/

/-- What the requirements of a value say. -/
def accountFrom (a : Arena) (root : Handle) : List Fact := a.account (a.walk root)

theorem requirements_eq (a : Arena) (root : Handle) :
    a.requirements root = .basic ((a.accountFrom root).map a.predicate) := by
  rw [requirements, facts_eq, accountFrom]

/-- The walk from a value, along the edges out of it. -/
theorem IsValid.exists_walks (ha : a.IsValid) (root : Handle) :
    ∃ onward seen', a.walk root = .visit none root onward ∧
      Walks a.edges [root] (a.edges root) onward seen' :=
  Spanning.exists_walks_onward (fun _ _ _ => ha.edges_mem_handles) (Finset.mem_insert_self ..)
    none (a.card_handles_le root)

theorem IsValid.mem_order_walk (ha : a.IsValid) : h ∈ (a.walk root).order ↔ a.Reaches root h := by
  rw [← reaches_edges]
  exact Spanning.mem_order_walk_iff (fun _ _ _ => ha.edges_mem_handles)
    (Finset.mem_insert_self ..) none (a.card_handles_le root)

/-- The walk from a value comes to nothing twice. -/
theorem IsValid.nodup_order_walk (ha : a.IsValid) (root : Handle) :
    (a.walk root).order.Nodup := by
  obtain ⟨onward, seen', hwalk, honward⟩ := ha.exists_walks root
  rw [hwalk, Spanning.order]
  exact List.nodup_cons.mpr
    ⟨fun hmem => honward.not_mem_of_mem hmem (List.mem_cons_self ..), honward.nodup⟩

theorem IsValid.accountFrom_perm (ha : a.IsValid) (root : Handle) :
    (a.accountFrom root).Perm ((a.walk root).order.flatMap a.accountOf) := by
  obtain ⟨onward, seen', hwalk, honward⟩ := ha.exists_walks root
  rw [accountFrom, hwalk, account, Spanning.order, List.flatMap_cons, accountOf, List.append_assoc]
  exact (account_perm honward root).append_left _

theorem IsValid.mem_accountFrom (ha : a.IsValid) {fact : Fact} : fact ∈ a.accountFrom root ↔
    a.Reaches root fact.subject ∧ fact ∈ a.accountOf fact.subject := by
  rw [(ha.accountFrom_perm root).mem_iff, List.mem_flatMap]
  constructor
  · rintro ⟨h, hh, hfact⟩
    obtain rfl := subject_of_mem_accountOf hfact
    exact ⟨ha.mem_order_walk.mp hh, hfact⟩
  · rintro ⟨hreach, hfact⟩
    exact ⟨_, ha.mem_order_walk.mpr hreach, hfact⟩

theorem IsValid.nodup_accountFrom (ha : a.IsValid) (root : Handle) :
    (a.accountFrom root).Nodup := by
  refine (ha.accountFrom_perm root).nodup_iff.mpr (List.nodup_flatMap.mpr ⟨?_, ?_⟩)
  · exact fun h _ => ha.nodup_accountOf h
  · refine (ha.nodup_order_walk root).imp fun hne fact hfact hfact' => hne ?_
    exact (subject_of_mem_accountOf hfact).symm.trans (subject_of_mem_accountOf hfact')

/-- Of a value that is reached, the first thing that is said is that a slot holds it. -/
theorem IsValid.exists_holds_first (ha : a.IsValid) (hreach : a.Reaches root h) (hne : h ≠ root) :
    ∃ before owner slot after,
      a.accountFrom root = before ++ .holds owner slot h :: a.ownAccount h ++ after ∧ owner ≠ h ∧
        ∀ fact ∈ before, ¬fact.Mentions h := by
  obtain ⟨onward, seen', hwalk, honward⟩ := ha.exists_walks root
  have hmem : h ∈ Spanning.orderOfAll onward := by
    have horder := ha.mem_order_walk.mpr hreach
    rw [hwalk, Spanning.order, List.mem_cons] at horder
    exact horder.resolve_left hne
  obtain ⟨before, owner, slot, after, heq, howner, hbefore⟩ :=
    exists_holds_before honward (List.mem_cons_self ..) (fun _ => isSome_of_mem_edges) hmem
  refine ⟨a.ownAccount root ++ before, owner, slot, after, ?_, howner, ?_⟩
  · rw [accountFrom, hwalk, account, heq]
    simp
  · refine List.forall_mem_append.mpr ⟨?_, hbefore⟩
    exact fun fact hfact hmentions => hne (eq_of_mem_ownAccount hfact hmentions).symm

/-- The requirements of a value say, each once: of every object and array that it reaches, that it
is not null; of every array, its length; and of every slot of what it reaches, what the slot holds.
Of a value that is reached, the first thing that is said is that a slot holds it, and then follows
what is said of the value by itself. -/
theorem requirements_account (ha : a.IsValid) (root : Handle) :
    ∃ facts : List Fact, a.requirements root = .basic (facts.map a.predicate) ∧ facts.Nodup ∧
      (∀ h, .notNull h ∈ facts ↔ a.Reaches root h ∧ (a.node h).isOnHeap = true) ∧
      (∀ h value, .length h value ∈ facts ↔
        a.Reaches root h ∧ (a.node h).shape = .array value) ∧
      (∀ owner slot child, .holds owner slot child ∈ facts ↔
        a.Reaches root owner ∧ (slot, child) ∈ (a.node owner).slots) ∧
      ∀ h, a.Reaches root h → h ≠ root → ∃ before owner slot after,
        facts = before ++ .holds owner slot h :: a.ownAccount h ++ after ∧ owner ≠ h ∧
          ∀ fact ∈ before, ¬fact.Mentions h := by
  refine ⟨a.accountFrom root, a.requirements_eq root, ha.nodup_accountFrom root, ?_, ?_, ?_, ?_⟩
  · intro h
    simp [ha.mem_accountFrom, Fact.subject, notNull_mem_accountOf]
  · intro h value
    simp [ha.mem_accountFrom, Fact.subject, length_mem_accountOf]
  · intro owner slot child
    simp [ha.mem_accountFrom, Fact.subject, holds_mem_accountOf]
  · exact fun h hreach hne => ha.exists_holds_first hreach hne

/-! A class holds an array with the same object in both places, and the object leads back to the
array. -/

namespace Crew

def holder : Node := ⟨.statics (.class "Crew"), .class "Crew", .statics, []⟩

def members : Node :=
  ⟨.value (.array (.class "Sailor")) "members", .array (.class "Sailor"), .array 2, []⟩

def sailor : Node := ⟨.value (.class "Sailor") "sailor", .class "Sailor", .object, []⟩

def bare : Arena := (((({} : Arena).push holder).2.push members).2.push sailor).2

def arena : Arena :=
  (((bare.setField ⟨0⟩ "all" (.array (.class "Sailor")) ⟨1⟩).setElement ⟨1⟩ 0 ⟨2⟩).setElement
    ⟨1⟩ 1 ⟨2⟩).setField ⟨2⟩ "crew" (.array (.class "Sailor")) ⟨1⟩

theorem isValid_arena : arena.IsValid := by
  have hholder := isValid_push (n := holder) isValid_empty rfl
  have hmembers := isValid_push (n := members) hholder rfl
  have hbare : bare.IsValid := isValid_push (n := sailor) hmembers rfl
  have hheld : (bare.setField ⟨0⟩ "all" (.array (.class "Sailor")) ⟨1⟩).IsValid :=
    isValid_setField hbare _ _ (by decide)
  have hfirst : ((bare.setField ⟨0⟩ "all" (.array (.class "Sailor")) ⟨1⟩).setElement
      ⟨1⟩ 0 ⟨2⟩).IsValid := isValid_setElement hheld _ (by decide)
  exact isValid_setField (isValid_setElement hfirst _ (by decide)) _ _ (by decide)

theorem reaches_members : arena.Reaches ⟨0⟩ ⟨1⟩ :=
  .single (by rw [Leads]; decide)

theorem reaches_sailor : arena.Reaches ⟨0⟩ ⟨2⟩ :=
  reaches_members.tail (by rw [Leads]; decide)

/-- The sailor is not null, is said to be in both places, and is told of once. -/
theorem sailor_told : arena.IsValid ∧ arena.Reaches ⟨0⟩ ⟨2⟩ ∧
    ∃ facts : List Fact, arena.requirements ⟨0⟩ = .basic (facts.map arena.predicate) ∧
      facts.count (.notNull ⟨2⟩) = 1 ∧ .notNull ⟨0⟩ ∉ facts ∧ .length ⟨1⟩ 2 ∈ facts ∧
      .holds ⟨1⟩ (.element 0) ⟨2⟩ ∈ facts ∧ .holds ⟨1⟩ (.element 1) ⟨2⟩ ∈ facts := by
  obtain ⟨facts, heq, hnodup, hnotNull, hlength, hholds, -⟩ :=
    requirements_account isValid_arena ⟨0⟩
  refine ⟨isValid_arena, reaches_sailor, facts, heq, ?_, ?_, ?_, ?_, ?_⟩
  · exact List.count_eq_one_of_mem hnodup ((hnotNull _).mpr ⟨reaches_sailor, by decide⟩)
  · exact fun hmem => absurd ((hnotNull _).mp hmem).2 (by decide)
  · exact (hlength _ _).mpr ⟨reaches_members, by decide⟩
  · exact (hholds _ _ _).mpr ⟨reaches_members, by decide⟩
  · exact (hholds _ _ _).mpr ⟨reaches_members, by decide⟩

end Crew

end Arena
end Concolic
