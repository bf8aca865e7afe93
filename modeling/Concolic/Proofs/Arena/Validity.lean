import Concolic.Arena.Walk
import Concolic.Proofs.Arena.Slots
import Mathlib.Logic.Relation

/-!
# Valid arenas

The slots of a node stand in their order, each of them once; they are of the kind that the node
has, and lead to nodes of the arena. Every arena that is built by adding nodes and by setting and
emptying slots is valid, and in a valid arena nothing leads out of it.

## Main statements

* `Arena.isValid_push`, `Arena.isValid_setField`, `Arena.isValid_setElement` — building an arena
  keeps it valid.
* `Arena.IsValid.lt_size_of_reaches` — nothing leads out of a valid arena.
-/

namespace Concolic

theorem Handle.eq_of_index {h k : Handle} (heq : h.index = k.index) : h = k := by
  cases h
  cases k
  exact congrArg _ heq

namespace Node

/-- Whether the node has a place for the slot. -/
def accepts (n : Node) : Slot → Bool
  | .field _ _ => n.hasFields
  | .element index => n.hasIndex index

theorem accepts_congr {n m : Node} (hshape : n.shape = m.shape) (slot : Slot) :
    n.accepts slot = m.accepts slot := by
  cases slot with
  | field => simp only [accepts, hasFields, hshape]
  | element => simp only [accepts, hasIndex, hshape]

theorem literal?_congr {n m : Node} (hshape : n.shape = m.shape) : n.literal? = m.literal? := by
  simp only [literal?, hshape]

theorem isConstant_congr {n m : Node} (hshape : n.shape = m.shape) :
    n.isConstant = m.isConstant := by
  rw [isConstant, isConstant, literal?_congr hshape]

theorem slotType?_congr {n m : Node} (hshape : n.shape = m.shape) (htype : n.type = m.type)
    (slot : Slot) : n.slotType? slot = m.slotType? slot := by
  cases slot with
  | field => rfl
  | element => simp only [slotType?, element?, hshape, htype]

/-- A node of an arena of the given size. -/
structure IsValid (size : Nat) (n : Node) : Prop where
  ordered : IsOrdered n.slots
  accepted : ∀ entry ∈ n.slots, n.accepts entry.1 = true
  inside : ∀ entry ∈ n.slots, entry.2.index < size

variable {n : Node} {size more : Nat} {slot : Slot} {h : Handle}

theorem IsValid.of_empty (hslots : n.slots = []) : n.IsValid size := by
  constructor <;> simp [hslots, IsOrdered]

theorem IsValid.mono (hn : n.IsValid size) (hsize : size ≤ more) : n.IsValid more :=
  ⟨hn.ordered, hn.accepted, fun entry hentry => Nat.lt_of_lt_of_le (hn.inside entry hentry) hsize⟩

theorem IsValid.insert (hn : n.IsValid size) (hslot : n.accepts slot = true)
    (hh : h.index < size) : (n.insert slot h).IsValid size := by
  refine ⟨isOrdered_insertSlot hn.ordered, fun entry hentry => ?_, fun entry hentry => ?_⟩
  · rcases mem_insertSlot hentry with rfl | hentry
    · exact hslot
    · exact hn.accepted entry hentry
  · rcases mem_insertSlot hentry with rfl | hentry
    · exact hh
    · exact hn.inside entry hentry

/-- Slots of another node of the same shape may be taken over. -/
theorem IsValid.takeOver {slots : List (Slot × Handle)} (hn : n.IsValid size)
    (hslots : ∀ entry ∈ slots, n.accepts entry.1 = true ∧ entry.2.index < size) :
    (slots.foldl (fun n entry =>
      if (n.at? entry.1).isSome then n else n.insert entry.1 entry.2) n).IsValid size := by
  induction slots generalizing n with
  | nil => exact hn
  | cons entry slots ih =>
    obtain ⟨hentry, hrest⟩ := List.forall_mem_cons.mp hslots
    rw [List.foldl_cons]
    split
    · exact ih hn hrest
    · exact ih (hn.insert hentry.1 hentry.2) hrest

theorem IsValid.filter (hn : n.IsValid size) (keep : Slot × Handle → Bool) :
    ({ n with slots := n.slots.filter keep } : Node).IsValid size :=
  ⟨List.Pairwise.filter _ hn.ordered,
    fun entry hentry => hn.accepted entry (List.mem_filter.mp hentry).1,
    fun entry hentry => hn.inside entry (List.mem_filter.mp hentry).1⟩

/-- Every slot of a node leads where it says. -/
theorem IsValid.at?_of_mem (hn : n.IsValid size) (hmem : (slot, h) ∈ n.slots) :
    n.at? slot = some h :=
  lookup_of_mem hn.ordered hmem

end Node

namespace Arena

variable {a : Arena} {n : Node} {h k owner value : Handle}

/-! ## Nodes behind a change -/

theorem size_push (a : Arena) (n : Node) : (a.push n).2.size = a.size + 1 := by
  simp [push, size]

theorem node_push_of_lt (n : Node) (hh : h.index < a.size) : (a.push n).2.node h = a.node h := by
  unfold size at hh
  simp [push, node, List.getElem?_append_left hh]

theorem node_push_new (a : Arena) (n : Node) : (a.push n).2.node (a.push n).1 = n := by
  simp [push, node, size]

theorem size_update (a : Arena) (h : Handle) (change : Node → Node) :
    (a.update h change).size = a.size := by
  simp [update, size]

theorem node_update_self (change : Node → Node) (hh : h.index < a.size) :
    (a.update h change).node h = change (a.node h) := by
  unfold size at hh
  simp [update, node, List.getElem?_eq_getElem hh]

theorem node_update_of_ne (change : Node → Node) (hne : k ≠ h) :
    (a.update h change).node k = a.node k := by
  have hindex : h.index ≠ k.index := fun heq => hne (Handle.eq_of_index heq.symm)
  simp [update, node, hindex]

theorem node_of_size_le (hh : a.size ≤ h.index) : a.node h = .constant .null := by
  unfold size at hh
  simp [node, List.getElem?_eq_none hh]

/-- Only a node of the arena has slots. -/
theorem lt_size_of_mem_slots {entry : Slot × Handle} (hentry : entry ∈ (a.node h).slots) :
    h.index < a.size := by
  by_contra hge
  rw [node_of_size_le (Nat.le_of_not_lt hge)] at hentry
  cases hentry

theorem update_of_size_le (change : Node → Node) (hh : a.size ≤ h.index) :
    a.update h change = a := by
  unfold size at hh
  simp [update, List.modify_eq_self hh]

/-- An arena is what its nodes are. -/
theorem eq_of_nodes {a b : Arena} (hsize : a.size = b.size)
    (hnode : ∀ h : Handle, h.index < a.size → a.node h = b.node h) : a = b := by
  obtain ⟨nodes⟩ := a
  obtain ⟨nodes'⟩ := b
  congr 1
  refine List.ext_getElem hsize fun index hlt hlt' => ?_
  have hat := hnode ⟨index⟩ hlt
  simpa only [node, List.getD_eq_getElem?_getD, List.getElem?_eq_getElem hlt,
    List.getElem?_eq_getElem hlt', Option.getD_some] using hat

/-- An update is told by what it makes of its one node. -/
theorem update_congr {change change' : Node → Node}
    (heq : change (a.node h) = change' (a.node h)) : a.update h change = a.update h change' := by
  refine eq_of_nodes (by rw [size_update, size_update]) fun k hk => ?_
  rw [size_update] at hk
  by_cases hself : k = h
  · subst hself
    rw [node_update_self _ hk, node_update_self _ hk, heq]
  · rw [node_update_of_ne _ hself, node_update_of_ne _ hself]

theorem update_eq_self {change : Node → Node} (heq : change (a.node h) = a.node h) :
    a.update h change = a := by
  refine eq_of_nodes (size_update ..) fun k hk => ?_
  rw [size_update] at hk
  by_cases hself : k = h
  · subst hself
    rw [node_update_self _ hk, heq]
  · rw [node_update_of_ne _ hself]

/-- Put a value into a slot of a node, if the node has a place for it. Setting a field and setting
an element are both this. -/
def fillSlot (a : Arena) (owner : Handle) (slot : Slot) (value : Handle) : Arena :=
  a.update owner fun n => if n.accepts slot then n.insert slot value else n

theorem size_fillSlot (a : Arena) (owner : Handle) (slot : Slot) (value : Handle) :
    (a.fillSlot owner slot value).size = a.size := size_update ..

theorem node_fillSlot_self (slot : Slot) (value : Handle) (howner : owner.index < a.size) :
    (a.fillSlot owner slot value).node owner =
      if (a.node owner).accepts slot then (a.node owner).insert slot value else a.node owner :=
  node_update_self _ howner

theorem node_fillSlot_of_ne (slot : Slot) (value : Handle) (hne : h ≠ owner) :
    (a.fillSlot owner slot value).node h = a.node h :=
  node_update_of_ne _ hne

/-- Filling a slot leaves what kind of value a node is. -/
theorem shape_node_fillSlot (a : Arena) (owner : Handle) (slot : Slot) (value h : Handle) :
    ((a.fillSlot owner slot value).node h).type = (a.node h).type ∧
      ((a.fillSlot owner slot value).node h).shape = (a.node h).shape := by
  by_cases hself : h = owner
  · subst hself
    rcases Nat.lt_or_ge h.index a.size with hlt | hge
    · rw [node_fillSlot_self slot value hlt]
      split <;> exact ⟨rfl, rfl⟩
    · rw [fillSlot, update_of_size_le _ hge]
      exact ⟨rfl, rfl⟩
  · rw [node_fillSlot_of_ne slot value hself]
    exact ⟨rfl, rfl⟩

/-! ## Validity -/

/-- Every node has the slots that it may have, and they lead to nodes. -/
def IsValid (a : Arena) : Prop := ∀ h : Handle, (a.node h).IsValid a.size

theorem isValid_empty : IsValid {} := fun _ => .of_empty (by simp [node, Node.constant])

theorem isValid_push (ha : a.IsValid) (hn : n.slots = []) : (a.push n).2.IsValid := by
  intro h
  rw [size_push]
  rcases Nat.lt_trichotomy h.index a.size with hlt | heq | hgt
  · rw [node_push_of_lt n hlt]
    exact (ha h).mono (Nat.le_succ _)
  · obtain rfl : h = (a.push n).1 := Handle.eq_of_index heq
    rw [node_push_new]
    exact .of_empty hn
  · rw [node_of_size_le (by rw [size_push]; exact hgt)]
    exact .of_empty rfl

theorem isValid_update (ha : a.IsValid) {change : Node → Node}
    (hchange : (change (a.node owner)).IsValid a.size) : (a.update owner change).IsValid := by
  intro h
  rw [size_update]
  by_cases hh : h = owner
  · subst hh
    rcases Nat.lt_or_ge h.index a.size with hlt | hge
    · rwa [node_update_self change hlt]
    · rw [update_of_size_le change hge]
      exact ha h
  · rw [node_update_of_ne change hh]
    exact ha h

theorem isValid_fillSlot (ha : a.IsValid) (slot : Slot) (hvalue : value.index < a.size) :
    (a.fillSlot owner slot value).IsValid := by
  apply isValid_update ha
  by_cases hslot : (a.node owner).accepts slot = true
  · rw [if_pos hslot]
    exact (ha owner).insert hslot hvalue
  · rw [if_neg hslot]
    exact ha owner

theorem isValid_setField (ha : a.IsValid) (name : String) (type : ValueType)
    (hvalue : value.index < a.size) : (a.setField owner name type value).IsValid :=
  isValid_fillSlot ha (.field name type) hvalue

theorem isValid_setElement (ha : a.IsValid) (index : Int32) (hvalue : value.index < a.size) :
    (a.setElement owner index value).IsValid :=
  isValid_fillSlot ha (.element index) hvalue

theorem isValid_erase (ha : a.IsValid) (slot : Slot) : (a.erase owner slot).IsValid :=
  isValid_update ha ((ha owner).filter _)

theorem isValid_retype (ha : a.IsValid) (type : ValueType) : (a.retype h type).IsValid :=
  isValid_update ha ⟨(ha h).ordered, (ha h).accepted, (ha h).inside⟩

theorem isValid_merge (ha : a.IsValid) (into source : Handle) : (a.merge into source).IsValid := by
  rw [merge]
  by_cases hmerge : a.canMerge into source = true
  · rw [if_pos hmerge]
    simp only [canMerge, Bool.and_eq_true, beq_iff_eq] at hmerge
    refine isValid_update ha (Node.IsValid.takeOver (ha into) fun entry hentry => ⟨?_, ?_⟩)
    · rw [Node.accepts_congr hmerge.2]
      exact (ha source).accepted entry hentry
    · exact (ha source).inside entry hentry
  · rw [if_neg hmerge]
    exact ha

/-! ## What a value reaches -/

/-- A slot of the one value leads to the other. -/
def Leads (a : Arena) (h k : Handle) : Prop := k ∈ (a.node h).children

/-- Slots lead from the one value to the other, through any number of values. -/
def Reaches (a : Arena) : Handle → Handle → Prop := Relation.ReflTransGen a.Leads

theorem leads_of_mem {slot : Slot} (hmem : (slot, k) ∈ (a.node h).slots) : a.Leads h k :=
  List.mem_map_of_mem hmem

theorem IsValid.lt_size_of_leads (ha : a.IsValid) (hlead : a.Leads h k) : k.index < a.size := by
  obtain ⟨entry, hentry, rfl⟩ := List.mem_map.mp hlead
  exact (ha h).inside entry hentry

theorem IsValid.lt_size_of_reaches (ha : a.IsValid) (hh : h.index < a.size)
    (hreach : a.Reaches h k) : k.index < a.size := by
  cases hreach.cases_tail with
  | inl heq => rwa [heq]
  | inr hlast =>
    obtain ⟨_, -, hlead⟩ := hlast
    exact ha.lt_size_of_leads hlead

end Arena
end Concolic
