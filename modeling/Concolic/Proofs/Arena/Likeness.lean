import Concolic.Arena.Change
import Concolic.Proofs.Arena.Validity
import Concolic.Proofs.Spanning

/-!
# Values that look alike

Two values are structurally equal if some relation has them and passes from any two values to the
values in the slots that both have, where all that it relates looks alike by itself. One-to-one
images under which slots lead to images look like what they are images of, and are as deep.

## Main statements

* `Arena.structurallyEqual_of_related` — values that a bisimulation relates are equal.
* `Arena.IsImage.structurallyEqual`, `Arena.IsImage.depth_eq` — images are alike and as deep.
-/

namespace Concolic.Arena

variable {a : Arena} {h k root : Handle}

/-! ## Structural equality -/

/-- Values that are related are structurally equal, if the relation goes along with the slots. -/
theorem structurallyEqual_of_related {R : Handle → Handle → Prop}
    (hagree : ∀ h k, R h k → agree (a.node h) (a.node k) = true)
    (hslots : ∀ h k, R h k → ∀ slot c d, (slot, c) ∈ (a.node h).slots →
      (a.node k).at? slot = some d → R c d) (hroot : R h k) :
    a.structurallyEqual h k = true := by
  have hnext : ∀ pair : Handle × Handle, R pair.1 pair.2 →
      ∀ edge ∈ a.sharedSlots pair, R edge.2.1 edge.2.2 := by
    intro pair hpair edge hedge
    simp only [sharedSlots] at hedge
    split at hedge
    · cases hedge
    · obtain ⟨⟨slot, c⟩, hentry, hshared⟩ := List.mem_filterMap.mp hedge
      obtain ⟨d, hd, rfl⟩ := Option.map_eq_some_iff.mp hshared
      exact hslots _ _ hpair slot c d hentry hd
  apply List.all_eq_true.mpr
  intro pair hpair
  have hrelated := Spanning.forall_mem_order_walk (P := fun pair => R pair.1 pair.2) hnext _ ()
    hroot pair hpair
  simp only [hagree _ _ hrelated, Bool.or_true]

theorem agree_of_eq {n m : Node} (hshape : n.shape = m.shape) (htype : n.type = m.type) :
    agree n m = true := by
  simp [agree, hshape, htype]

/-! ## Images -/

/-- The values with the property `P` have images, each of them its own; an image is of the same
kind and type, and its slots lead to the images of what the slots of the value lead to. -/
structure IsImage (a : Arena) (P : Handle → Prop) (image : Handle → Handle) : Prop where
  closed : ∀ h, P h → ∀ entry ∈ (a.node h).slots, P entry.2
  injective : ∀ h k, P h → P k → image h = image k → h = k
  shape_eq : ∀ h, P h → (a.node (image h)).shape = (a.node h).shape
  type_eq : ∀ h, P h → (a.node (image h)).type = (a.node h).type
  slots_eq : ∀ h, P h →
    (a.node (image h)).slots = (a.node h).slots.map fun entry => (entry.1, image entry.2)

namespace IsImage

variable {P : Handle → Prop} {image : Handle → Handle}

theorem at?_image (hi : a.IsImage P image) (hh : P h) (slot : Slot) :
    (a.node (image h)).at? slot = ((a.node h).at? slot).map image := by
  rw [Node.at?, Node.at?, hi.slots_eq h hh]
  induction (a.node h).slots with
  | nil => rfl
  | cons entry rest ih =>
    rw [List.map_cons, List.lookup_cons, List.lookup_cons, ih]
    cases slot == entry.1 <;> rfl

/-- A value and its image are structurally equal, either way. -/
theorem structurallyEqual (hi : a.IsImage P image) (ha : a.IsValid) (hroot : P root) :
    a.structurallyEqual root (image root) = true ∧
      a.structurallyEqual (image root) root = true := by
  constructor
  · refine structurallyEqual_of_related (R := fun h k => P h ∧ k = image h) ?_ ?_ ⟨hroot, rfl⟩
    · rintro h _ ⟨hh, rfl⟩
      exact agree_of_eq (hi.shape_eq h hh).symm (hi.type_eq h hh).symm
    · rintro h _ ⟨hh, rfl⟩ slot c d hc hd
      rw [hi.at?_image hh, (ha h).at?_of_mem hc] at hd
      exact ⟨hi.closed h hh _ hc, (Option.some.inj hd).symm⟩
  · refine structurallyEqual_of_related (R := fun k h => P h ∧ k = image h) ?_ ?_ ⟨hroot, rfl⟩
    · rintro _ h ⟨hh, rfl⟩
      exact agree_of_eq (hi.shape_eq h hh) (hi.type_eq h hh)
    · rintro _ h ⟨hh, rfl⟩ slot c d hc hd
      rw [hi.slots_eq h hh] at hc
      obtain ⟨entry, hentry, heq⟩ := List.mem_map.mp hc
      obtain ⟨rfl, rfl⟩ := Prod.mk.inj heq
      rw [(ha h).at?_of_mem hentry] at hd
      obtain rfl := Option.some.inj hd
      exact ⟨hi.closed h hh _ hentry, rfl⟩

/-- An image is as deep as what it is an image of. -/
theorem depth_eq (hi : a.IsImage P image) (hroot : P root) :
    a.depth (image root) = a.depth root := by
  have hclosed : ∀ h, P h → ∀ edge ∈ a.edges h, P edge.2 := by
    intro h hh edge hedge
    obtain ⟨entry, hentry, rfl⟩ := List.mem_map.mp hedge
    exact hi.closed h hh entry hentry
  have hedges : ∀ h, P h → a.edges (image h) =
      (a.edges h).map fun edge => (edge.1, image edge.2) := by
    intro h hh
    simp only [edges, hi.slots_eq h hh, List.map_map]
    rfl
  rw [depth, depth, walk, walk, Spanning.walk_map hclosed hedges hi.injective _ _ hroot,
    Spanning.depth_map]

end IsImage

end Concolic.Arena
