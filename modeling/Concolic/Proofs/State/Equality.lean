import Concolic.State.Basic

/-!
# Equality of states

Comparing items is an equivalence whenever comparing parts is. A state is known up to this
equivalence by its key, the list of the classes of its items: two states are the same when
their keys are equal, and one starts with another when the keys do. Reasoning about sameness
becomes reasoning about lists.
-/

namespace Concolic.State

variable {α : Type} [BEq α]

/-! ## Items -/

namespace Item

mutual

theorem same_refl [ReflBEq α] : ∀ x : Item α, Item.same x x = true
  | .part a => by simp [Item.same]
  | .branch xs => by simp [Item.same, sameBranches_refl xs]

theorem sameRuns_refl [ReflBEq α] : ∀ xs : List (Item α), Item.sameRuns xs xs = true
  | [] => rfl
  | x :: xs => by simp [Item.sameRuns, same_refl x, sameRuns_refl xs]

theorem sameBranches_refl [ReflBEq α] :
    ∀ xs : List (List (Item α)), Item.sameBranches xs xs = true
  | [] => rfl
  | x :: xs => by simp [Item.sameBranches, sameRuns_refl x, sameBranches_refl xs]

end

mutual

theorem same_symm [PartialEquivBEq α] :
    ∀ {x y : Item α}, Item.same x y = true → Item.same y x = true
  | .part _, .part _, h => by simpa [Item.same] using BEq.symm (by simpa [Item.same] using h)
  | .branch _, .branch _, h => by
    simpa [Item.same] using sameBranches_symm (by simpa [Item.same] using h)
  | .part _, .branch _, h => by simp [Item.same] at h
  | .branch _, .part _, h => by simp [Item.same] at h

theorem sameRuns_symm [PartialEquivBEq α] :
    ∀ {xs ys : List (Item α)}, Item.sameRuns xs ys = true → Item.sameRuns ys xs = true
  | [], [], _ => rfl
  | x :: xs, y :: ys, h => by
    simp only [Item.sameRuns, Bool.and_eq_true] at h ⊢
    exact ⟨same_symm h.1, sameRuns_symm h.2⟩
  | [], _ :: _, h => by simp [Item.sameRuns] at h
  | _ :: _, [], h => by simp [Item.sameRuns] at h

theorem sameBranches_symm [PartialEquivBEq α] : ∀ {xs ys : List (List (Item α))},
    Item.sameBranches xs ys = true → Item.sameBranches ys xs = true
  | [], [], _ => rfl
  | x :: xs, y :: ys, h => by
    simp only [Item.sameBranches, Bool.and_eq_true] at h ⊢
    exact ⟨sameRuns_symm h.1, sameBranches_symm h.2⟩
  | [], _ :: _, h => by simp [Item.sameBranches] at h
  | _ :: _, [], h => by simp [Item.sameBranches] at h

end

mutual

theorem same_trans [PartialEquivBEq α] : ∀ {x y z : Item α},
    Item.same x y = true → Item.same y z = true → Item.same x z = true
  | .part _, .part _, .part _, h, k => by
    simp only [Item.same] at h k ⊢
    exact BEq.trans h k
  | .branch _, .branch _, .branch _, h, k => by
    simp only [Item.same] at h k ⊢
    exact sameBranches_trans h k
  | .part _, .branch _, _, h, _ => by simp [Item.same] at h
  | .branch _, .part _, _, h, _ => by simp [Item.same] at h
  | _, .part _, .branch _, _, k => by simp [Item.same] at k
  | _, .branch _, .part _, _, k => by simp [Item.same] at k

theorem sameRuns_trans [PartialEquivBEq α] : ∀ {xs ys zs : List (Item α)},
    Item.sameRuns xs ys = true → Item.sameRuns ys zs = true → Item.sameRuns xs zs = true
  | [], [], [], _, _ => rfl
  | x :: xs, y :: ys, z :: zs, h, k => by
    simp only [Item.sameRuns, Bool.and_eq_true] at h k ⊢
    exact ⟨same_trans h.1 k.1, sameRuns_trans h.2 k.2⟩
  | [], _ :: _, _, h, _ => by simp [Item.sameRuns] at h
  | _ :: _, [], _, h, _ => by simp [Item.sameRuns] at h
  | _, [], _ :: _, _, k => by simp [Item.sameRuns] at k
  | _, _ :: _, [], _, k => by simp [Item.sameRuns] at k

theorem sameBranches_trans [PartialEquivBEq α] : ∀ {xs ys zs : List (List (Item α))},
    Item.sameBranches xs ys = true → Item.sameBranches ys zs = true →
      Item.sameBranches xs zs = true
  | [], [], [], _, _ => rfl
  | x :: xs, y :: ys, z :: zs, h, k => by
    simp only [Item.sameBranches, Bool.and_eq_true] at h k ⊢
    exact ⟨sameRuns_trans h.1 k.1, sameBranches_trans h.2 k.2⟩
  | [], _ :: _, _, h, _ => by simp [Item.sameBranches] at h
  | _ :: _, [], _, h, _ => by simp [Item.sameBranches] at h
  | _, [], _ :: _, _, k => by simp [Item.sameBranches] at k
  | _, _ :: _, [], _, k => by simp [Item.sameBranches] at k

end

instance [EquivBEq α] : EquivBEq (Item α) where
  rfl := same_refl _
  symm := same_symm
  trans := same_trans

/-- Items up to sameness. -/
def setoid (α : Type) [BEq α] [EquivBEq α] : Setoid (Item α) where
  r x y := (x == y) = true
  iseqv := ⟨fun _ => BEq.rfl, BEq.symm, BEq.trans⟩

/-- The class of an item. -/
abbrev Class (α : Type) [BEq α] [EquivBEq α] := Quotient (setoid α)

/-- The class that an item is in. -/
abbrev toClass [EquivBEq α] (x : Item α) : Class α := Quotient.mk (setoid α) x

theorem toClass_eq_iff [EquivBEq α] {x y : Item α} : x.toClass = y.toClass ↔ (x == y) = true :=
  ⟨Quotient.exact, fun h => Quotient.sound h⟩

theorem part_beq_part {a b : α} : (Item.part a == Item.part b) = (a == b) := by
  simp [BEq.beq, Item.same]

end Item

/-! ## Keys -/

variable [EquivBEq α]

/-- A state up to sameness. -/
def key (s : State α) : List (Item.Class α) := s.items.map Item.toClass

theorem length_key (s : State α) : s.key.length = s.items.length := by simp [key]

theorem sameRuns_iff {xs ys : List (Item α)} :
    Item.sameRuns xs ys = true ↔ xs.map Item.toClass = ys.map Item.toClass := by
  induction xs generalizing ys with
  | nil => cases ys <;> simp [Item.sameRuns]
  | cons x xs ih =>
    cases ys with
    | nil => simp [Item.sameRuns]
    | cons y ys =>
      simp only [Item.sameRuns, Bool.and_eq_true, ih, List.map_cons, List.cons.injEq,
        Item.toClass_eq_iff]
      exact Iff.rfl

theorem beq_iff_key {s t : State α} : (s == t) = true ↔ s.key = t.key := sameRuns_iff

theorem isPrefixOf_iff {xs ys : List (Item α)} :
    xs.isPrefixOf ys = true ↔ xs.map Item.toClass <+: ys.map Item.toClass := by
  induction xs generalizing ys with
  | nil => simp
  | cons x xs ih =>
    cases ys with
    | nil => simp
    | cons y ys =>
      simp only [List.isPrefixOf, Bool.and_eq_true, ih, List.map_cons, List.cons_prefix_cons,
        Item.toClass_eq_iff]

theorem startsWith_iff_key {s lead : State α} :
    s.startsWith lead = true ↔ lead.key <+: s.key := isPrefixOf_iff

instance : EquivBEq (State α) := equivBEq_of_iff_apply_eq key fun _ _ => beq_iff_key

theorem startsWith_refl (s : State α) : s.startsWith s = true :=
  startsWith_iff_key.mpr List.prefix_rfl

theorem startsWith_trans {s t u : State α} (h : s.startsWith t = true)
    (k : t.startsWith u = true) : s.startsWith u = true :=
  startsWith_iff_key.mpr ((startsWith_iff_key.mp k).trans (startsWith_iff_key.mp h))

/-- States are the same when each starts with the other. -/
theorem beq_iff_startsWith {s t : State α} :
    (s == t) = true ↔ s.startsWith t = true ∧ t.startsWith s = true := by
  rw [beq_iff_key, startsWith_iff_key, startsWith_iff_key]
  constructor
  · intro h
    rw [h]
    exact ⟨List.prefix_rfl, List.prefix_rfl⟩
  · rintro ⟨h, k⟩
    exact k.eq_of_length (Nat.le_antisymm k.length_le h.length_le)

end Concolic.State
