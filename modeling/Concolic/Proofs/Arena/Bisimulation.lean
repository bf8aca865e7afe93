import Concolic.Proofs.Arena.Likeness
import Concolic.Proofs.Spanning.Completeness
import Mathlib.Data.Finset.Prod
import Mathlib.Data.Finset.Range

/-!
# Structural equality is the greatest bisimulation

Two values are structurally equal exactly if they are bisimilar: some relation has them that
relates only values that are the same, or that are alike by themselves and have related values in
every slot that both have. The comparison assumes of a pair that it came to before that its values
are equal, and never takes this back; the pairs that it comes to are such a relation if no pair
among them differs by itself.

## Main statements

* `Arena.structurallyEqual_iff_bisimilar` — structural equality is bisimilarity, and so it is
  reflexive and symmetric.
-/

namespace Concolic.Arena

variable {a : Arena} {h k c d : Handle} {R : Handle → Handle → Prop}

/-! ## Bisimulations -/

/-- The values in each slot that both values have are related. -/
def SharesSlots (a : Arena) (R : Handle → Handle → Prop) (h k : Handle) : Prop :=
  ∀ slot c d, a.at? h slot = some c → a.at? k slot = some d → R c d

/-- The two values are of the same kind: constants with equal literals, or containers with equal
types, and lengths if they are arrays, and with related values in the slots that both have. -/
inductive Alike (a : Arena) (R : Handle → Handle → Prop) (h k : Handle) : Prop
  | constant (value : Literal) : (a.node h).shape = .constant value →
      (a.node k).shape = .constant value → Alike a R h k
  | object : (a.node h).shape = .object → (a.node k).shape = .object →
      (a.node h).type = (a.node k).type → a.SharesSlots R h k → Alike a R h k
  | statics : (a.node h).shape = .statics → (a.node k).shape = .statics →
      (a.node h).type = (a.node k).type → a.SharesSlots R h k → Alike a R h k
  | array (length : Int32) : (a.node h).shape = .array length →
      (a.node k).shape = .array length → (a.node h).type = (a.node k).type →
      a.SharesSlots R h k → Alike a R h k

/-- The relation has only values that are the same, or alike under it. -/
def IsBisimulation (a : Arena) (R : Handle → Handle → Prop) : Prop :=
  ∀ h k, R h k → h = k ∨ a.Alike R h k

/-- Some bisimulation relates the values. -/
def Bisimilar (a : Arena) (h k : Handle) : Prop := ∃ R, a.IsBisimulation R ∧ R h k

theorem SharesSlots.symm (hshares : a.SharesSlots R h k) : a.SharesSlots (flip R) k h :=
  fun slot c d hc hd => hshares slot d c hd hc

theorem Alike.symm (halike : a.Alike R h k) : a.Alike (flip R) k h := by
  cases halike with
  | constant value hh hk => exact .constant value hk hh
  | object hh hk htype hshares => exact .object hk hh htype.symm hshares.symm
  | statics hh hk htype hshares => exact .statics hk hh htype.symm hshares.symm
  | array length hh hk htype hshares => exact .array length hk hh htype.symm hshares.symm

theorem Bisimilar.refl (a : Arena) (h : Handle) : a.Bisimilar h h :=
  ⟨Eq, fun _ _ => .inl, rfl⟩

theorem Bisimilar.symm (hbisimilar : a.Bisimilar h k) : a.Bisimilar k h := by
  obtain ⟨R, hR, hroot⟩ := hbisimilar
  exact ⟨flip R, fun h k hrel => (hR k h hrel).imp Eq.symm Alike.symm, hroot⟩

/-! ## Nodes that agree -/

/-- What a slot leads to is an entry of the node. -/
theorem mem_slots_of_at? {slot : Slot} (hslot : a.at? h slot = some c) :
    (slot, c) ∈ (a.node h).slots := by
  obtain ⟨front, back, hsplit, -⟩ := List.lookup_eq_some_iff.mp hslot
  rw [hsplit]
  exact List.mem_append_right _ (List.mem_cons_self ..)

theorem Alike.agree (halike : a.Alike R h k) : agree (a.node h) (a.node k) = true := by
  cases halike with
  | constant value hh hk => simp [Arena.agree, hh, hk, Node.isConstant, Node.literal?]
  | object hh hk htype => exact agree_of_eq (hh.trans hk.symm) htype
  | statics hh hk htype => exact agree_of_eq (hh.trans hk.symm) htype
  | array length hh hk htype => exact agree_of_eq (hh.trans hk.symm) htype

/-- A constant has no slots. -/
theorem IsValid.at?_constant (ha : a.IsValid) {value : Literal}
    (hshape : (a.node h).shape = .constant value) (slot : Slot) : a.at? h slot = none := by
  have hslots : (a.node h).slots = [] := by
    rw [List.eq_nil_iff_forall_not_mem]
    intro entry hentry
    have haccepted := (ha h).accepted entry hentry
    cases hslot : entry.1 <;>
      simp [hslot, Node.accepts, Node.hasFields, Node.hasIndex, hshape] at haccepted
  rw [at?, Node.at?, hslots, List.lookup_nil]

theorem Alike.sharesSlots (ha : a.IsValid) (halike : a.Alike R h k) : a.SharesSlots R h k := by
  cases halike with
  | constant value hh hk =>
    intro slot c d hc
    rw [ha.at?_constant hh] at hc
    cases hc
  | object _ _ _ hshares | statics _ _ _ hshares | array _ _ _ _ hshares => exact hshares

/-- Nodes that agree, with related values in the slots that both have, are alike. -/
theorem Alike.of_agree (hagree : Arena.agree (a.node h) (a.node k) = true)
    (hshares : a.SharesSlots R h k) : a.Alike R h k := by
  simp only [Arena.agree, Bool.and_eq_true, Bool.or_eq_true, beq_iff_eq] at hagree
  obtain ⟨hshape, htype⟩ := hagree
  cases hh : (a.node h).shape with
  | constant value => exact .constant value hh (hshape ▸ hh)
  | object =>
    simp only [Node.isConstant, Node.literal?, hh] at htype
    exact .object hh (hshape ▸ hh) (by simpa using htype) hshares
  | statics =>
    simp only [Node.isConstant, Node.literal?, hh] at htype
    exact .statics hh (hshape ▸ hh) (by simpa using htype) hshares
  | array length =>
    simp only [Node.isConstant, Node.literal?, hh] at htype
    exact .array length hh (hshape ▸ hh) (by simpa using htype) hshares

/-! ## The pairs of a comparison -/

/-- The pairs that a comparison comes to. -/
def comparedPairs (a : Arena) (h k : Handle) : List (Handle × Handle) :=
  (Spanning.walk a.sharedSlots (a.size * a.size + 2) () (h, k)).order

/-- The pairs of nodes of the arena, and the pair that a comparison starts with. -/
def allPairs (a : Arena) (h k : Handle) : Finset (Handle × Handle) :=
  insert (h, k) ((Finset.range a.size ×ˢ Finset.range a.size).image fun p => (⟨p.1⟩, ⟨p.2⟩))

theorem card_allPairs_le (a : Arena) (h k : Handle) :
    (a.allPairs h k).card ≤ a.size * a.size + 2 := by
  have hcard : ((Finset.range a.size ×ˢ Finset.range a.size).image
      fun p => ((⟨p.1⟩, ⟨p.2⟩) : Handle × Handle)).card ≤ a.size * a.size := by
    refine Finset.card_image_le.trans ?_
    rw [Finset.card_product, Finset.card_range]
  exact (Finset.card_insert_le _ _).trans (by omega)

theorem mem_sharedSlots {pair : Handle × Handle} {edge : Unit × Handle × Handle} :
    edge ∈ a.sharedSlots pair ↔
      (pair.1 ≠ pair.2 ∧ agree (a.node pair.1) (a.node pair.2) = true) ∧
        ∃ slot, (slot, edge.2.1) ∈ (a.node pair.1).slots ∧ a.at? pair.2 slot = some edge.2.2 := by
  simp only [sharedSlots]
  split
  case isTrue hskip =>
    rw [Bool.or_eq_true, decide_eq_true_eq, Bool.not_eq_true'] at hskip
    refine iff_of_false List.not_mem_nil ?_
    rintro ⟨⟨hends, hagree⟩, -⟩
    exact hskip.elim hends fun hdiffer => by simp [hdiffer] at hagree
  case isFalse hskip =>
    have hcompared : pair.1 ≠ pair.2 ∧ agree (a.node pair.1) (a.node pair.2) = true := by
      simpa using hskip
    simp only [hcompared, List.mem_filterMap, Option.map_eq_some_iff, Prod.exists, at?, ne_eq,
      not_false_eq_true, true_and]
    constructor
    · rintro ⟨slot, c, hc, d, hd, rfl⟩
      exact ⟨slot, hc, hd⟩
    · rintro ⟨slot, hc, hd⟩
      exact ⟨slot, _, hc, _, hd, rfl⟩

theorem IsValid.sharedSlots_mem_allPairs (ha : a.IsValid) {pair : Handle × Handle}
    {edge : Unit × Handle × Handle} (hedge : edge ∈ a.sharedSlots pair) :
    edge.2 ∈ a.allPairs h k := by
  obtain ⟨-, slot, hc, hd⟩ := mem_sharedSlots.mp hedge
  have hleft := (ha pair.1).inside _ hc
  have hright := (ha pair.2).inside _ (mem_slots_of_at? hd)
  refine Finset.mem_insert_of_mem (Finset.mem_image.mpr ⟨(edge.2.1.index, edge.2.2.index), ?_, rfl⟩)
  exact Finset.mk_mem_product (Finset.mem_range.mpr hleft) (Finset.mem_range.mpr hright)

/-- A comparison comes to every pair in slots that two agreeing values share. -/
theorem IsValid.mem_comparedPairs (ha : a.IsValid) {pair : Handle × Handle}
    (hpair : pair ∈ a.comparedPairs h k) {edge : Unit × Handle × Handle}
    (hedge : edge ∈ a.sharedSlots pair) : edge.2 ∈ a.comparedPairs h k :=
  Spanning.mem_order_walk_of_edge (fun _ _ _ => ha.sharedSlots_mem_allPairs)
    (Finset.mem_insert_self ..) () (card_allPairs_le a h k) hpair hedge

theorem IsValid.root_mem_comparedPairs (ha : a.IsValid) (h k : Handle) :
    (h, k) ∈ a.comparedPairs h k :=
  Spanning.root_mem_order_walk (fun _ _ _ => ha.sharedSlots_mem_allPairs)
    (Finset.mem_insert_self ..) () (card_allPairs_le a h k)

/-- If no pair that a comparison comes to differs by itself, these pairs are a bisimulation. -/
theorem IsValid.isBisimulation_comparedPairs (ha : a.IsValid)
    (hequal : a.structurallyEqual h k = true) :
    a.IsBisimulation fun c d => (c, d) ∈ a.comparedPairs h k := by
  intro c d hpair
  have hagree := List.all_eq_true.mp hequal (c, d) hpair
  simp only [Bool.or_eq_true, beq_iff_eq] at hagree
  by_cases hends : c = d
  · exact .inl hends
  · have hagree := hagree.resolve_left hends
    refine .inr (.of_agree hagree fun slot c' d' hc hd => ?_)
    have hedge : ((), c', d') ∈ a.sharedSlots (c, d) :=
      mem_sharedSlots.mpr ⟨⟨hends, hagree⟩, slot, mem_slots_of_at? hc, hd⟩
    exact ha.mem_comparedPairs hpair hedge

/-- Bisimilar values are structurally equal. -/
theorem IsValid.structurallyEqual_of_bisimilar (ha : a.IsValid) (hbisimilar : a.Bisimilar h k) :
    a.structurallyEqual h k = true := by
  obtain ⟨R, hR, hroot⟩ := hbisimilar
  -- With the diagonal, the relation goes along with the slots of what is the same as well.
  refine structurallyEqual_of_related (R := fun c d => c = d ∨ R c d) ?_ ?_ (.inr hroot)
  · rintro c d (rfl | hrel)
    · exact agree_of_eq rfl rfl
    · rcases hR c d hrel with rfl | halike
      · exact agree_of_eq rfl rfl
      · exact halike.agree
  · rintro c d hrel slot c' d' hc hd
    rcases hrel with rfl | hrel
    · exact .inl (Option.some.inj (((ha c).at?_of_mem hc).symm.trans hd))
    · rcases hR c d hrel with rfl | halike
      · exact .inl (Option.some.inj (((ha c).at?_of_mem hc).symm.trans hd))
      · exact .inr (halike.sharesSlots ha slot c' d' ((ha c).at?_of_mem hc) hd)

theorem IsValid.structurallyEqual_iff (ha : a.IsValid) :
    a.structurallyEqual h k = true ↔ a.Bisimilar h k :=
  ⟨fun hequal => ⟨_, ha.isBisimulation_comparedPairs hequal, ha.root_mem_comparedPairs h k⟩,
    ha.structurallyEqual_of_bisimilar⟩

/-- In a valid arena, however cyclic, a comparison ends by itself, and two values are structurally
equal exactly if a bisimulation relates them. So structural equality is reflexive and symmetric. -/
theorem structurallyEqual_iff_bisimilar (ha : a.IsValid) (h k : Handle) :
    (∀ extra, Spanning.walk a.sharedSlots (a.size * a.size + 2 + extra) () (h, k) =
      Spanning.walk a.sharedSlots (a.size * a.size + 2) () (h, k)) ∧
    (a.structurallyEqual h k = true ↔ ∃ R, a.IsBisimulation R ∧ R h k) ∧
    a.structurallyEqual h h = true ∧
    a.structurallyEqual h k = a.structurallyEqual k h := by
  refine ⟨?_, ha.structurallyEqual_iff, ha.structurallyEqual_iff.mpr (.refl a h), ?_⟩
  · exact Spanning.walk_add_fuel (fun _ _ _ => ha.sharedSlots_mem_allPairs)
      (Finset.mem_insert_self ..) () (card_allPairs_le a h k)
  · rw [Bool.eq_iff_iff, ha.structurallyEqual_iff, ha.structurallyEqual_iff]
    exact ⟨Bisimilar.symm, Bisimilar.symm⟩

/-! Of three nodes that lead to themselves, the second looks like the first and the third, as it
lacks the slot in which these two differ. -/

namespace Loops

def node (name : String) : Node := ⟨.value (.class "Node") name, .class "Node", .object, []⟩

/-- The three nodes, and the values in which the first and the third differ. -/
def bare : Arena :=
  (((((({} : Arena).push (node "first")).2.push (node "second")).2.push (node "third")).2.push
    (.constant (.int 3))).2.push (.constant (.int 4))).2

def linked : Arena :=
  ((bare.setField ⟨0⟩ "next" (.class "Node") ⟨0⟩).setField ⟨1⟩ "next" (.class "Node")
    ⟨1⟩).setField ⟨2⟩ "next" (.class "Node") ⟨2⟩

def arena : Arena := (linked.setField ⟨0⟩ "value" .int ⟨3⟩).setField ⟨2⟩ "value" .int ⟨4⟩

theorem isValid_bare : bare.IsValid := by
  have hfirst := isValid_push (n := node "first") isValid_empty rfl
  have hsecond := isValid_push (n := node "second") hfirst rfl
  have hthird := isValid_push (n := node "third") hsecond rfl
  exact isValid_push (isValid_push hthird rfl) rfl

theorem isValid_arena : arena.IsValid := by
  have hfirst : (bare.setField ⟨0⟩ "next" (.class "Node") ⟨0⟩).IsValid :=
    isValid_setField isValid_bare _ _ (by decide)
  have hlinked : linked.IsValid :=
    isValid_setField (isValid_setField hfirst _ _ (by decide)) _ _ (by decide)
  exact isValid_setField (isValid_setField hlinked _ _ (by decide)) _ _ (by decide)

/-- Structural equality is not transitive. -/
theorem arena_bisimilar : arena.IsValid ∧
    (∃ R, arena.IsBisimulation R ∧ R ⟨0⟩ ⟨1⟩) ∧ (∃ R, arena.IsBisimulation R ∧ R ⟨1⟩ ⟨2⟩) ∧
    (¬∃ R, arena.IsBisimulation R ∧ R ⟨0⟩ ⟨2⟩) ∧ arena.structurallyEqual ⟨2⟩ ⟨1⟩ = true := by
  have hfirst : arena.structurallyEqual ⟨0⟩ ⟨1⟩ = true := by decide +kernel
  have hsecond : arena.structurallyEqual ⟨1⟩ ⟨2⟩ = true := by decide +kernel
  have hthird : arena.structurallyEqual ⟨0⟩ ⟨2⟩ = false := by decide +kernel
  obtain ⟨-, h₀₁, -⟩ := structurallyEqual_iff_bisimilar isValid_arena ⟨0⟩ ⟨1⟩
  obtain ⟨-, h₁₂, -, hsymm⟩ := structurallyEqual_iff_bisimilar isValid_arena ⟨1⟩ ⟨2⟩
  obtain ⟨-, h₀₂, -⟩ := structurallyEqual_iff_bisimilar isValid_arena ⟨0⟩ ⟨2⟩
  refine ⟨isValid_arena, h₀₁.mp hfirst, h₁₂.mp hsecond, ?_, hsymm ▸ hsecond⟩
  exact fun hrelated => Bool.false_ne_true (hthird.symm.trans (h₀₂.mpr hrelated))

end Loops

end Concolic.Arena
