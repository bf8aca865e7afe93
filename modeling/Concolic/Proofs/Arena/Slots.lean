import Concolic.Arena.Basic
import Mathlib.Order.Compare

/-!
# The order of slots

Types and slots are totally ordered, and the order tells any two of them apart. So a container
whose slots are in order has each slot once. To put a value into a slot changes what that slot
leads to and nothing else, and it keeps the order.

## Main statements

* `ValueType.compare` and `Slot.compare` are lawful total orders.
* `Node.lookup_insertSlot`, `Node.isOrdered_insertSlot` — what filling a slot does.
-/

namespace Concolic

/-! ## The order of types -/

namespace ValueType

/-- The ranks of a type and of what it holds, from the outside in. -/
def ranks : ValueType → List Nat
  | .array element => 11 :: element.ranks
  | .location target => 12 :: target.ranks
  | t => [t.rank]

/-- The name of the class at the heart of a type, if there is one. -/
def coreName : ValueType → String
  | .class name => name
  | .array element => element.coreName
  | .location target => target.coreName
  | _ => ""

/-- Types are in the order of their ranks, and then of the classes inside. -/
theorem compare_eq (a b : ValueType) :
    a.compare b = compareLex (compareOn ranks) (compareOn coreName) a b := by
  have hcons (n : Nat) (l r : List Nat) : Ord.compare (n :: l) (n :: r) = Ord.compare l r := by
    simp [List.compare_eq_compareLex]
  induction a generalizing b with
  | «class» name => cases b <;> rfl
  | array element ih =>
    cases b with
    | array =>
      simp only [compare, ih, compareLex, compareOn, ranks, coreName, hcons]
    | _ => rfl
  | location target ih =>
    cases b with
    | location =>
      simp only [compare, ih, compareLex, compareOn, ranks, coreName, hcons]
    | _ => rfl
  | _ => cases b <;> rfl

theorem eq_of_ranks {a b : ValueType} (hranks : a.ranks = b.ranks)
    (hname : a.coreName = b.coreName) : a = b := by
  induction a generalizing b with
  | array element ih =>
    cases b with
    | array => rw [ih (List.cons.inj hranks).2 hname]
    | _ => simp [ranks, rank] at hranks
  | location target ih =>
    cases b with
    | location => rw [ih (List.cons.inj hranks).2 hname]
    | _ => simp [ranks, rank] at hranks
  | _ => cases b <;> simp_all [ranks, rank, coreName]

theorem compare_eq_compareLex : compare = compareLex (compareOn ranks) (compareOn coreName) :=
  funext fun a => funext fun b => compare_eq a b

instance : Std.TransCmp compare := by
  rw [compare_eq_compareLex]
  infer_instance

instance : Std.LawfulEqCmp compare where
  compare_self := compare_self _
  eq_of_compare h := by
    rw [compare_eq, compareLex, Ordering.then_eq_eq] at h
    exact eq_of_ranks (Std.LawfulEqOrd.eq_of_compare h.1) (Std.LawfulEqOrd.eq_of_compare h.2)

end ValueType

/-! ## The order of slots -/

namespace Slot

instance : Std.LawfulEqCmp compare where
  compare_self {s} := by
    cases s with
    | field name type => simp [compare]
    | element index => exact Std.ReflOrd.compare_self
  eq_of_compare {s t} h := by
    cases s with
    | field name type =>
      cases t with
      | field name' type' =>
        rw [compare, Ordering.then_eq_eq] at h
        rw [Std.LawfulEqOrd.eq_of_compare h.1, Std.LawfulEqCmp.eq_of_compare h.2]
      | element => cases h
    | element index =>
      cases t with
      | field => cases h
      | element => rw [Std.LawfulEqOrd.eq_of_compare h]

theorem compare_swap (s t : Slot) : s.compare t = (t.compare s).swap := by
  cases s with
  | field name type =>
    cases t with
    | field name' type' =>
      have htype : type.compare type' = (type'.compare type).swap := Std.OrientedCmp.eq_swap
      simp only [compare, Ordering.swap_then, htype]
      rw [Std.OrientedOrd.eq_swap]
    | element => rfl
  | element index =>
    cases t with
    | field => rfl
    | element => exact Std.OrientedOrd.eq_swap

/-- Fields are in the order of their names, and then of their types. -/
theorem compare_field (f g : String × ValueType) : (field f.1 f.2).compare (field g.1 g.2) =
    compareLex (compareOn Prod.fst) (compareOn Prod.snd) f g := rfl

instance : Std.TransOrd ValueType := inferInstanceAs (Std.TransCmp ValueType.compare)

instance : Std.TransCmp compare where
  eq_swap := compare_swap _ _
  isLE_trans {s t u} hst htu := by
    cases s with
    | field name type =>
      cases u with
      | element => rfl
      | field name' type' =>
        cases t with
        | element => cases htu
        | field name₁ type₁ =>
          rw [compare_field (name, type) (name₁, type₁)] at hst
          rw [compare_field (name₁, type₁) (name', type')] at htu
          rw [compare_field (name, type) (name', type')]
          exact Std.TransCmp.isLE_trans hst htu
    | element index =>
      cases t with
      | field => cases hst
      | element index₁ =>
        cases u with
        | field => cases htu
        | element => exact Std.TransOrd.isLE_trans hst htu

end Slot

/-! ## Containers in order -/

namespace Node

variable {slot s : Slot} {h k : Handle} {slots : List (Slot × Handle)}

/-- What a slot leads to once a value has been put into a slot. -/
theorem lookup_insertSlot (slot : Slot) (h : Handle) (slots : List (Slot × Handle)) (s : Slot) :
    (insertSlot slot h slots).lookup s = if s = slot then some h else slots.lookup s := by
  induction slots with
  | nil =>
    by_cases hs : s = slot
    · simp [insertSlot, hs]
    · have hbeq : (s == slot) = false := beq_false_of_ne hs
      simp [insertSlot, List.lookup_cons, hs, hbeq]
  | cons entry rest ih =>
    obtain ⟨t, k⟩ := entry
    rw [insertSlot]
    cases hcompare : slot.compare t with
    | lt =>
      by_cases hs : s = slot
      · simp [hs]
      · have hbeq : (s == slot) = false := beq_false_of_ne hs
        simp [List.lookup_cons, hs, hbeq]
    | eq =>
      obtain rfl : slot = t := Std.LawfulEqCmp.eq_of_compare hcompare
      by_cases hs : s = slot
      · simp [hs]
      · have hbeq : (s == slot) = false := beq_false_of_ne hs
        simp [List.lookup_cons, hs, hbeq]
    | gt =>
      have hne : t ≠ slot := by
        rintro rfl
        have heq : t.compare t = .eq := Std.ReflCmp.compare_self
        rw [heq] at hcompare
        cases hcompare
      by_cases hs : s = t
      · simp [hs, hne]
      · have hbeq : (s == t) = false := beq_false_of_ne hs
        simp [List.lookup_cons, hbeq, ih]

/-- The slots stand in their order, each of them once. -/
def IsOrdered (slots : List (Slot × Handle)) : Prop :=
  slots.Pairwise fun entry later => entry.1.compare later.1 = .lt

/-- Whether slots stand in order does not depend on what they lead to. -/
theorem isOrdered_iff :
    IsOrdered slots ↔ (slots.map (·.1)).Pairwise fun s t => s.compare t = .lt := by
  rw [List.pairwise_map]
  rfl

/-- In order, every slot leads where its entry says. -/
theorem lookup_of_mem (hslots : IsOrdered slots) (hmem : (slot, h) ∈ slots) :
    slots.lookup slot = some h := by
  induction slots with
  | nil => cases hmem
  | cons entry rest ih =>
    obtain ⟨hentry, hrest⟩ := List.pairwise_cons.mp hslots
    rcases List.mem_cons.mp hmem with rfl | hmem
    · simp
    · have hlt := hentry _ hmem
      have hne : slot ≠ entry.1 := by
        rintro rfl
        have heq : entry.1.compare entry.1 = .eq := Std.ReflCmp.compare_self
        rw [heq] at hlt
        cases hlt
      rw [List.lookup_cons, beq_false_of_ne hne]
      exact ih hrest hmem

theorem IsOrdered.nodup (hslots : IsOrdered slots) : slots.Nodup := by
  refine hslots.imp fun {entry later} hlt => ?_
  rintro rfl
  have heq : entry.1.compare entry.1 = .eq := Std.ReflCmp.compare_self
  rw [heq] at hlt
  cases hlt

theorem mem_insertSlot {entry : Slot × Handle} (hentry : entry ∈ insertSlot slot h slots) :
    entry = (slot, h) ∨ entry ∈ slots := by
  induction slots with
  | nil => exact .inl (List.mem_singleton.mp hentry)
  | cons first rest ih =>
    rw [insertSlot] at hentry
    cases hcompare : slot.compare first.1 with
    | lt =>
      simp only [hcompare, List.mem_cons] at hentry
      simpa using hentry
    | eq =>
      simp only [hcompare, List.mem_cons] at hentry
      exact hentry.imp_right (List.mem_cons_of_mem _)
    | gt =>
      simp only [hcompare, List.mem_cons] at hentry
      rcases hentry with rfl | hentry
      · exact .inr (List.mem_cons_self ..)
      · exact (ih hentry).imp_right (List.mem_cons_of_mem _)

theorem isOrdered_insertSlot (hslots : IsOrdered slots) : IsOrdered (insertSlot slot h slots) := by
  induction slots with
  | nil => exact List.pairwise_singleton _ _
  | cons first rest ih =>
    obtain ⟨t, k⟩ := first
    obtain ⟨hfirst, hrest⟩ := List.pairwise_cons.mp hslots
    rw [insertSlot]
    cases hcompare : slot.compare t with
    | lt =>
      refine List.pairwise_cons.mpr ⟨?_, hslots⟩
      intro later hlater
      rcases List.mem_cons.mp hlater with rfl | hlater
      · exact hcompare
      · exact Std.TransCmp.lt_trans hcompare (hfirst later hlater)
    | eq =>
      obtain rfl : slot = t := Std.LawfulEqCmp.eq_of_compare hcompare
      exact List.pairwise_cons.mpr ⟨hfirst, hrest⟩
    | gt =>
      refine List.pairwise_cons.mpr ⟨?_, ih hrest⟩
      intro later hlater
      rcases mem_insertSlot hlater with rfl | hlater
      · exact Std.OrientedCmp.lt_of_gt hcompare
      · exact hfirst later hlater

/-- A slot behind all others is added at the end. -/
theorem insertSlot_of_last (hlast : ∀ entry ∈ slots, entry.1.compare slot = .lt) :
    insertSlot slot h slots = slots ++ [(slot, h)] := by
  induction slots with
  | nil => rfl
  | cons first rest ih =>
    rw [List.forall_mem_cons] at hlast
    have hgt : slot.compare first.1 = .gt := Std.OrientedCmp.gt_of_lt hlast.1
    simp only [insertSlot, hgt, ih hlast.2, List.cons_append]

end Node

end Concolic
