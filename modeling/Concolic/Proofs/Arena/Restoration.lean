import Concolic.Proofs.Arena.Bisimulation
import Concolic.Proofs.Arena.Reduction
import Concolic.Proofs.BinaryFloat.Written

/-!
# What a reduction loses

A slot that a reduction leaves out held a constant, and giving it the default of its type puts the
same constant back, but for two kinds of zeros. A zero counts as a default whatever its sign, while
the default itself is positive; and a zero counts as a default whatever the type of its slot, while
the default of a type that is not primitive is null. So a reduction can be undone exactly if it
leaves out no such zero.

## Main statements

* `Arena.reduce_restores_iff` — what a reduction leaves out, and when giving defaults restores it.
* `Arena.Zeros.negative_zero_lost` — a negative zero that comes back as a positive one.
-/

namespace Concolic

/-! ## Zeros that are no defaults -/

namespace Literal

/-- A zero that is not the default of a slot of the given type, though it counts as one: it is
negative, or its slot is of no primitive type. -/
def IsForeignZero (value : Literal) (slot : ValueType) : Prop :=
  value = .float (.zero true) ∨ value = .double (.zero true) ∨
    (slot.isNumeric = false ∧ value ≠ .null)

theorem defaultOf_of_not_isNumeric {type : ValueType} (htype : type.isNumeric = false) :
    defaultOf type = .null := by
  cases type <;> first | rfl | cases htype

/-- What counts as a default in a slot is null, or a zero: that of its own type, or a negative
one. -/
theorem eq_of_isDefault {value : Literal} {slot : ValueType} (h : value.isDefault slot = true) :
    (value = .null ∧ slot.isPointer = true) ∨ (value ≠ .null ∧ (value = defaultOf value.type ∨
      value = .float (.zero true) ∨ value = .double (.zero true))) := by
  cases value with
  | null => exact .inl ⟨rfl, h⟩
  | bool | byte | char | short | int | long =>
    refine .inr ⟨nofun, .inl ?_⟩
    simpa [isDefault, defaultOf, type] using h
  | float x =>
    have hzero := BinaryFloat.eq_zero_of_magnitude (beq_iff_eq.mp h)
    refine .inr ⟨nofun, ?_⟩
    cases hsign : x.isNegative <;> rw [hsign] at hzero <;> subst hzero
    · exact .inl rfl
    · exact .inr (.inl rfl)
  | double x =>
    have hzero := BinaryFloat.eq_zero_of_magnitude (beq_iff_eq.mp h)
    refine .inr ⟨nofun, ?_⟩
    cases hsign : x.isNegative <;> rw [hsign] at hzero <;> subst hzero
    · exact .inl rfl
    · exact .inr (.inr rfl)
  | string | «class» => cases h

/-- What counts as a default is the default of its slot, unless it is a foreign zero. -/
theorem eq_defaultOf_iff {value : Literal} {slot : ValueType} (h : value.isDefault slot = true)
    (htyped : slot.isNumeric = true → value.type = slot) :
    value = defaultOf slot ↔ ¬value.IsForeignZero slot := by
  rcases eq_of_isDefault h with ⟨rfl, hpointer⟩ | ⟨hne, hzero⟩
  · have hnumeric : slot.isNumeric = false := by
      cases slot <;> first | rfl | cases hpointer
    simp [IsForeignZero, defaultOf_of_not_isNumeric hnumeric]
  · cases hnumeric : slot.isNumeric with
    | false => simp [IsForeignZero, defaultOf_of_not_isNumeric hnumeric, hnumeric, hne]
    | true =>
      obtain rfl := htyped hnumeric
      have hnegative : Literal.float (.zero true) ≠ .float (.zero false) ∧
          Literal.double (.zero true) ≠ .double (.zero false) := by decide
      rcases hzero with hzero | rfl | rfl
      · refine iff_of_true hzero ?_
        rintro (rfl | rfl | ⟨hother, -⟩)
        · exact hnegative.1 hzero
        · exact hnegative.2 hzero
        · rw [hnumeric] at hother
          cases hother
      · exact iff_of_false hnegative.1 (not_not_intro (.inl rfl))
      · exact iff_of_false hnegative.2 (not_not_intro (.inr (.inl rfl)))

end Literal

namespace Arena

variable {a b r : Arena} {h k root owner : Handle} {slot : Slot}

/-! ## Arenas that hold the same -/

/-- Every constant in a slot of a primitive type is a literal of that type. -/
def IsTyped (a : Arena) : Prop :=
  ∀ h slot k type value, a.at? h slot = some k → (a.node h).slotType? slot = some type →
    type.isNumeric = true → (a.node k).literal? = some value → value.type = type

/-- What a slot that leads to a value holds: the literal of a constant, and else the value. -/
def content (a : Arena) (k : Handle) : Literal ⊕ Handle :=
  match (a.node k).literal? with
  | some value => .inl value
  | none => .inr k

/-- Each value of the first arena is in the second, where each of its slots holds the same. -/
structure HoldsSame (a b : Arena) (h : Handle) : Prop where
  term_eq : b.term h = a.term h
  type_eq : (b.node h).type = (a.node h).type
  shape_eq : (b.node h).shape = (a.node h).shape
  slots_eq : ∀ slot, (b.at? h slot).map b.content = (a.at? h slot).map a.content

theorem content_eq_of_shape (hshape : (b.node k).shape = (a.node k).shape) :
    b.content k = a.content k := by
  simp only [content, Node.literal?_congr hshape]

/-! ## Giving defaults -/

/-- Put the default of its type into a slot. -/
def giveDefault (a : Arena) (place : Handle × Slot) : Arena :=
  match (a.node place.1).slotType? place.2 with
  | some type =>
    let (k, a) := a.constant (Literal.defaultOf type)
    a.fillSlot place.1 place.2 k
  | none => a

/-- The slots of an arena that lead nowhere in another. -/
def missing (a b : Arena) : List (Handle × Slot) :=
  (List.range a.size).flatMap fun index =>
    ((a.node ⟨index⟩).slots.filter fun entry => (b.at? ⟨index⟩ entry.1).isNone).map
      fun entry => (⟨index⟩, entry.1)

theorem IsValid.at?_eq_some_iff (ha : a.IsValid) :
    a.at? h slot = some k ↔ (slot, k) ∈ (a.node h).slots :=
  ⟨mem_slots_of_at?, (ha h).at?_of_mem⟩

theorem IsValid.mem_missing (ha : a.IsValid) :
    (h, slot) ∈ a.missing b ↔ (∃ k, a.at? h slot = some k) ∧ b.at? h slot = none := by
  simp only [missing, List.mem_flatMap, List.mem_range, List.mem_map, List.mem_filter,
    Option.isNone_iff_eq_none, Prod.mk.injEq]
  constructor
  · rintro ⟨index, -, ⟨slot, k⟩, ⟨hentry, hnone⟩, rfl, rfl⟩
    exact ⟨⟨k, ha.at?_eq_some_iff.mpr hentry⟩, hnone⟩
  · rintro ⟨⟨k, hk⟩, hnone⟩
    have hentry := ha.at?_eq_some_iff.mp hk
    exact ⟨h.index, lt_size_of_mem_slots hentry, (slot, k), ⟨hentry, hnone⟩, rfl, rfl⟩

/-- Behind giving defaults at some places: the values are still of the same kinds, each place leads
to the default of its type, and other slots lead where they led. -/
structure IsGiven (a : Arena) (places : List (Handle × Slot)) (b : Arena) : Prop where
  size_le : a.size ≤ b.size
  kind_eq : ∀ h : Handle, h.index < a.size → b.term h = a.term h ∧
    (b.node h).type = (a.node h).type ∧ (b.node h).shape = (a.node h).shape
  given : ∀ h slot type, (h, slot) ∈ places → h.index < a.size →
    (a.node h).accepts slot = true → (a.node h).slotType? slot = some type →
    ∃ k : Handle, k.index < b.size ∧ b.at? h slot = some k ∧
      (b.node k).literal? = some (Literal.defaultOf type)
  other : ∀ (h : Handle) slot, (h, slot) ∉ places → h.index < a.size →
    b.at? h slot = a.at? h slot

theorem IsGiven.refl (a : Arena) : IsGiven a [] a :=
  ⟨Nat.le_refl _, fun _ _ => ⟨rfl, rfl, rfl⟩, nofun, fun _ _ _ _ => rfl⟩

theorem IsGiven.trans {places places' : List (Handle × Slot)} (hfirst : IsGiven a places b)
    (hsecond : IsGiven b places' r) : IsGiven a (places ++ places') r := by
  have hinside {h : Handle} (hh : h.index < a.size) : h.index < b.size :=
    Nat.lt_of_lt_of_le hh hfirst.size_le
  constructor
  · exact Nat.le_trans hfirst.size_le hsecond.size_le
  · intro h hh
    obtain ⟨hterm, htype, hshape⟩ := hfirst.kind_eq h hh
    obtain ⟨hterm', htype', hshape'⟩ := hsecond.kind_eq h (hinside hh)
    exact ⟨hterm'.trans hterm, htype'.trans htype, hshape'.trans hshape⟩
  · intro h slot type hplace hh haccepts htyped
    obtain ⟨-, htype, hshape⟩ := hfirst.kind_eq h hh
    by_cases hlater : (h, slot) ∈ places'
    · rw [← Node.accepts_congr hshape] at haccepts
      rw [← Node.slotType?_congr hshape htype] at htyped
      exact hsecond.given h slot type hlater (hinside hh) haccepts htyped
    · have hplace := (List.mem_append.mp hplace).resolve_right hlater
      obtain ⟨k, hk, hat, hliteral⟩ := hfirst.given h slot type hplace hh haccepts htyped
      refine ⟨k, Nat.lt_of_lt_of_le hk hsecond.size_le, ?_, ?_⟩
      · rw [hsecond.other h slot hlater (hinside hh), hat]
      · rw [Node.literal?_congr (hsecond.kind_eq k hk).2.2, hliteral]
  · intro h slot hplace hh
    rw [List.mem_append, not_or] at hplace
    rw [hsecond.other h slot hplace.2 (hinside hh), hfirst.other h slot hplace.1 hh]

theorem term_fillSlot (a : Arena) (owner : Handle) (slot : Slot) (value h : Handle) :
    (a.fillSlot owner slot value).term h = a.term h := by
  by_cases hself : h = owner
  · subst hself
    rcases Nat.lt_or_ge h.index a.size with hlt | hge
    · rw [term, node_fillSlot_self slot value hlt]
      split <;> rfl
    · rw [fillSlot, update_of_size_le _ hge]
  · rw [term, node_fillSlot_of_ne slot value hself, term]

/-- To give one default is to add it and to fill the slot with it. -/
theorem isGiven_fillSlot {type : ValueType} (hslot : (a.node owner).slotType? slot = some type) :
    IsGiven a [(owner, slot)] ((a.constant (Literal.defaultOf type)).2.fillSlot owner slot
      (a.constant (Literal.defaultOf type)).1) := by
  have hold {h : Handle} (hh : h.index < a.size) :
      (a.constant (Literal.defaultOf type)).2.node h = a.node h := node_push_of_lt _ hh
  have hsize : (a.constant (Literal.defaultOf type)).2.size = a.size + 1 := size_push ..
  constructor
  · rw [size_fillSlot, hsize]
    exact Nat.le_succ _
  · intro h hh
    obtain ⟨htype, hshape⟩ := shape_node_fillSlot (a.constant (Literal.defaultOf type)).2 owner slot
      (a.constant (Literal.defaultOf type)).1 h
    rw [term_fillSlot, htype, hshape, term, hold hh]
    exact ⟨rfl, rfl, rfl⟩
  · intro h slot' type' hplace hh haccepts htyped
    obtain ⟨rfl, rfl⟩ := Prod.mk.inj (List.mem_singleton.mp hplace)
    obtain rfl := Option.some.inj (hslot.symm.trans htyped)
    have hnew : (a.constant (Literal.defaultOf type)).1.index = a.size := rfl
    have hne : (a.constant (Literal.defaultOf type)).1 ≠ h := by
      rintro rfl
      exact Nat.lt_irrefl _ hh
    refine ⟨(a.constant (Literal.defaultOf type)).1, ?_, ?_, ?_⟩
    · rw [size_fillSlot, hsize, hnew]
      exact Nat.lt_succ_self _
    · rw [at?, node_fillSlot_self _ _ (by omega), hold hh, if_pos haccepts, Node.at?, Node.insert,
        Node.lookup_insertSlot, if_pos rfl]
    · rw [node_fillSlot_of_ne _ _ hne]
      exact congrArg Node.literal? (node_push_new a (.constant (Literal.defaultOf type)))
  · intro h slot' hplace hh
    by_cases hself : h = owner
    · subst hself
      have hother : slot' ≠ slot := by
        rintro rfl
        exact hplace (List.mem_singleton.mpr rfl)
      rw [at?, node_fillSlot_self _ _ (by omega), hold hh]
      split
      · rw [Node.at?, Node.insert, Node.lookup_insertSlot, if_neg hother]
        rfl
      · rfl
    · rw [at?, node_fillSlot_of_ne _ _ hself, hold hh]
      rfl

theorem isGiven_giveDefault (a : Arena) (place : Handle × Slot) :
    IsGiven a [place] (a.giveDefault place) := by
  rw [giveDefault]
  cases hslot : (a.node place.1).slotType? place.2 with
  | some type => exact isGiven_fillSlot hslot
  | none =>
    refine ⟨Nat.le_refl _, fun _ _ => ⟨rfl, rfl, rfl⟩, ?_, fun _ _ _ _ => rfl⟩
    intro h slot type hplace _ _ htyped
    rw [← List.mem_singleton.mp hplace, htyped] at hslot
    cases hslot

theorem isGiven_foldl (a : Arena) (places : List (Handle × Slot)) :
    IsGiven a places (places.foldl giveDefault a) := by
  induction places generalizing a with
  | nil => exact .refl a
  | cons place places ih => exact (isGiven_giveDefault a place).trans (ih (a.giveDefault place))

/-! ## Slots that a reduction leaves out -/

/-- A slot that a reduction leaves out holds a constant that counts as the default of its type. -/
theorem IsValid.default_of_missing (ha : a.IsValid) (hk : a.at? h slot = some k)
    (hnone : (a.reduce root).at? h slot = none) :
    ∃ value type, (a.node k).literal? = some value ∧ (a.node h).slotType? slot = some type ∧
      value.isDefault type = true := by
  have hentry := ha.at?_eq_some_iff.mp hk
  have hdefault : a.isDefaultSlot (a.node h) (slot, k) = true := by
    by_contra hkept
    rw [Bool.not_eq_true] at hkept
    have hstays : (slot, k) ∈ ((a.reduce root).node h).slots := (mem_slots_pruned hkept).mpr hentry
    have hsome := (ha.pruned (a.retained root)).at?_eq_some_iff.mpr hstays
    rw [reduce_eq_pruned, hsome] at hnone
    cases hnone
  simp only [isDefaultSlot] at hdefault
  split at hdefault
  · next value type hvalue htype => exact ⟨value, type, hvalue, htype, hdefault⟩
  · cases hdefault

/-- A slot that a reduction leaves there leads where it led. -/
theorem IsValid.at?_of_at?_reduce (ha : a.IsValid) (hk : (a.reduce root).at? h slot = some k) :
    a.at? h slot = some k := by
  have hentry := mem_slots_of_at? hk
  rw [reduce_eq_pruned, node_pruned] at hentry
  apply ha.at?_eq_some_iff.mpr
  split at hentry
  · exact (List.mem_filter.mp hentry).1
  · exact hentry

/-- Neither a reduction nor giving defaults changes anything of a value but its slots. -/
theorem IsGiven.eq_of_reduce {places : List (Handle × Slot)}
    (hgiven : IsGiven (a.reduce root) places r) (h : Handle) (hh : h.index < a.size) :
    (r.node h).shape = (a.node h).shape ∧ (r.node h).type = (a.node h).type ∧
      r.term h = a.term h := by
  rw [reduce_eq_pruned] at hgiven
  obtain ⟨hshape, htype, hterm⟩ := eq_node_pruned a (a.retained root) h
  obtain ⟨hterm', htype', hshape'⟩ := hgiven.kind_eq h (by rwa [size_pruned])
  exact ⟨hshape'.trans hshape, htype'.trans htype, hterm'.trans hterm⟩

/-- Once the slots that a reduction left out have been given their defaults, each of them holds the
default of its type. -/
theorem IsValid.given_of_missing {type : ValueType} (ha : a.IsValid) (hk : a.at? h slot = some k)
    (hnone : (a.reduce root).at? h slot = none) (htype : (a.node h).slotType? slot = some type)
    (hgiven : IsGiven (a.reduce root) (a.missing (a.reduce root)) r) :
    (r.at? h slot).map r.content = some (.inl (Literal.defaultOf type)) := by
  have hentry := ha.at?_eq_some_iff.mp hk
  have hplace : (h, slot) ∈ a.missing (a.reduce root) := ha.mem_missing.mpr ⟨⟨k, hk⟩, hnone⟩
  obtain ⟨hshape, htyped, -⟩ := eq_node_pruned a (a.retained root) h
  rw [← reduce_eq_pruned] at hshape htyped
  have hinside : h.index < (a.reduce root).size := by
    rw [reduce_eq_pruned, size_pruned]
    exact lt_size_of_mem_slots hentry
  have haccepts : ((a.reduce root).node h).accepts slot = true := by
    rw [Node.accepts_congr hshape]
    exact (ha h).accepted _ hentry
  rw [← Node.slotType?_congr hshape htyped] at htype
  obtain ⟨j, -, hat, hliteral⟩ := hgiven.given h slot type hplace hinside haccepts htype
  rw [hat, Option.map_some, content, hliteral]

/-- In a valid arena whose primitive slots hold literals of their types, every slot that a reduction
leaves out held a constant, and that was the default of the slot's type unless it was a foreign
zero. So giving these slots their defaults makes all slots hold again what they held exactly if no
foreign zero was left out. -/
theorem reduce_restores_iff (ha : a.IsValid) (htyped : a.IsTyped) (root : Handle) :
    (∀ h slot k, a.at? h slot = some k → (a.reduce root).at? h slot = none →
      ∃ value type, (a.node k).literal? = some value ∧ (a.node h).slotType? slot = some type ∧
        (value = Literal.defaultOf type ↔ ¬value.IsForeignZero type)) ∧
    ((∀ h : Handle, h.index < a.size →
        a.HoldsSame ((a.missing (a.reduce root)).foldl giveDefault (a.reduce root)) h) ↔
      ∀ h slot k value type, a.at? h slot = some k → (a.reduce root).at? h slot = none →
        (a.node k).literal? = some value → (a.node h).slotType? slot = some type →
        ¬value.IsForeignZero type) := by
  have hmissing : ∀ h slot k, a.at? h slot = some k → (a.reduce root).at? h slot = none →
      ∃ value type, (a.node k).literal? = some value ∧ (a.node h).slotType? slot = some type ∧
        (value = Literal.defaultOf type ↔ ¬value.IsForeignZero type) := by
    intro h slot k hk hnone
    obtain ⟨value, type, hvalue, htype, hdefault⟩ := ha.default_of_missing hk hnone
    refine ⟨value, type, hvalue, htype, Literal.eq_defaultOf_iff hdefault fun hnumeric => ?_⟩
    exact htyped h slot k type value hk htype hnumeric hvalue
  refine ⟨hmissing, ?_⟩
  have hgiven := isGiven_foldl (a.reduce root) (a.missing (a.reduce root))
  generalize (a.missing (a.reduce root)).foldl giveDefault (a.reduce root) = r at hgiven ⊢
  have hkept := hgiven.eq_of_reduce
  constructor
  · intro hsame h slot k value type hk hnone hvalue htype
    obtain ⟨value', type', hvalue', htype', hiff⟩ := hmissing h slot k hk hnone
    obtain rfl := Option.some.inj (hvalue.symm.trans hvalue')
    obtain rfl := Option.some.inj (htype.symm.trans htype')
    have hslot := (hsame h (lt_size_of_mem_slots (ha.at?_eq_some_iff.mp hk))).slots_eq slot
    rw [ha.given_of_missing hk hnone htype hgiven, hk, Option.map_some, content, hvalue] at hslot
    exact hiff.mp (Sum.inl.inj (Option.some.inj hslot)).symm
  · intro hnoForeign h hh
    have hsize : (a.reduce root).size = a.size := size_pruned a _
    obtain ⟨hshape, htype, hterm⟩ := hkept h hh
    refine ⟨hterm, htype, hshape, fun slot => ?_⟩
    have hother (hplace : (h, slot) ∉ a.missing (a.reduce root)) :
        r.at? h slot = (a.reduce root).at? h slot := hgiven.other h slot hplace (hsize ▸ hh)
    cases hk : a.at? h slot with
    | none =>
      have hnone : (a.reduce root).at? h slot = none := by
        by_contra hsome
        obtain ⟨k, hsome⟩ := Option.ne_none_iff_exists'.mp hsome
        rw [ha.at?_of_at?_reduce hsome] at hk
        cases hk
      rw [hother (by simp [ha.mem_missing, hk]), hnone]
      rfl
    | some k =>
      cases hleft : (a.reduce root).at? h slot with
      | none =>
        obtain ⟨value, type, hvalue, htype, hiff⟩ := hmissing h slot k hk hleft
        have hdefault := hiff.mpr (hnoForeign h slot k value type hk hleft hvalue htype)
        rw [ha.given_of_missing hk hleft htype hgiven, Option.map_some, content, hvalue, hdefault]
      | some k' =>
        obtain rfl := Option.some.inj (hk.symm.trans (ha.at?_of_at?_reduce hleft))
        have hk' : k.index < a.size := (ha h).inside _ (ha.at?_eq_some_iff.mp hk)
        rw [hother (by simp [ha.mem_missing, hleft]), hleft, Option.map_some, Option.map_some,
          content_eq_of_shape (hkept k hk').1]

/-! Two objects hold a number and nothing else. The first holds a zero, which is restored, and the
second a negative zero, which is not. -/

namespace Zeros

def node (name : String) : Node := ⟨.value (.class "Reading") name, .class "Reading", .object, []⟩

def bare : Arena :=
  ((((({} : Arena).push (node "first")).2.push (node "second")).2.push
    (.constant (.double (.zero false)))).2.push (.constant (.double (.zero true)))).2

def arena : Arena :=
  (bare.setField ⟨0⟩ "value" .double ⟨2⟩).setField ⟨1⟩ "value" .double ⟨3⟩

theorem isValid_arena : arena.IsValid := by
  have hfirst := isValid_push (n := node "first") isValid_empty rfl
  have hsecond := isValid_push (n := node "second") hfirst rfl
  have hbare : bare.IsValid := isValid_push (isValid_push hsecond rfl) rfl
  exact isValid_setField (isValid_setField hbare _ _ (by decide)) _ _ (by decide)

theorem isTyped_arena : arena.IsTyped := by
  have hnodes : ∀ index < 4, ∀ entry ∈ (arena.node ⟨index⟩).slots,
      ∀ value ∈ (arena.node entry.2).literal?,
        (arena.node ⟨index⟩).slotType? entry.1 = some value.type := by decide
  intro h slot k type value hk htype _ hvalue
  have hentry := isValid_arena.at?_eq_some_iff.mp hk
  have hslot := hnodes h.index (lt_size_of_mem_slots hentry) _ hentry value hvalue
  exact (Option.some.inj (htype.symm.trans hslot)).symm

/-- A reduction of the first object leaves out its zero, and giving defaults restores it. -/
theorem zero_restored : arena.IsValid ∧ arena.IsTyped ∧
    (arena.reduce ⟨0⟩).at? ⟨0⟩ (.field "value" .double) = none ∧
    ∀ h : Handle, h.index < arena.size →
      arena.HoldsSame ((arena.missing (arena.reduce ⟨0⟩)).foldl giveDefault (arena.reduce ⟨0⟩))
        h := by
  obtain ⟨-, hrestores⟩ := reduce_restores_iff isValid_arena isTyped_arena ⟨0⟩
  refine ⟨isValid_arena, isTyped_arena, by decide +kernel, hrestores.mpr ?_⟩
  have hnodes : ∀ index < 4, ∀ entry ∈ (arena.node ⟨index⟩).slots,
      (arena.reduce ⟨0⟩).at? ⟨index⟩ entry.1 = none →
        (arena.node entry.2).literal? = some (.double (.zero false)) ∧
        (arena.node ⟨index⟩).slotType? entry.1 = some .double := by decide +kernel
  intro h slot k value type hk hnone hvalue htype
  have hentry := isValid_arena.at?_eq_some_iff.mp hk
  obtain ⟨hzero, hdouble⟩ := hnodes h.index (lt_size_of_mem_slots hentry) _ hentry hnone
  obtain rfl := Option.some.inj (hzero.symm.trans hvalue)
  obtain rfl := Option.some.inj (hdouble.symm.trans htype)
  exact (Literal.eq_defaultOf_iff (by decide) fun _ => rfl).mp rfl

/-- A reduction of the second object leaves out its negative zero. That is not the default, and
giving defaults puts another number in its place. -/
theorem negative_zero_lost : arena.IsValid ∧ arena.IsTyped ∧
    arena.at? ⟨1⟩ (.field "value" .double) = some ⟨3⟩ ∧
    (arena.reduce ⟨1⟩).at? ⟨1⟩ (.field "value" .double) = none ∧
    (arena.node ⟨3⟩).literal? = some (.double (.zero true)) ∧
    Literal.double (.zero true) ≠ Literal.defaultOf .double ∧
    ¬arena.HoldsSame
      ((arena.missing (arena.reduce ⟨1⟩)).foldl giveDefault (arena.reduce ⟨1⟩)) ⟨1⟩ := by
  refine ⟨isValid_arena, isTyped_arena, by decide +kernel, by decide +kernel, by decide,
    by decide, fun hsame => ?_⟩
  have hslot := hsame.slots_eq (.field "value" .double)
  revert hslot
  decide +kernel

end Zeros

end Arena
end Concolic
