import Concolic.Proofs.Reanimation.Runs

/-!
# The heap of a model comes to life

While values are built, every address that was discovered has one node, of the type that the model
has for it or else of the type through which it was discovered. A node is registered before its
slots are filled, so slots may stay empty for a while; but what is discovered while some slot is
filled is done when the slot is. A node that is done has, in each slot that it has a place for, the
value of the last entry for the slot, and nothing else.

## Main statement

* `Reanimation.heapValue_builds` — what building the value at an address comes to.
-/

namespace Concolic.Reanimation

variable {m : HeapModel} {r r' r'' : Reanimation} {address : Nat} {declared type : ValueType}
  {value : ModelValue} {h owner child : Handle} {slot : Slot} {n : Node}
  {found after : List (Nat × ValueType)} {entry : Slot × ValueType × ModelValue}
  {before entries : List (Slot × ValueType × ModelValue)} {a b : Arena}
  {placed placed' : Nat → Handle → Prop}

/-! ## Values and nodes -/

/-- The handle is that of the address. -/
def Knows (r : Reanimation) (address : Nat) (h : Handle) : Prop := (address, h) ∈ r.known

/-- The handle stands for the value in a place of a type, where addresses are placed in the arena:
a reference is the node of its address, all else is a constant. -/
inductive Stands (a : Arena) (placed : Nat → Handle → Prop) :
    ModelValue → ValueType → Handle → Prop
  | reference {address : Nat} {type : ValueType} {h : Handle} :
      placed address h → Stands a placed (.reference address) type h
  | literal {value : ModelValue} {type : ValueType} {literal : Literal} {h : Handle} :
      (∀ address, value ≠ .reference address) → literal? value type = some literal →
      h.index < a.size → a.node h = .constant literal → Stands a placed value type h

/-- The node is what lies at an address that was discovered through the declared type. -/
structure IsAt (m : HeapModel) (address : Nat) (declared : ValueType) (n : Node) : Prop where
  type_eq : n.type = m.typeAt address declared
  shape_eq : m.shapeAt? address n.type = some n.shape

theorem Stands.mono (hplaced : ∀ address h, placed address h → placed' address h)
    (hsize : a.size ≤ b.size)
    (hconstants : ∀ h : Handle, h.index < a.size → (a.node h).isConstant = true →
      b.node h = a.node h)
    (hstands : Stands a placed value type h) : Stands b placed' value type h := by
  cases hstands with
  | reference hplace => exact .reference (hplaced _ _ hplace)
  | literal hvalue hliteral hlt hnode =>
    refine .literal hvalue hliteral (hlt.trans_le hsize) ?_
    rw [hconstants h hlt (by rw [hnode]; rfl), hnode]

/-- What the last of the entries for a slot has there. -/
def lastValue? (entries : List (Slot × ValueType × ModelValue)) (slot : Slot) :
    Option (ValueType × ModelValue) := entries.reverse.lookup slot

theorem lastValue?_concat (entries : List (Slot × ValueType × ModelValue))
    (entry : Slot × ValueType × ModelValue) (slot : Slot) :
    lastValue? (entries ++ [entry]) slot =
      if slot = entry.1 then some entry.2 else lastValue? entries slot := by
  rw [lastValue?, List.reverse_append, List.reverse_singleton, List.singleton_append,
    List.lookup_cons]
  by_cases hslot : slot = entry.1
  · simp [hslot]
  · simp [hslot, lastValue?, beq_false_of_ne hslot]

/-- The node has what the entries put into its slots, and nothing else. -/
structure IsFilled (a : Arena) (placed : Nat → Handle → Prop)
    (entries : List (Slot × ValueType × ModelValue)) (n : Node) : Prop where
  filled : ∀ {slot : Slot} {type : ValueType} {value : ModelValue}, n.accepts slot = true →
    lastValue? entries slot = some (type, value) → ∃ child, n.at? slot = some child ∧
      Stands a placed value type child
  empty : ∀ {slot : Slot}, n.accepts slot = false ∨ lastValue? entries slot = none →
    n.at? slot = none

theorem IsFilled.of_empty (hslots : n.slots = []) : IsFilled a placed [] n := by
  constructor
  · intro slot type value _ hentry
    cases hentry
  · intro slot _
    rw [Node.at?, hslots]
    rfl

theorem IsFilled.mono (hn : IsFilled a placed entries n)
    (hstands : ∀ {value : ModelValue} {type : ValueType} {h : Handle},
      Stands a placed value type h → Stands b placed' value type h) :
    IsFilled b placed' entries n := by
  refine ⟨fun hplace hentry => ?_, hn.empty⟩
  obtain ⟨child, hchild, hvalue⟩ := hn.filled hplace hentry
  exact ⟨child, hchild, hstands hvalue⟩

/-- One more entry puts its value into its slot, if the node has a place for it. -/
theorem IsFilled.concat (hn : IsFilled a placed before n)
    (hchild : Stands a placed entry.2.2 entry.2.1 child) :
    IsFilled a placed (before ++ [entry])
      (if n.accepts entry.1 then n.insert entry.1 child else n) := by
  cases hplace : n.accepts entry.1 with
  | false =>
    rw [if_neg Bool.false_ne_true]
    constructor
    · intro slot type value haccepts hentry
      rw [lastValue?_concat, if_neg (by rintro rfl; simp [hplace] at haccepts)] at hentry
      exact hn.filled haccepts hentry
    · intro slot hnone
      rw [lastValue?_concat] at hnone
      by_cases hslot : slot = entry.1
      · exact hn.empty (.inl (hslot ▸ hplace))
      · rw [if_neg hslot] at hnone
        exact hn.empty hnone
  | true =>
    rw [if_pos rfl]
    have hat (slot : Slot) : (n.insert entry.1 child).at? slot =
        if slot = entry.1 then some child else n.at? slot :=
      Node.lookup_insertSlot entry.1 child n.slots slot
    have haccepts (slot : Slot) : (n.insert entry.1 child).accepts slot = n.accepts slot :=
      Node.accepts_congr rfl slot
    constructor
    · intro slot type value hslot hentry
      rw [lastValue?_concat] at hentry
      by_cases hself : slot = entry.1
      · rw [if_pos hself, Option.some_inj] at hentry
        rw [hentry] at hchild
        exact ⟨child, by rw [hat, if_pos hself], hchild⟩
      · rw [if_neg hself] at hentry
        rw [haccepts] at hslot
        rw [hat, if_neg hself]
        exact hn.filled hslot hentry
    · intro slot hnone
      rw [lastValue?_concat, haccepts] at hnone
      by_cases hself : slot = entry.1
      · subst hself
        simp [hplace] at hnone
      · rw [if_neg hself] at hnone
        rw [hat, if_neg hself]
        exact hn.empty hnone

/-! ## The invariant -/

/-- Every address that was discovered has one node of its own, which is what lies there; its slots
are not looked at. -/
structure Holds (m : HeapModel) (found : List (Nat × ValueType)) (r : Reanimation) : Prop where
  valid : r.arena.IsValid
  keys : r.known.map (·.1) = found.map (·.1)
  nodup : (found.map (·.1)).Nodup
  injective : (r.known.map (·.2)).Nodup
  inside : ∀ entry ∈ r.known, entry.2.index < r.arena.size
  isAt : ∀ {address : Nat} {declared : ValueType} {h : Handle}, (address, declared) ∈ found →
    (address, h) ∈ r.known → IsAt m address declared (r.arena.node h)

/-- Between two states of a build, more was discovered, and that is done; besides, nothing changed
but the slots of the nodes that are still `open`. -/
structure Grows (m : HeapModel) (isOpen : Handle → Prop) (r r' : Reanimation) : Prop where
  size_le : r.arena.size ≤ r'.arena.size
  suffix : r.known <:+ r'.known
  kept : ∀ h : Handle, h.index < r.arena.size → ¬isOpen h → r'.arena.node h = r.arena.node h
  constants : ∀ h : Handle, h.index < r.arena.size → (r.arena.node h).isConstant = true →
    r'.arena.node h = r.arena.node h
  fresh : ∀ entry ∈ r'.known, entry ∉ r.known → r.arena.size ≤ entry.2.index
  done : ∀ entry ∈ r'.known, entry ∉ r.known →
    IsFilled r'.arena r'.Knows (m.entriesAt entry.1) (r'.arena.node entry.2)

section grows
variable {isOpen isOpen' : Handle → Prop}

theorem Grows.stands (hgrows : Grows m isOpen r r')
    (hstands : Stands r.arena r.Knows value type h) : Stands r'.arena r'.Knows value type h :=
  hstands.mono (fun _ _ hknown => hgrows.suffix.subset hknown) hgrows.size_le hgrows.constants

theorem Grows.isFilled (hgrows : Grows m isOpen r r') (hn : IsFilled r.arena r.Knows entries n) :
    IsFilled r'.arena r'.Knows entries n :=
  hn.mono hgrows.stands

theorem Grows.refl : Grows m isOpen r r :=
  ⟨Nat.le_refl _, List.suffix_rfl, fun _ _ _ => rfl, fun _ _ _ => rfl,
    fun _ hentry hnew => absurd hentry hnew, fun _ hentry hnew => absurd hentry hnew⟩

theorem Grows.trans (h₁ : Grows m isOpen r r') (h₂ : Grows m isOpen r' r'')
    (hclosed : ∀ entry ∈ r'.known, entry ∉ r.known → ¬isOpen entry.2)
    (hinside : ∀ entry ∈ r'.known, entry.2.index < r'.arena.size) : Grows m isOpen r r'' := by
  refine ⟨h₁.size_le.trans h₂.size_le, h₁.suffix.trans h₂.suffix, fun h hh hisOpen => ?_,
    fun h hh hconstant => ?_, fun entry hentry hnew => ?_, fun entry hentry hnew => ?_⟩
  · rw [h₂.kept h (hh.trans_le h₁.size_le) hisOpen, h₁.kept h hh hisOpen]
  · have hnode := h₁.constants h hh hconstant
    rw [h₂.constants h (hh.trans_le h₁.size_le) (by rwa [hnode]), hnode]
  · by_cases hmem : entry ∈ r'.known
    · exact h₁.fresh entry hmem hnew
    · exact h₁.size_le.trans (h₂.fresh entry hentry hmem)
  · by_cases hmem : entry ∈ r'.known
    · rw [h₂.kept entry.2 (hinside entry hmem) (hclosed entry hmem hnew)]
      exact h₂.isFilled (h₁.done entry hmem hnew)
    · exact h₂.done entry hentry hmem

theorem Grows.mono (hgrows : Grows m isOpen r r') (hopen : ∀ h, isOpen h → isOpen' h) :
    Grows m isOpen' r r' :=
  ⟨hgrows.size_le, hgrows.suffix, fun h hh hclosed => hgrows.kept h hh (hclosed ∘ hopen h),
    hgrows.constants, hgrows.fresh, hgrows.done⟩

/-- What was discovered on the way is no node that was there before. -/
theorem Grows.ne_of_fresh {known : Nat × Handle} (hgrows : Grows m isOpen r r')
    (howner : owner.index < r.arena.size) (hknown : known ∈ r'.known) (hnew : known ∉ r.known) :
    known.2 ≠ owner := by
  rintro rfl
  have := hgrows.fresh known hknown hnew
  omega

/-- A change of the arena alone. -/
theorem Grows.of_arena {a : Arena} (hsize : r.arena.size ≤ a.size)
    (hkept : ∀ h : Handle, h.index < r.arena.size → ¬isOpen h → a.node h = r.arena.node h)
    (hconstants : ∀ h, isOpen h → (r.arena.node h).isConstant = false) :
    Grows m isOpen r { r with arena := a } := by
  refine ⟨hsize, List.suffix_rfl, hkept, fun h hh hconstant => hkept h hh fun hisOpen => ?_,
    fun _ hentry hnew => absurd hentry hnew, fun _ hentry hnew => absurd hentry hnew⟩
  simp [hconstants h hisOpen] at hconstant

theorem Grows.push (n : Node) :
    Grows m (fun _ => False) r { r with arena := (r.arena.push n).2 } :=
  .of_arena (by rw [Arena.size_push]; exact Nat.le_succ _)
    (fun _ hh _ => Arena.node_push_of_lt n hh) fun _ => False.elim

theorem Grows.fillSlot (slot : Slot) (child : Handle)
    (howner : (r.arena.node owner).isConstant = false) :
    Grows m (· = owner) r { r with arena := r.arena.fillSlot owner slot child } :=
  .of_arena (Arena.size_fillSlot ..).ge (fun _ _ hne => Arena.node_fillSlot_of_ne slot child hne)
    fun _ hself => hself ▸ howner

end grows

/-! ## Steps -/

theorem Holds.mono {a : Arena} (hr : Holds m found r) (hvalid : a.IsValid)
    (hsize : r.arena.size ≤ a.size)
    (hnodes : ∀ h : Handle, h.index < r.arena.size →
      (a.node h).type = (r.arena.node h).type ∧ (a.node h).shape = (r.arena.node h).shape) :
    Holds m found { r with arena := a } := by
  refine ⟨hvalid, hr.keys, hr.nodup, hr.injective,
    fun entry hentry => (hr.inside entry hentry).trans_le hsize, fun hplace hentry => ?_⟩
  obtain ⟨htype, hshape⟩ := hnodes _ (hr.inside _ hentry)
  have hat := hr.isAt hplace hentry
  constructor
  · rw [htype, hat.type_eq]
  · rw [htype, hshape, hat.shape_eq]

theorem Holds.push (hr : Holds m found r) (hn : n.slots = []) :
    Holds m found { r with arena := (r.arena.push n).2 } := by
  refine hr.mono (Arena.isValid_push hr.valid hn) (by rw [Arena.size_push]; exact Nat.le_succ _) ?_
  intro h hh
  rw [Arena.node_push_of_lt n hh]
  exact ⟨rfl, rfl⟩

theorem Holds.fillSlot (hr : Holds m found r) (owner : Handle) (slot : Slot)
    (hchild : child.index < r.arena.size) :
    Holds m found { r with arena := r.arena.fillSlot owner slot child } :=
  hr.mono (Arena.isValid_fillSlot hr.valid slot hchild) (Arena.size_fillSlot ..).ge
    fun h _ => Arena.shape_node_fillSlot r.arena owner slot child h

/-- A new address gets a node that nothing else had. -/
theorem Holds.enter (hr : Holds m found r) (hnew : r.known.lookup address = none)
    (hn : n.slots = []) (hat : IsAt m address declared n) :
    Holds m ((address, declared) :: found) (r.enter address n) := by
  have haddress : address ∉ found.map (·.1) := hr.keys ▸ not_mem_of_lookup hnew
  have hpush := hr.push hn
  refine ⟨hpush.valid, ?_, List.nodup_cons.mpr ⟨haddress, hr.nodup⟩,
    List.nodup_cons.mpr ⟨?_, hr.injective⟩, ?_, ?_⟩
  · rw [Reanimation.enter, List.map_cons, List.map_cons, hr.keys]
  · intro hmem
    obtain ⟨entry, hentry, heq⟩ := List.mem_map.mp hmem
    have hlt := hr.inside entry hentry
    rw [heq] at hlt
    exact Nat.lt_irrefl _ hlt
  · refine List.forall_mem_cons.mpr ⟨?_, hpush.inside⟩
    change r.arena.size < (r.arena.push n).2.size
    rw [Arena.size_push]
    exact Nat.lt_succ_self _
  · intro other type h hplace hentry
    rcases List.mem_cons.mp hplace with heq | hplace <;>
      rcases List.mem_cons.mp hentry with heq' | hentry
    · cases heq
      cases heq'
      change IsAt m address declared ((r.arena.push n).2.node (r.arena.push n).1)
      rwa [Arena.node_push_new]
    · cases heq
      exact absurd (List.mem_map_of_mem hentry) (hr.keys ▸ haddress)
    · cases heq'
      exact absurd (List.mem_map_of_mem hplace) haddress
    · exact hpush.isAt hplace hentry

/-- A new address that has got its node is done once the node is filled. -/
theorem Grows.enter
    (hgrows : Grows m (· = ⟨r.arena.size⟩) (r.enter address n) r')
    (hfilled : IsFilled r'.arena r'.Knows (m.entriesAt address) (r'.arena.node ⟨r.arena.size⟩)) :
    Grows m (fun _ => False) r r' := by
  have hpush : Grows m (fun _ => False) r { r with arena := (r.arena.push n).2 } := .push n
  have hlt {h : Handle} (hh : h.index < r.arena.size) :
      h.index < (r.enter address n).arena.size := hh.trans_le hpush.size_le
  refine ⟨hpush.size_le.trans hgrows.size_le, (List.suffix_cons _ _).trans hgrows.suffix,
    fun h hh _ => ?_, fun h hh hconstant => ?_, fun entry hentry hold => ?_,
    fun entry hentry hold => ?_⟩
  · have hne : h ≠ ⟨r.arena.size⟩ := by
      rintro rfl
      exact Nat.lt_irrefl _ hh
    exact (hgrows.kept h (hlt hh) hne).trans (hpush.kept h hh not_false)
  · have hnode := hpush.constants h hh hconstant
    exact (hgrows.constants h (hlt hh) (hnode ▸ hconstant)).trans hnode
  · by_cases hmem : entry ∈ (r.enter address n).known
    · rcases List.mem_cons.mp hmem with rfl | hmem
      · exact Nat.le_refl _
      · exact absurd hmem hold
    · exact hpush.size_le.trans (hgrows.fresh entry hentry hmem)
  · by_cases hmem : entry ∈ (r.enter address n).known
    · rcases List.mem_cons.mp hmem with rfl | hmem
      · exact hfilled
      · exact absurd hmem hold
    · exact hgrows.done entry hentry hmem

/-- Following the references, a build comes to have discovered more, and does what it discovers;
besides, it changes only the slots of nodes that are open. -/
structure Extends (m : HeapModel) (isOpen : Handle → Prop) (references : List (ValueType × Nat))
    (found : List (Nat × ValueType)) (r : Reanimation) (after : List (Nat × ValueType))
    (r' : Reanimation) : Prop where
  walk : Discovers m.references references found after
  holds : Holds m after r'
  grows : Grows m isOpen r r'

section progress
variable {isOpen isOpen' : Handle → Prop} {references more : List (ValueType × Nat)}
  {between : List (Nat × ValueType)}

theorem Extends.refl (hr : Holds m found r) : Extends m isOpen [] found r found r :=
  ⟨.nil, hr, .refl⟩

theorem Extends.mono (h : Extends m isOpen references found r after r')
    (hopen : ∀ h, isOpen h → isOpen' h) : Extends m isOpen' references found r after r' :=
  ⟨h.walk, h.holds, h.grows.mono hopen⟩

theorem Extends.trans (h₁ : Extends m isOpen references found r between r')
    (h₂ : Extends m isOpen more between r' after r'')
    (hclosed : ∀ entry ∈ r'.known, entry ∉ r.known → ¬isOpen entry.2) :
    Extends m isOpen (references ++ more) found r after r'' :=
  ⟨h₁.walk.append h₂.walk, h₂.holds, h₁.grows.trans h₂.grows hclosed h₁.holds.inside⟩

theorem Extends.push (hr : Holds m found r) (hn : n.slots = []) :
    Extends m (fun _ => False) [] found r found { r with arena := (r.arena.push n).2 } :=
  ⟨.nil, hr.push hn, .push n⟩

theorem Extends.fillSlot (hr : Holds m found r) (slot : Slot) (hchild : child.index < r.arena.size)
    (howner : (r.arena.node owner).isConstant = false) :
    Extends m (· = owner) [] found r found
      { r with arena := r.arena.fillSlot owner slot child } :=
  ⟨.nil, hr.fillSlot owner slot hchild, .fillSlot slot child howner⟩

end progress

/-! ## Building -/

/-- Where there is fuel for the addresses that have no node yet, building what lies at an address
gives its node, and discovers what references lead to from there. -/
def Builds (m : HeapModel) (fuel : Nat) (heap : Nat → ValueType → Build Handle) : Prop :=
  ∀ {address : Nat} {declared : ValueType} {r r' : Reanimation} {h : Handle}
    {found : List (Nat × ValueType)}, Runs (heap address declared) r h r' → Holds m found r →
    (unvisited m r).card ≤ fuel →
    ∃ after, Extends m (fun _ => False) [(declared, address)] found r after r' ∧
      (address, h) ∈ r'.known

section builds
variable {fuel : Nat} {heap : Nat → ValueType → Build Handle}

theorem Holds.lt_size (hr : Holds m found r) (hstands : Stands r.arena r.Knows value type h) :
    h.index < r.arena.size := by
  cases hstands with
  | reference hmem => exact hr.inside _ hmem
  | literal _ _ hsize _ => exact hsize

theorem Builds.slotValue (hheap : Builds m fuel heap)
    (hrun : Runs (Reanimation.slotValue heap value type) r h r') (hr : Holds m found r)
    (hfuel : (unvisited m r).card ≤ fuel) :
    ∃ after, Extends m (fun _ => False) (HeapModel.reference? (type, value)).toList found r
        after r' ∧
      Stands r'.arena r'.Knows value type h := by
  rcases hrun.slotValue with ⟨address, rfl, hrun⟩ | ⟨literal, hvalue, hliteral, rfl, rfl⟩
  · obtain ⟨after, hextends, hmem⟩ := hheap hrun hr hfuel
    exact ⟨after, hextends, .reference hmem⟩
  · have hreference : HeapModel.reference? (type, value) = none := by
      cases value with
      | reference address => exact absurd rfl (hvalue address)
      | _ => rfl
    rw [hreference]
    refine ⟨found, .push hr rfl, .literal hvalue hliteral ?_ (Arena.node_push_new r.arena _)⟩
    change r.arena.size < (r.arena.push _).2.size
    rw [Arena.size_push]
    omega

/-- Filling the slots of a node that has already been filled from some entries. -/
theorem Builds.fillEntries {u : Unit} (hheap : Builds m fuel heap)
    (hrun : Runs (Reanimation.fillEntries heap owner entries) r u r') (hr : Holds m found r)
    (hfuel : (unvisited m r).card ≤ fuel) (howner : owner.index < r.arena.size)
    (hconstant : (r.arena.node owner).isConstant = false)
    (hfilled : IsFilled r.arena r.Knows before (r.arena.node owner)) :
    ∃ after, Extends m (· = owner)
        (entries.filterMap fun entry => HeapModel.reference? entry.2) found r after r' ∧
      IsFilled r'.arena r'.Knows (before ++ entries) (r'.arena.node owner) := by
  induction entries generalizing r found before with
  | nil =>
    obtain rfl := runs_fillEntries_nil hrun
    exact ⟨found, .refl hr, by rwa [List.append_nil]⟩
  | cons entry entries ih =>
    obtain ⟨child, r₁, hchild, hrest⟩ := hrun.fillEntries_cons
    obtain ⟨between, hbuilt, hstands⟩ := hheap.slotValue hchild hr hfuel
    have howner₁ : owner.index < r₁.arena.size := howner.trans_le hbuilt.grows.size_le
    have hnode₁ : r₁.arena.node owner = r.arena.node owner :=
      hbuilt.grows.kept _ howner not_false
    have hconstant₁ : (r₁.arena.node owner).isConstant = false := hnode₁ ▸ hconstant
    have hfilled₁ := (hnode₁ ▸ hbuilt.grows.isFilled hfilled).concat hstands
    -- the slot of the entry is filled, and the other entries go on from there
    have hput : Extends m (· = owner) [] between r₁ between _ :=
      .fillSlot hbuilt.holds entry.1 (hbuilt.holds.lt_size hstands) hconstant₁
    have hfilled₂ := hput.grows.isFilled hfilled₁
    rw [← Arena.node_fillSlot_self entry.1 child howner₁] at hfilled₂
    have hshape₂ := (Arena.shape_node_fillSlot r₁.arena owner entry.1 child owner).2
    have hconstant₂ := (Node.isConstant_congr hshape₂).trans hconstant₁
    have hfuel₂ := (Finset.card_le_card (unvisited_subset m hbuilt.grows.suffix)).trans hfuel
    obtain ⟨after, hdone, hfilled₃⟩ := ih hrest hput.holds hfuel₂
      (howner₁.trans_le hput.grows.size_le) hconstant₂ hfilled₂
    have hrest := hput.trans hdone fun _ hknown => hput.grows.ne_of_fresh howner₁ hknown
    have hall := (hbuilt.mono fun _ => False.elim).trans hrest
      fun _ hknown => hbuilt.grows.ne_of_fresh howner hknown
    rw [List.filterMap_eq_flatMap_toList, List.flatMap_cons, ← List.filterMap_eq_flatMap_toList]
    exact ⟨after, hall, by simpa using hfilled₃⟩

theorem Builds.fillAt {u : Unit} (hheap : ∀ k < fuel, Builds m k (heapValue m.toModel k))
    (hrun : Runs (Reanimation.fillAt m fuel owner address) r u r') (hr : Holds m found r)
    (hfuel : m.entriesAt address ≠ [] → (unvisited m r).card < fuel)
    (howner : owner.index < r.arena.size) (hconstant : (r.arena.node owner).isConstant = false)
    (hslots : (r.arena.node owner).slots = []) :
    ∃ after, Extends m (· = owner) (m.references address) found r after r' ∧
      IsFilled r'.arena r'.Knows (m.entriesAt address) (r'.arena.node owner) := by
  by_cases hentries : m.entriesAt address = []
  · have hsame : r' = r := by
      cases fuel with
      | zero => exact (runs_pure hrun).2
      | succ fuel =>
        rw [Reanimation.fillAt, hentries] at hrun
        exact runs_fillEntries_nil hrun
    rw [HeapModel.references, hentries, hsame]
    exact ⟨found, .refl hr, .of_empty hslots⟩
  · have hless := hfuel hentries
    cases fuel with
    | zero => omega
    | succ fuel =>
      have hbuilds : Builds m fuel (heapValue m.toModel fuel) := hheap fuel (by omega)
      exact Builds.fillEntries hbuilds hrun hr (by omega) howner hconstant (.of_empty hslots)

end builds

theorem IsAt.isConstant_eq (hat : IsAt m address declared n) : n.isConstant = false := by
  have hshape := hat.shape_eq
  cases htype : n.type <;>
    simp only [htype, HeapModel.shapeAt?, Option.some_inj, reduceCtorEq] at hshape
  all_goals simp [Node.isConstant, Node.literal?, ← hshape]

/-- Whatever is shared or cyclic, building what lies at an address gives its node, and leaves every
address that references lead to from there with a node that is done. -/
theorem heapValue_builds (m : HeapModel) (fuel : Nat) :
    Builds m fuel (heapValue m.toModel fuel) := by
  induction fuel using Nat.strong_induction_on with
  | _ fuel ih =>
    intro address declared r r' h found hrun hr hfuel
    rcases hrun.heapValue with ⟨hknown, rfl⟩ | ⟨hnew, rfl, shape, term, hshape, hfill⟩
    · obtain ⟨front, back, hsplit, -⟩ := List.lookup_eq_some_iff.mp hknown
      have hmem : (address, h) ∈ r'.known := by simp [hsplit]
      have hfound : address ∈ found.map (·.1) := by
        rw [← hr.keys]
        exact List.mem_map_of_mem hmem
      exact ⟨found, ⟨.known hfound .nil, hr, .refl⟩, hmem⟩
    · generalize hn : (⟨term, m.typeAt address declared, shape, []⟩ : Node) = n at hfill
      have hat : IsAt m address declared n := hn ▸ ⟨rfl, hshape⟩
      have hslots : n.slots = [] := hn ▸ rfl
      have hr₁ := hr.enter hnew hslots hat
      have hself := hr₁.inside _ (List.mem_cons_self ..)
      have hnode : (r.enter address n).arena.node ⟨r.arena.size⟩ = n :=
        Arena.node_push_new r.arena n
      have hfuel₁ (hentries : m.entriesAt address ≠ []) :=
        (card_unvisited_enter hnew hentries n).trans_le hfuel
      obtain ⟨after, hfills, hfilled⟩ := Builds.fillAt ih hfill hr₁ hfuel₁ hself
        (by rw [hnode, hat.isConstant_eq]) (by rw [hnode, hslots])
      have haddress : address ∉ found.map (·.1) := hr.keys ▸ not_mem_of_lookup hnew
      exact ⟨after, ⟨.new haddress hfills.walk .nil, hfills.holds, .enter hfills.grows hfilled⟩,
        hfills.grows.suffix.subset (List.mem_cons_self ..)⟩

end Concolic.Reanimation
