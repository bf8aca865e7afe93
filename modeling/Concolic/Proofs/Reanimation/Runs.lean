import Concolic.Proofs.Arena.Validity
import Concolic.Proofs.Reanimation.Discovery
import Concolic.Reanimation
import Mathlib.Data.Finset.Card

/-!
# Runs of a reanimation

A build that succeeds gives a value and leaves behind what it built; a run of a sequence of builds
is a sequence of runs. What lies at an address is built from one list of entries, whether they are
the fields of an object or the elements of an array.

## Main statements

* `Reanimation.heapValue_eq` — what building the value at an address does.
* `Reanimation.heapValue_add_fuel` — the building ends by itself.
-/

namespace Concolic

/-! ## The heap of a model -/

namespace HeapModel

/-- What the tables hold at an address, in order: for each entry the slot, its type and the value.
An address that is in both tables is an object's. -/
def entriesAt (m : HeapModel) (address : Nat) : List (Slot × ValueType × ModelValue) :=
  match m.object? address with
  | some object => object.fields.map fun f => (.field f.name f.type, f.type, f.value)
  | none =>
    match m.array? address with
    | some array => array.elements.map fun entry => (.element entry.1, array.element, entry.2)
    | none => []

/-- The reference that a value for a place of a type is, if it is one, with the type. -/
def reference? : ValueType × ModelValue → Option (ValueType × Nat)
  | (type, .reference address) => some (type, address)
  | _ => none

/-- The references at an address, in order, each with the type of the slot that it is in. -/
def references (m : HeapModel) (address : Nat) : List (ValueType × Nat) :=
  (m.entriesAt address).filterMap fun entry => reference? entry.2

/-- What lies at an address, if it is seen as a value of the declared type where the model does
not know better: a model has no type for an address that it has no entries for. -/
def typeAt (m : HeapModel) (address : Nat) (declared : ValueType) : ValueType :=
  (m.toModel.typeAt address).getD declared

/-- The shape of what lies at an address, if it has the given type. -/
def shapeAt? (m : HeapModel) (address : Nat) : ValueType → Option Shape
  | .class _ => some .object
  | .array _ => some (.array (max ((m.toModel.lengthAt address).getD 0) 0))
  | _ => none

variable {m : HeapModel} {address : Nat} {declared element : ValueType} {name : String}

theorem entriesAt_of_class (htype : m.typeAt address declared = .class name) :
    m.entriesAt address = (m.toModel.fieldsAt address).map fun f =>
      (.field f.name f.type, f.type, f.value) := by
  unfold typeAt at htype
  unfold entriesAt
  simp only [toModel] at htype ⊢
  cases hobject : m.object? address with
  | some object => rfl
  | none =>
    cases harray : m.array? address with
    | some array => simp [hobject, harray] at htype
    | none => rfl

theorem entriesAt_of_array (htype : m.typeAt address declared = .array element) :
    m.entriesAt address = (m.toModel.elementsAt address).map fun entry =>
      (.element entry.1, element, entry.2) := by
  unfold typeAt at htype
  unfold entriesAt
  simp only [toModel] at htype ⊢
  cases hobject : m.object? address with
  | some object => simp [hobject] at htype
  | none =>
    cases harray : m.array? address with
    | some array =>
      obtain rfl : array.element = element := by simpa [hobject, harray] using htype
      rfl
    | none => rfl

end HeapModel

namespace Reanimation

variable {α β : Type} {r r' : Reanimation} {v : α}

/-! ## Runs -/

/-- The build succeeds with a value, under some names, and turns the one state into the other. -/
def Runs (x : Build α) (r : Reanimation) (v : α) (r' : Reanimation) : Prop :=
  ∃ names names', (x.run.run r).run names = ((.ok v, r'), names')

theorem runs_pure {u : α} (h : Runs (pure u) r v r') : v = u ∧ r' = r := by
  obtain ⟨names, names', h⟩ := h
  cases h
  exact ⟨rfl, rfl⟩

theorem Runs.bind {x : Build α} {f : α → Build β} {w : β} (h : Runs (x >>= f) r w r') :
    ∃ v r₁, Runs x r v r₁ ∧ Runs (f v) r₁ w r' := by
  obtain ⟨names, names', h⟩ := h
  rw [ExceptT.run_bind, StateT.run_bind, StateT.run_bind] at h
  generalize hx : (x.run.run r).run names = result at h
  obtain ⟨⟨outcome, r₁⟩, names₁⟩ := result
  cases outcome with
  | ok v => exact ⟨v, r₁, ⟨names, names₁, hx⟩, names₁, names', h⟩
  | error => cases h

theorem not_runs_throw {failure : Failure} : ¬Runs (throw failure : Build α) r v r' := by
  rintro ⟨names, names', h⟩
  cases h

theorem runs_get {s : Reanimation} (h : Runs get r s r') : s = r ∧ r' = r := by
  obtain ⟨names, names', h⟩ := h
  cases h
  exact ⟨rfl, rfl⟩

theorem runs_modifyGet {f : Reanimation → α × Reanimation} (h : Runs (modifyGet f) r v r') :
    v = (f r).1 ∧ r' = (f r).2 := by
  obtain ⟨names, names', h⟩ := h
  cases h
  exact ⟨rfl, rfl⟩

theorem runs_addNamed {build : Arena → StateM NameSupply (Handle × Arena)} {h : Handle}
    (hrun : Runs (addNamed build) r h r') : ∃ names names' a,
      (build r.arena).run names = ((h, a), names') ∧ r' = { r with arena := a } := by
  obtain ⟨names, names', hrun⟩ := hrun
  cases hrun
  exact ⟨names, _, _, rfl, rfl⟩

/-! ## Entries -/

/-- Fill the slots of a node from a list of entries. -/
def fillEntries (heap : Nat → ValueType → Build Handle) (owner : Handle)
    (entries : List (Slot × ValueType × ModelValue)) : Build Unit :=
  entries.forM fun entry => do
    let child ← slotValue heap entry.2.2 entry.2.1
    edit fun a => a.fillSlot owner entry.1 child

theorem fillFields_eq (heap : Nat → ValueType → Build Handle) (owner : Handle)
    (fields : List FieldValue) : fillFields heap owner fields =
      fillEntries heap owner (fields.map fun f => (.field f.name f.type, f.type, f.value)) := by
  induction fields with
  | nil => rfl
  | cons f rest ih => exact bind_congr fun _ => ih

theorem fillElements_eq (heap : Nat → ValueType → Build Handle) (owner : Handle)
    (type : ValueType) (elements : List (Int32 × ModelValue)) :
    fillElements heap owner type elements =
      fillEntries heap owner (elements.map fun entry => (.element entry.1, type, entry.2)) := by
  induction elements with
  | nil => rfl
  | cons entry rest ih => exact bind_congr fun _ => ih

/-- Fill the slots of what lies at an address, if there is fuel for it. -/
def fillAt (m : HeapModel) : (fuel : Nat) → (owner : Handle) → (address : Nat) → Build Unit
  | 0, _, _ => pure ()
  | fuel + 1, owner, address =>
    fillEntries (heapValue m.toModel fuel) owner (m.entriesAt address)

/-- What lies at an address is built once, and registered before its slots are filled. -/
theorem heapValue_eq (m : HeapModel) (fuel address : Nat) (declared : ValueType) :
    heapValue m.toModel fuel address declared = (do
      match (← get).known.lookup address with
      | some h => return h
      | none =>
        match m.shapeAt? address (m.typeAt address declared) with
        | some shape =>
          let h ← addNamed fun a => a.pushNamed (m.typeAt address declared) shape
          remember address h
          fillAt m fuel h address
          return h
        | none => throw (.reanimation (.notReference address (m.typeAt address declared)))) := by
  unfold heapValue
  refine bind_congr fun r => ?_
  cases r.known.lookup address with
  | some h => cases fuel <;> rfl
  | none =>
    cases htype : m.typeAt address declared with
    | «class» name =>
      have hentries := HeapModel.entriesAt_of_class htype
      have htype' : (m.toModel.typeAt address).getD declared = .class name := htype
      cases fuel with
      | zero => simp only [htype']; rfl
      | succ fuel => simp only [htype', fillAt, hentries, fillFields_eq]; rfl
    | array element =>
      have hentries := HeapModel.entriesAt_of_array htype
      have htype' : (m.toModel.typeAt address).getD declared = .array element := htype
      cases fuel with
      | zero => simp only [htype']; rfl
      | succ fuel => simp only [htype', fillAt, hentries, fillElements_eq]; rfl
    | _ =>
      have htype' : (m.toModel.typeAt address).getD declared = _ := htype
      cases fuel <;> (simp only [htype']; rfl)

/-! ## Runs of the building blocks -/

section runs
variable {m : HeapModel} {fuel address : Nat} {declared type : ValueType} {value : ModelValue}
  {h owner : Handle} {heap : Nat → ValueType → Build Handle} {entry : Slot × ValueType × ModelValue}
  {entries : List (Slot × ValueType × ModelValue)}

/-- The state with one more node, which is what lies at the address. -/
def enter (r : Reanimation) (address : Nat) (n : Node) : Reanimation :=
  { arena := (r.arena.push n).2, known := (address, ⟨r.arena.size⟩) :: r.known }

theorem runs_add {n : Node} (hrun : Runs (add n) r h r') :
    h = ⟨r.arena.size⟩ ∧ r' = { r with arena := (r.arena.push n).2 } := runs_modifyGet hrun

theorem runs_edit {change : Arena → Arena} {u : Unit} (hrun : Runs (edit change) r u r') :
    r' = { r with arena := change r.arena } := (runs_modifyGet hrun).2

/-- A value in a slot is what lies at an address, or a constant. -/
theorem Runs.slotValue (hrun : Runs (slotValue heap value type) r h r') :
    (∃ address, value = .reference address ∧ Runs (heap address type) r h r') ∨
      ∃ literal, (∀ address, value ≠ .reference address) ∧ literal? value type = some literal ∧
        h = ⟨r.arena.size⟩ ∧ r' = { r with arena := (r.arena.push (.constant literal)).2 } := by
  unfold Reanimation.slotValue at hrun
  split at hrun
  · exact .inl ⟨_, rfl, hrun⟩
  · next hvalue =>
    split at hrun
    · next literal hliteral =>
      obtain ⟨hh, hr⟩ := runs_add hrun
      exact .inr ⟨literal, hvalue, hliteral, hh, hr⟩
    · exact absurd hrun not_runs_throw

theorem runs_fillEntries_nil {u : Unit} (hrun : Runs (fillEntries heap owner []) r u r') :
    r' = r := (runs_pure hrun).2

theorem Runs.fillEntries_cons {u : Unit}
    (hrun : Runs (fillEntries heap owner (entry :: entries)) r u r') :
    ∃ child r₁, Runs (Reanimation.slotValue heap entry.2.2 entry.2.1) r child r₁ ∧
      Runs (fillEntries heap owner entries)
        { r₁ with arena := r₁.arena.fillSlot owner entry.1 child } u r' := by
  obtain ⟨_, r₂, hentry, hrest⟩ := hrun.bind
  obtain ⟨child, r₁, hchild, hedit⟩ := hentry.bind
  obtain rfl := runs_edit hedit
  exact ⟨child, r₁, hchild, hrest⟩

/-- What lies at an address is known already, or it gets a node, whose slots are then filled. -/
theorem Runs.heapValue (hrun : Runs (heapValue m.toModel fuel address declared) r h r') :
    r.known.lookup address = some h ∧ r' = r ∨
      r.known.lookup address = none ∧ h = ⟨r.arena.size⟩ ∧
        ∃ shape term, m.shapeAt? address (m.typeAt address declared) = some shape ∧
          Runs (fillAt m fuel h address)
            (r.enter address ⟨term, m.typeAt address declared, shape, []⟩) () r' := by
  rw [heapValue_eq] at hrun
  obtain ⟨s, r₁, hget, hbranch⟩ := hrun.bind
  obtain ⟨rfl, rfl⟩ := runs_get hget
  cases hknown : r₁.known.lookup address with
  | some k =>
    simp only [hknown] at hbranch
    obtain ⟨rfl, rfl⟩ := runs_pure hbranch
    exact .inl ⟨rfl, rfl⟩
  | none =>
    simp only [hknown] at hbranch
    cases hshape : m.shapeAt? address (m.typeAt address declared) with
    | none =>
      simp only [hshape] at hbranch
      exact absurd hbranch not_runs_throw
    | some shape =>
      simp only [hshape] at hbranch
      obtain ⟨k, r₂, hnamed, hbuild⟩ := hbranch.bind
      obtain ⟨_, r₃, hremember, hslots⟩ := hbuild.bind
      obtain ⟨_, r₄, hfill, hreturn⟩ := hslots.bind
      obtain ⟨rfl, rfl⟩ := runs_pure hreturn
      obtain ⟨names, names', a, hpush, rfl⟩ := runs_addNamed hnamed
      obtain ⟨-, rfl⟩ := runs_modifyGet hremember
      cases hpush
      exact .inr ⟨rfl, rfl, shape, _, rfl, hfill⟩

/-! ## Fuel -/

theorem Runs.slotValue_suffix
    (hheap : ∀ {address : Nat} {type : ValueType} {r r' : Reanimation} {h : Handle},
      Runs (heap address type) r h r' → r.known <:+ r'.known)
    (hrun : Runs (Reanimation.slotValue heap value type) r h r') : r.known <:+ r'.known := by
  rcases hrun.slotValue with ⟨address, -, hchild⟩ | ⟨literal, -, -, -, rfl⟩
  · exact hheap hchild
  · exact List.suffix_rfl

theorem Runs.fillEntries_suffix {u : Unit}
    (hheap : ∀ {address : Nat} {type : ValueType} {r r' : Reanimation} {h : Handle},
      Runs (heap address type) r h r' → r.known <:+ r'.known)
    (hrun : Runs (fillEntries heap owner entries) r u r') : r.known <:+ r'.known := by
  induction entries generalizing r with
  | nil => rw [runs_fillEntries_nil hrun]
  | cons entry entries ih =>
    obtain ⟨child, r₁, hchild, hrest⟩ := hrun.fillEntries_cons
    have hafter := ih hrest
    exact (hchild.slotValue_suffix hheap).trans hafter

/-- What is registered stays registered. -/
theorem Runs.suffix (hrun : Runs (Reanimation.heapValue m.toModel fuel address declared) r h r') :
    r.known <:+ r'.known := by
  induction fuel generalizing address declared r h r' with
  | zero =>
    rcases hrun.heapValue with ⟨-, rfl⟩ | ⟨-, -, shape, term, -, hfill⟩
    · exact List.suffix_rfl
    · rw [(runs_pure hfill).2]
      exact List.suffix_cons _ _
  | succ fuel ih =>
    rcases hrun.heapValue with ⟨-, rfl⟩ | ⟨-, -, shape, term, -, hfill⟩
    · exact List.suffix_rfl
    · exact (List.suffix_cons _ _).trans (Runs.fillEntries_suffix ih hfill)

/-- The addresses in the tables that have no node yet. -/
def unvisited (m : HeapModel) (r : Reanimation) : Finset Nat :=
  (m.objects.map (·.1) ++ m.arrays.map (·.1)).toFinset.filter (· ∉ r.known.map (·.1))

theorem card_unvisited_le (m : HeapModel) (r : Reanimation) :
    (unvisited m r).card ≤ m.toModel.heapSize := by
  calc (unvisited m r).card
      ≤ (m.objects.map (·.1) ++ m.arrays.map (·.1)).toFinset.card := Finset.card_filter_le _ _
    _ ≤ (m.objects.map (·.1) ++ m.arrays.map (·.1)).length := List.toFinset_card_le _
    _ = m.toModel.heapSize := by simp [HeapModel.toModel]

theorem unvisited_subset (m : HeapModel) (hsuffix : r.known <:+ r'.known) :
    unvisited m r' ⊆ unvisited m r := by
  intro address haddress
  rw [unvisited, Finset.mem_filter] at haddress ⊢
  exact ⟨haddress.1, fun hmem => haddress.2 ((hsuffix.map _).subset hmem)⟩

theorem mem_of_lookup_reverse {γ : Type} {table : List (Nat × γ)} {row : γ}
    (hrow : table.reverse.lookup address = some row) : address ∈ table.map (·.1) := by
  obtain ⟨front, back, heq, -⟩ := List.lookup_eq_some_iff.mp hrow
  have hmem : (address, row) ∈ table.reverse := by simp [heq]
  exact List.mem_map.mpr ⟨_, List.mem_reverse.mp hmem, rfl⟩

theorem mem_tables_of_entriesAt (hentries : m.entriesAt address ≠ []) :
    address ∈ m.objects.map (·.1) ++ m.arrays.map (·.1) := by
  rw [List.mem_append]
  cases hobject : m.object? address with
  | some object => exact .inl (mem_of_lookup_reverse hobject)
  | none =>
    cases harray : m.array? address with
    | some array => exact .inr (mem_of_lookup_reverse harray)
    | none => simp [HeapModel.entriesAt, hobject, harray] at hentries

theorem not_mem_of_lookup (hnew : r.known.lookup address = none) :
    address ∉ r.known.map (·.1) := by
  intro hmem
  obtain ⟨known, hknown, rfl⟩ := List.mem_map.mp hmem
  simpa using List.lookup_eq_none_iff.mp hnew known hknown

/-- A node for an address with entries is progress. -/
theorem card_unvisited_enter (hnew : r.known.lookup address = none)
    (hentries : m.entriesAt address ≠ []) (n : Node) :
    (unvisited m (r.enter address n)).card < (unvisited m r).card := by
  apply Finset.card_lt_card
  rw [Finset.ssubset_iff_of_subset (unvisited_subset m (List.suffix_cons _ _))]
  refine ⟨address, ?_, ?_⟩
  · rw [unvisited, Finset.mem_filter, List.mem_toFinset]
    exact ⟨mem_tables_of_entriesAt hentries, not_mem_of_lookup hnew⟩
  · rw [unvisited, Finset.mem_filter]
    exact fun hmem => hmem.2 (by simp [enter])

theorem run_bind_congr {x y : Build α} {f g : α → Build β} (hxy : x.run.run r = y.run.run r)
    (hfg : ∀ v r', Runs x r v r' → (f v).run.run r' = (g v).run.run r') :
    (x >>= f).run.run r = (y >>= g).run.run r := by
  funext names
  change ((x >>= f).run.run r).run names = ((y >>= g).run.run r).run names
  rw [ExceptT.run_bind, ExceptT.run_bind, StateT.run_bind, StateT.run_bind, StateT.run_bind,
    StateT.run_bind, ← hxy]
  generalize hresult : (x.run.run r).run names = result
  obtain ⟨⟨outcome, r'⟩, names'⟩ := result
  cases outcome with
  | ok v => exact congrFun (hfg v r' ⟨names, names', hresult⟩) names'
  | error failure => rfl

theorem fillEntries_congr {heap' : Nat → ValueType → Build Handle}
    (hsuffix : ∀ {address : Nat} {type : ValueType} {r r' : Reanimation} {h : Handle},
      Runs (heap address type) r h r' → r.known <:+ r'.known)
    (hheap : ∀ {address : Nat} {type : ValueType} {r : Reanimation},
      (unvisited m r).card ≤ fuel →
        (heap address type).run.run r = (heap' address type).run.run r)
    (hfuel : (unvisited m r).card ≤ fuel) :
    (fillEntries heap owner entries).run.run r = (fillEntries heap' owner entries).run.run r := by
  induction entries generalizing r with
  | nil => rfl
  | cons entry entries ih =>
    have hvalue : (Reanimation.slotValue heap entry.2.2 entry.2.1).run.run r =
        (Reanimation.slotValue heap' entry.2.2 entry.2.1).run.run r := by
      unfold Reanimation.slotValue
      cases entry.2.2 with
      | reference address => exact hheap hfuel
      | _ => rfl
    refine run_bind_congr (run_bind_congr hvalue fun _ _ _ => rfl) fun _ r₁ hentry => ih ?_
    obtain ⟨child, r₂, hchild, hedit⟩ := hentry.bind
    rw [runs_edit hedit]
    exact (Finset.card_le_card (unvisited_subset m (hchild.slotValue_suffix hsuffix))).trans hfuel

theorem heapValue_congr {fuel' : Nat}
    (hfill : r.known.lookup address = none → ∀ n : Node,
      (fillAt m fuel ⟨r.arena.size⟩ address).run.run (r.enter address n) =
        (fillAt m fuel' ⟨r.arena.size⟩ address).run.run (r.enter address n)) :
    (Reanimation.heapValue m.toModel fuel address declared).run.run r =
      (Reanimation.heapValue m.toModel fuel' address declared).run.run r := by
  rw [heapValue_eq m fuel, heapValue_eq m fuel']
  refine run_bind_congr rfl fun s r₁ hget => ?_
  obtain ⟨rfl, rfl⟩ := runs_get hget
  cases hknown : r₁.known.lookup address with
  | some k => rfl
  | none =>
    cases hshape : m.shapeAt? address (m.typeAt address declared) with
    | none => rfl
    | some shape =>
      refine run_bind_congr rfl fun k r₂ hnamed => ?_
      refine run_bind_congr rfl fun _ r₃ hremember => ?_
      obtain ⟨names, names', a, hpush, rfl⟩ := runs_addNamed hnamed
      obtain ⟨-, rfl⟩ := runs_modifyGet hremember
      cases hpush
      exact run_bind_congr (hfill hknown _) fun _ _ _ => rfl

/-- Where there is fuel for every address in the tables that has no node yet, more of it changes
nothing. -/
theorem heapValue_succ_fuel (m : HeapModel) (fuel : Nat) : ∀ {address : Nat} {declared : ValueType}
    {r : Reanimation}, (unvisited m r).card ≤ fuel →
      (Reanimation.heapValue m.toModel (fuel + 1) address declared).run.run r =
        (Reanimation.heapValue m.toModel fuel address declared).run.run r := by
  induction fuel with
  | zero =>
    intro address declared r hfuel
    refine heapValue_congr fun hnew n => ?_
    have hentries : m.entriesAt address = [] := by
      by_contra hentries
      have := card_unvisited_enter hnew hentries n
      omega
    change (fillEntries _ _ (m.entriesAt address)).run.run _ = _
    rw [hentries]
    rfl
  | succ fuel ih =>
    intro address declared r hfuel
    refine heapValue_congr fun hnew n => ?_
    rw [fillAt, fillAt]
    by_cases hentries : m.entriesAt address = []
    · rw [hentries]
      rfl
    · have hless := card_unvisited_enter hnew hentries n
      exact fillEntries_congr Runs.suffix ih (by omega)

/-- The building ends by itself, whatever is shared or cyclic. -/
theorem heapValue_add_fuel (m : HeapModel) (extra : Nat) :
    Reanimation.heapValue m.toModel (m.toModel.heapSize + 1 + extra) =
      Reanimation.heapValue m.toModel (m.toModel.heapSize + 1) := by
  induction extra with
  | zero => rfl
  | succ extra ih =>
    rw [← ih]
    funext address declared r
    have hfuel : (unvisited m r).card ≤ m.toModel.heapSize + 1 + extra := by
      have := card_unvisited_le m r
      omega
    exact heapValue_succ_fuel m _ hfuel

end runs

end Reanimation
end Concolic
