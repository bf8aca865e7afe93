import Concolic.Proofs.Reanimation.Parameters
import Concolic.Proofs.Traversal

/-!
# The static fields that a state reads

The loads of static fields are collected from everywhere in a state, each once, and those that the
model evaluates are sorted into one holder for each class. Whatever the model is, building a value
changes no node that was there before, so a holder keeps what it was given, and in the end has the
fields of its class that the state reads, and no others.

## Main statements

* `Reanimation.Runs.value_keeps` — building a value adds nodes and changes none.
* `Reanimation.statics_are_reads` — the holders are those of the classes that a state reads, in the
  order in which they come up, and have the fields that it reads.
-/

namespace Concolic

/-! ## First occurrences -/

section firsts
variable {α β : Type} [BEq α] [BEq β] [LawfulBEq β]

theorem firsts_concat_of_mem {bs : List β} {b : β} (hb : b ∈ bs) :
    firsts (bs ++ [b]) = firsts bs := by
  rw [firsts_concat, addNew, if_pos]
  rw [List.any_beq', List.contains_iff_mem]
  exact mem_firsts.mpr hb

/-- To leave out what came before leaves the first occurrences of what is made of it. -/
theorem firsts_filterMap_firsts {f : α → Option β} {as : List α}
    (hf : ∀ a ∈ as, ∀ b, (b == a) = true → f b = f a) :
    firsts ((firsts as).filterMap f) = firsts (as.filterMap f) := by
  induction as using List.reverseRecOn with
  | nil => rfl
  | append_singleton as a ih =>
    rw [List.forall_mem_append, List.forall_mem_singleton] at hf
    have ih := ih hf.1
    rw [firsts_concat, addNew, List.filterMap_append]
    by_cases hany : (firsts as).any (· == a) = true
    · obtain ⟨b, hb, hba⟩ := List.any_eq_true.mp hany
      rw [if_pos hany, ih]
      cases ha : f a with
      | none => simp [ha]
      | some c =>
        have hc : c ∈ as.filterMap f :=
          List.mem_filterMap.mpr ⟨b, mem_of_mem_firsts hb, (hf.2 b hba).trans ha⟩
        simp [ha, firsts_concat_of_mem hc]
    · rw [if_neg hany, List.filterMap_append]
      cases ha : f a with
      | none => simpa [ha] using ih
      | some c => simp [ha, firsts_concat, ih]

end firsts

/-- Terms are collected at their first occurrences. -/
theorem State.collect_eq_firsts (keep : Term → Bool) (s : SymbolicState) :
    s.collect keep = firsts (s.terms.filter keep) := by
  unfold State.collect firsts
  congr 1
  funext seen t
  rw [addNew, List.any_beq']

theorem State.mem_terms {s : SymbolicState} {t : Term} : t ∈ s.terms ↔ s.HasTerm t := by
  rw [← State.term_mem_visits, State.terms, List.mem_filterMap]
  constructor
  · rintro ⟨visit, hvisit, hterm⟩
    cases visit with
    | predicate => cases hterm
    | term u =>
      cases hterm
      exact hvisit
  · exact fun hvisit => ⟨_, hvisit, rfl⟩

/-- What is the same as a term with one operand is one with the same operand. -/
theorem Term.unary_of_beq {t a : Term} {op : UnaryOp} {type : ValueType}
    (hbeq : (t == .unary op type a) = true) :
    ∃ op' a', t = .unary op' type a' ∧ (op' == op) = true ∧ (a' == a) = true := by
  change Term.same _ _ = true at hbeq
  cases t with
  | unary op' type' a' =>
    simp only [Term.same, Bool.and_eq_true, beq_iff_eq] at hbeq
    obtain ⟨⟨hop, rfl⟩, ha⟩ := hbeq
    exact ⟨op', a', rfl, hop, ha⟩
  | _ => simp [Term.same] at hbeq

/-- Nothing but itself is the same as the term for the static fields of a class. -/
theorem Term.eq_of_beq_statics {t : Term} {type : ValueType}
    (hbeq : (t == .statics type) = true) : t = .statics type := by
  change Term.same _ _ = true at hbeq
  cases t with
  | leaf type' l =>
    simp only [Term.statics, Term.same, Bool.and_eq_true, beq_iff_eq] at hbeq
    obtain ⟨rfl, hleaf⟩ := hbeq
    cases l <;> first | rfl | cases hleaf
  | _ => simp [Term.statics, Term.same] at hbeq

namespace Reanimation

variable {m : Model} {info : MethodInfo} {s : SymbolicState} {r r' r'' : Reanimation} {a b : Arena}
  {h owner : Handle} {address : Nat} {declared type : ValueType} {value : ModelValue} {n : Node}
  {load other : Term} {name className : String} {v : ModelValue} {known : List (Nat × Handle)}

/-! ## Loads of static fields -/

theorem staticField?_eq_some (hfield : staticField? load = some (className, name)) :
    ∃ type location, load = .unary .fieldLoad type (.unary (.field name) location
      (.statics (.class className))) := by
  unfold staticField? at hfield
  split at hfield
  · cases hfield
    exact ⟨_, _, rfl⟩
  · cases hfield

/-- Nothing but itself is the same as a load of a static field. -/
theorem eq_of_beq_staticField (hfield : (staticField? load).isSome = true)
    (hbeq : (other == load) = true) : other = load := by
  obtain ⟨⟨className, name⟩, hfield⟩ := Option.isSome_iff_exists.mp hfield
  obtain ⟨type, location, rfl⟩ := staticField?_eq_some hfield
  obtain ⟨op, slot, rfl, hop, hslot⟩ := Term.unary_of_beq hbeq
  obtain ⟨op', holder, rfl, hop', hholder⟩ := Term.unary_of_beq hslot
  rw [UnaryOp.beq_iff_signature] at hop hop'
  obtain rfl := Term.eq_of_beq_statics hholder
  have hload : op = .fieldLoad := by cases op <;> simp_all [UnaryOp.signature]
  have hname : op' = .field name := by cases op' <;> simp_all [UnaryOp.signature]
  rw [hload, hname]

theorem staticLoads_eq (s : SymbolicState) :
    staticLoads s = firsts (s.terms.filter fun t => (staticField? t).isSome) :=
  State.collect_eq_firsts _ s

theorem mem_staticLoads :
    load ∈ staticLoads s ↔ s.HasTerm load ∧ (staticField? load).isSome = true := by
  have hall : load ∈ s.terms.filter (fun t => (staticField? t).isSome) ↔
      s.HasTerm load ∧ (staticField? load).isSome = true := by
    rw [List.mem_filter, State.mem_terms]
  rw [← hall, staticLoads_eq]
  constructor
  · exact mem_of_mem_firsts
  · intro hload
    obtain ⟨other, hother, hbeq⟩ := exists_mem_firsts hload
    rwa [eq_of_beq_staticField (List.mem_filter.mp hload).2 hbeq] at hother

/-- The state reads the static field of the class by the load, and the model gives it a value. -/
structure Reads (m : Model) (s : SymbolicState) (className name : String) (load : Term)
    (v : ModelValue) : Prop where
  occurs : s.HasTerm load
  isStatic : staticField? load = some (className, name)
  evaluates : m.evaluate load = some v

/-- The class and the slot of the static field that a term reads, with what the model gives it. -/
def slotRead? (m : Model) (load : Term) : Option (String × Slot × ValueType × ModelValue) :=
  match staticField? load, m.evaluate load with
  | some (className, name), some v => some (className, .field name load.type, load.type, v)
  | _, _ => none

/-- The classes whose static fields a state reads, in the order in which they come up. -/
def readClasses (m : Model) (s : SymbolicState) : List String :=
  firsts ((s.terms.filterMap (slotRead? m)).map (·.1))

theorem slotRead?_eq_some {entry : String × Slot × ValueType × ModelValue} :
    slotRead? m load = some entry ↔ ∃ name, staticField? load = some (entry.1, name) ∧
      m.evaluate load = some entry.2.2.2 ∧ entry.2.1 = .field name load.type ∧
      entry.2.2.1 = load.type := by
  unfold slotRead?
  constructor
  · intro hentry
    split at hentry
    · next hfield hv =>
      cases hentry
      exact ⟨_, hfield, hv, rfl, rfl⟩
    · cases hentry
  · rintro ⟨name, hfield, hv, hslot, htype⟩
    simp only [hfield, hv]
    rw [← hslot, ← htype]

theorem Reads.entry (hread : Reads m s className name load v) :
    slotRead? m load = some (className, .field name load.type, load.type, v) :=
  slotRead?_eq_some.mpr ⟨name, hread.isStatic, hread.evaluates, rfl, rfl⟩

theorem mem_readClasses :
    className ∈ readClasses m s ↔ ∃ name load v, Reads m s className name load v := by
  rw [readClasses, mem_firsts, List.mem_map]
  constructor
  · rintro ⟨entry, hentry, rfl⟩
    obtain ⟨load, hload, hread⟩ := List.mem_filterMap.mp hentry
    obtain ⟨name, hfield, hv, -⟩ := slotRead?_eq_some.mp hread
    exact ⟨name, load, _, State.mem_terms.mp hload, hfield, hv⟩
  · rintro ⟨name, load, v, hread⟩
    exact ⟨_, List.mem_filterMap.mpr ⟨load, State.mem_terms.mpr hread.occurs, hread.entry⟩, rfl⟩

/-- Collecting the loads leaves the order in which the classes come up. -/
theorem firsts_staticLoads (m : Model) (s : SymbolicState) :
    firsts (((staticLoads s).filterMap (slotRead? m)).map (·.1)) = readClasses m s := by
  have hfilter : (s.terms.filter fun t => (staticField? t).isSome).filterMap
      (fun t => (slotRead? m t).map (·.1)) =
        s.terms.filterMap fun t => (slotRead? m t).map (·.1) := by
    rw [List.filterMap_filter]
    congr 1
    funext t
    cases hfield : staticField? t <;> simp [slotRead?, hfield]
  rw [readClasses, List.map_filterMap, List.map_filterMap, ← hfilter, staticLoads_eq]
  apply firsts_filterMap_firsts
  intro load hload other hbeq
  rw [eq_of_beq_staticField (List.mem_filter.mp hload).2 hbeq]

/-! ## What a build leaves alone -/

/-- Between two states of a build nothing is forgotten, and no node changes but those that are
`open`; no constant changes. -/
structure Keeps (isOpen : Handle → Prop) (r r' : Reanimation) : Prop where
  size_le : r.arena.size ≤ r'.arena.size
  suffix : r.known <:+ r'.known
  kept : ∀ h : Handle, h.index < r.arena.size → ¬isOpen h → r'.arena.node h = r.arena.node h
  constants : ∀ h : Handle, h.index < r.arena.size → (r.arena.node h).isConstant = true →
    r'.arena.node h = r.arena.node h

/-- Each address has a node of its own on the heap, which has the type that the model knows for the
address. -/
structure Places (m : Model) (a : Arena) (known : List (Nat × Handle)) : Prop where
  keys : (known.map (·.1)).Nodup
  injective : (known.map (·.2)).Nodup
  inside : ∀ place ∈ known, place.2.index < a.size
  onHeap : ∀ place ∈ known, (a.node place.2).isOnHeap = true
  type_eq : ∀ place ∈ known, ∀ type, m.typeAt place.1 = some type → (a.node place.2).type = type

section keeps
variable {isOpen isOpen' : Handle → Prop}

theorem Grows.keeps {m : HeapModel} (hgrows : Grows m isOpen r r') : Keeps isOpen r r' :=
  ⟨hgrows.size_le, hgrows.suffix, hgrows.kept, hgrows.constants⟩

theorem Keeps.refl : Keeps isOpen r r :=
  ⟨Nat.le_refl _, List.suffix_rfl, fun _ _ _ => rfl, fun _ _ _ => rfl⟩

theorem Keeps.trans (h₁ : Keeps isOpen r r') (h₂ : Keeps isOpen r' r'') : Keeps isOpen r r'' := by
  refine ⟨h₁.size_le.trans h₂.size_le, h₁.suffix.trans h₂.suffix, fun h hh hclosed => ?_,
    fun h hh hconstant => ?_⟩
  · rw [h₂.kept h (hh.trans_le h₁.size_le) hclosed, h₁.kept h hh hclosed]
  · have hnode := h₁.constants h hh hconstant
    rw [h₂.constants h (hh.trans_le h₁.size_le) (by rwa [hnode]), hnode]

theorem Keeps.mono (hkeeps : Keeps isOpen r r') (hopen : ∀ h, isOpen h → isOpen' h) :
    Keeps isOpen' r r' :=
  ⟨hkeeps.size_le, hkeeps.suffix, fun h hh hclosed => hkeeps.kept h hh (hclosed ∘ hopen h),
    hkeeps.constants⟩

theorem Keeps.stands (hkeeps : Keeps isOpen r r')
    (hstands : Stands r.arena r.Knows value type h) : Stands r'.arena r'.Knows value type h :=
  hstands.mono (fun _ _ hknown => hkeeps.suffix.subset hknown) hkeeps.size_le hkeeps.constants

/-- What is done to a new node changes no node that was there before. -/
theorem Keeps.enter (hkeeps : Keeps (· = ⟨r.arena.size⟩) (r.enter address n) r') :
    Keeps (fun _ => False) r r' := by
  have hsize : (r.enter address n).arena.size = r.arena.size + 1 := Arena.size_push r.arena n
  have hpush {h : Handle} (hh : h.index < r.arena.size) :
      (r.enter address n).arena.node h = r.arena.node h := Arena.node_push_of_lt n hh
  have hkept {h : Handle} (hh : h.index < r.arena.size) :
      r'.arena.node h = r.arena.node h := by
    have hne : h ≠ ⟨r.arena.size⟩ := by
      rintro rfl
      exact Nat.lt_irrefl _ hh
    rw [hkeeps.kept h (by omega) hne, hpush hh]
  have hle := hkeeps.size_le
  exact ⟨by omega, (List.suffix_cons _ _).trans hkeeps.suffix, fun _ hh _ => hkept hh,
    fun _ hh _ => hkept hh⟩

end keeps

/-- A change of the arena that leaves what kind of value each node is. -/
theorem Places.of_nodes (hplaces : Places m a known) (hsize : a.size ≤ b.size)
    (hnodes : ∀ h : Handle, h.index < a.size →
      (b.node h).type = (a.node h).type ∧ (b.node h).shape = (a.node h).shape) :
    Places m b known := by
  refine ⟨hplaces.keys, hplaces.injective,
    fun place hmem => (hplaces.inside place hmem).trans_le hsize, fun place hmem => ?_,
    fun place hmem type htype => ?_⟩
  · obtain ⟨-, hshape⟩ := hnodes _ (hplaces.inside place hmem)
    rw [← hplaces.onHeap place hmem]
    simp only [Node.isOnHeap, hshape]
  · rw [(hnodes _ (hplaces.inside place hmem)).1]
    exact hplaces.type_eq place hmem type htype

theorem Places.push (hplaces : Places m a known) (n : Node) : Places m (a.push n).2 known := by
  refine hplaces.of_nodes (by rw [Arena.size_push]; exact Nat.le_succ _) fun h hh => ?_
  rw [Arena.node_push_of_lt n hh]
  exact ⟨rfl, rfl⟩

theorem Places.fillSlot (hplaces : Places m a known) (owner : Handle) (slot : Slot) (h : Handle) :
    Places m (a.fillSlot owner slot h) known :=
  hplaces.of_nodes (Arena.size_fillSlot ..).ge fun k _ => Arena.shape_node_fillSlot a owner slot h k

/-- A new address gets a node that nothing else had. -/
theorem Places.enter (hplaces : Places m r.arena r.known)
    (hnew : r.known.lookup address = none) (hheap : n.isOnHeap = true)
    (htype : n.type = (m.typeAt address).getD declared) :
    Places m (r.enter address n).arena (r.enter address n).known := by
  have hpush := hplaces.push n
  have hnode : (r.arena.push n).2.node ⟨r.arena.size⟩ = n := Arena.node_push_new r.arena n
  refine ⟨List.nodup_cons.mpr ⟨not_mem_of_lookup hnew, hplaces.keys⟩,
    List.nodup_cons.mpr ⟨fun hmem => ?_, hplaces.injective⟩,
    List.forall_mem_cons.mpr ⟨?_, hpush.inside⟩, List.forall_mem_cons.mpr ⟨?_, hpush.onHeap⟩,
    List.forall_mem_cons.mpr ⟨fun type hknown => ?_, hpush.type_eq⟩⟩
  · obtain ⟨place, hplace, heq⟩ := List.mem_map.mp hmem
    have hlt := hplaces.inside place hplace
    rw [heq] at hlt
    exact Nat.lt_irrefl _ hlt
  · change r.arena.size < (r.arena.push n).2.size
    rw [Arena.size_push]
    exact Nat.lt_succ_self _
  · exact (congrArg Node.isOnHeap hnode).trans hheap
  · rw [hknown] at htype
    exact (congrArg Node.type hnode).trans htype

/-! ## Building for any model -/

/-- The addresses that were known keep their nodes, as all nodes do, and what was built is known. -/
def BuildsKeeping (m : Model) (heap : Nat → ValueType → Build Handle) : Prop :=
  ∀ {address : Nat} {declared : ValueType} {r r' : Reanimation} {h : Handle},
    Runs (heap address declared) r h r' → Places m r.arena r.known →
      Keeps (fun _ => False) r r' ∧ Places m r'.arena r'.known ∧ (address, h) ∈ r'.known

section builds
variable {heap : Nat → ValueType → Build Handle}

theorem BuildsKeeping.slotValue (hheap : BuildsKeeping m heap)
    (hrun : Runs (Reanimation.slotValue heap value type) r h r')
    (hplaces : Places m r.arena r.known) :
    Keeps (fun _ => False) r r' ∧ Places m r'.arena r'.known ∧
      Stands r'.arena r'.Knows value type h := by
  rcases hrun.slotValue with ⟨address, rfl, hrun⟩ | ⟨literal, hvalue, hliteral, rfl, rfl⟩
  · obtain ⟨hkeeps, hafter, hmem⟩ := hheap hrun hplaces
    exact ⟨hkeeps, hafter, .reference hmem⟩
  · refine ⟨(Grows.push (m := {}) _).keeps, hplaces.push _,
      .literal hvalue hliteral ?_ (Arena.node_push_new r.arena _)⟩
    change r.arena.size < (r.arena.push _).2.size
    rw [Arena.size_push]
    exact Nat.lt_succ_self _

theorem BuildsKeeping.fillEntries {u : Unit} (hheap : BuildsKeeping m heap)
    {entries : List (Slot × ValueType × ModelValue)}
    (hrun : Runs (Reanimation.fillEntries heap owner entries) r u r')
    (hplaces : Places m r.arena r.known) (howner : owner.index < r.arena.size)
    (hconstant : (r.arena.node owner).isConstant = false) :
    Keeps (· = owner) r r' ∧ Places m r'.arena r'.known := by
  induction entries generalizing r with
  | nil =>
    obtain rfl := runs_fillEntries_nil hrun
    exact ⟨.refl, hplaces⟩
  | cons entry entries ih =>
    obtain ⟨child, r₁, hchild, hrest⟩ := hrun.fillEntries_cons
    obtain ⟨hbuilt, hplaces₁, -⟩ := hheap.slotValue hchild hplaces
    have hconstant₁ : (r₁.arena.node owner).isConstant = false :=
      hbuilt.kept owner howner not_false ▸ hconstant
    have hput : Keeps (· = owner) r₁ { r₁ with arena := r₁.arena.fillSlot owner entry.1 child } :=
      (Grows.fillSlot (m := {}) entry.1 child hconstant₁).keeps
    have hshape := (Arena.shape_node_fillSlot r₁.arena owner entry.1 child owner).2
    obtain ⟨hdone, hplaces₂⟩ := ih hrest (hplaces₁.fillSlot owner entry.1 child)
      (howner.trans_le (hbuilt.size_le.trans hput.size_le))
      ((Node.isConstant_congr hshape).trans hconstant₁)
    exact ⟨((hbuilt.mono fun _ => False.elim).trans hput).trans hdone, hplaces₂⟩

/-- Fill the slots of a node from entries, if there is fuel for it. -/
def fillFrom (m : Model) : (fuel : Nat) → (owner : Handle) →
    List (Slot × ValueType × ModelValue) → Build Unit
  | 0, _, _ => pure ()
  | fuel + 1, owner, entries => fillEntries (heapValue m fuel) owner entries

/-- Make a node for an address, and fill its slots. -/
def register (m : Model) (fuel address : Nat) (type : ValueType) (shape : Shape)
    (entries : List (Slot × ValueType × ModelValue)) : Build Handle := do
  let h ← addNamed fun a => a.pushNamed type shape
  remember address h
  fillFrom m fuel h entries
  return h

/-- A node that is registered is new. -/
theorem Runs.register {fuel : Nat} {shape : Shape} {entries : List (Slot × ValueType × ModelValue)}
    (hrun : Runs (Reanimation.register m fuel address type shape entries) r h r') :
    h = ⟨r.arena.size⟩ ∧ ∃ term,
      Runs (fillFrom m fuel h entries) (r.enter address ⟨term, type, shape, []⟩) () r' := by
  obtain ⟨k, r₁, hnamed, hbuild⟩ := hrun.bind
  obtain ⟨_, r₂, hremember, hslots⟩ := hbuild.bind
  obtain ⟨_, r₃, hfill, hreturn⟩ := hslots.bind
  obtain ⟨rfl, rfl⟩ := runs_pure hreturn
  obtain ⟨names, names', a, hpush, rfl⟩ := runs_addNamed hnamed
  obtain ⟨-, rfl⟩ := runs_modifyGet hremember
  cases hpush
  exact ⟨rfl, _, hfill⟩

/-- What lies at an address is known already, or an object or an array is registered for it. -/
theorem Runs.heapValue_cases {fuel : Nat}
    (hrun : Runs (Reanimation.heapValue m fuel address declared) r h r') :
    (address, h) ∈ r.known ∧ r' = r ∨
      r.known.lookup address = none ∧ ∃ type shape entries,
        type = (m.typeAt address).getD declared ∧
          (shape = .object ∨ ∃ length, shape = .array length) ∧
            Runs (Reanimation.register m fuel address type shape entries) r h r' := by
  unfold Reanimation.heapValue at hrun
  obtain ⟨s, r₁, hget, hbranch⟩ := hrun.bind
  obtain ⟨rfl, rfl⟩ := runs_get hget
  cases hknown : r₁.known.lookup address with
  | some k =>
    simp only [hknown] at hbranch
    obtain ⟨rfl, rfl⟩ := runs_pure hbranch
    obtain ⟨front, back, hsplit, -⟩ := List.lookup_eq_some_iff.mp hknown
    exact .inl ⟨by simp [hsplit], rfl⟩
  | none =>
    simp only [hknown] at hbranch
    refine .inr ⟨rfl, ?_⟩
    cases htype : (m.typeAt address).getD declared with
    | «class» name =>
      simp only [htype] at hbranch
      refine ⟨_, .object, (m.fieldsAt address).map fun f => (.field f.name f.type, f.type, f.value),
        rfl, .inl rfl, ?_⟩
      cases fuel with
      | zero => exact hbranch
      | succ fuel =>
        simp only [fillFields_eq] at hbranch
        exact hbranch
    | array element =>
      simp only [htype] at hbranch
      refine ⟨_, .array (max ((m.lengthAt address).getD 0) 0),
        (m.elementsAt address).map fun entry => (.element entry.1, element, entry.2), rfl,
        .inr ⟨_, rfl⟩, ?_⟩
      cases fuel with
      | zero => exact hbranch
      | succ fuel =>
        simp only [fillElements_eq] at hbranch
        exact hbranch
    | _ =>
      simp only [htype] at hbranch
      exact absurd hbranch not_runs_throw

theorem BuildsKeeping.fillFrom {fuel : Nat} {u : Unit}
    {entries : List (Slot × ValueType × ModelValue)}
    (hheap : ∀ k < fuel, BuildsKeeping m (heapValue m k))
    (hrun : Runs (Reanimation.fillFrom m fuel owner entries) r u r')
    (hplaces : Places m r.arena r.known) (howner : owner.index < r.arena.size)
    (hconstant : (r.arena.node owner).isConstant = false) :
    Keeps (· = owner) r r' ∧ Places m r'.arena r'.known := by
  cases fuel with
  | zero =>
    obtain ⟨-, rfl⟩ := runs_pure hrun
    exact ⟨.refl, hplaces⟩
  | succ fuel =>
    exact BuildsKeeping.fillEntries (hheap fuel (Nat.lt_succ_self _)) hrun hplaces howner hconstant

/-- Whatever is shared or cyclic, building what lies at an address adds nodes and changes none. -/
theorem heapValue_keeps (m : Model) (fuel : Nat) : BuildsKeeping m (heapValue m fuel) := by
  induction fuel using Nat.strong_induction_on with
  | _ fuel ih =>
    intro address declared r r' h hrun hplaces
    rcases hrun.heapValue_cases with
      ⟨hmem, rfl⟩ | ⟨hnew, type, shape, entries, htype, hshape, hrun⟩
    · exact ⟨.refl, hplaces, hmem⟩
    · obtain ⟨rfl, term, hfill⟩ := hrun.register
      generalize hn : (⟨term, type, shape, []⟩ : Node) = n at hfill
      have hkind : n.isOnHeap = true ∧ n.isConstant = false := by
        rcases hshape with rfl | ⟨length, rfl⟩ <;> exact hn ▸ ⟨rfl, rfl⟩
      have hentered := hplaces.enter hnew hkind.1 (by rw [← hn]; exact htype)
      have hself := hentered.inside _ (List.mem_cons_self ..)
      have hnode : (r.enter address n).arena.node ⟨r.arena.size⟩ = n :=
        Arena.node_push_new r.arena n
      obtain ⟨hkeeps, hafter⟩ :=
        BuildsKeeping.fillFrom ih hfill hentered hself (by rw [hnode, hkind.2])
      exact ⟨hkeeps.enter, hafter, hkeeps.suffix.subset (List.mem_cons_self ..)⟩

end builds

/-- Building a value adds nodes and changes none, and gives what stands for the value. -/
theorem Runs.value_keeps (hrun : Runs (Reanimation.value m value type) r h r')
    (hplaces : Places m r.arena r.known) :
    Keeps (fun _ => False) r r' ∧ Places m r'.arena r'.known ∧
      Stands r'.arena r'.Knows value type h :=
  BuildsKeeping.slotValue (heapValue_keeps m (m.heapSize + 1)) hrun hplaces

theorem Runs.ofTerm_places {t : Term} (hrun : Runs (Reanimation.ofTerm m t) r h r')
    (hplaces : Places m r.arena r.known) : Places m r'.arena r'.known := by
  cases hv : m.evaluate t with
  | some v =>
    simp only [Reanimation.ofTerm, hv] at hrun
    exact (hrun.value_keeps hplaces).2.1
  | none =>
    simp only [Reanimation.ofTerm, hv] at hrun
    obtain ⟨names, names', a, hdefault, rfl⟩ := runs_addNamed hrun
    rw [Arena.default_nullable] at hdefault
    cases hdefault
    exact hplaces.push _

theorem Runs.ofTerms_places {ts : List Term} {hs : List Handle}
    (hrun : Runs (ts.mapM (Reanimation.ofTerm m)) r hs r')
    (hplaces : Places m r.arena r.known) : Places m r'.arena r'.known := by
  induction ts generalizing r hs with
  | nil =>
    rw [List.mapM_nil] at hrun
    obtain ⟨-, rfl⟩ := runs_pure hrun
    exact hplaces
  | cons t ts ih =>
    rw [List.mapM_cons] at hrun
    obtain ⟨h, r₁, hfirst, hrest⟩ := hrun.bind
    obtain ⟨hs', r₂, hrest, hpure⟩ := hrest.bind
    obtain ⟨-, rfl⟩ := runs_pure hpure
    exact ih hrest (hfirst.ofTerm_places hplaces)

theorem Runs.receiverOf_places {receiver : Option Handle}
    (hrun : Runs (Reanimation.receiverOf m info) r receiver r')
    (hplaces : Places m r.arena r.known) : Places m r'.arena r'.known := by
  unfold Reanimation.receiverOf at hrun
  cases hstatic : info.isStatic with
  | true =>
    rw [hstatic, if_pos rfl] at hrun
    obtain ⟨-, rfl⟩ := runs_pure hrun
    exact hplaces
  | false =>
    rw [hstatic, if_neg Bool.false_ne_true, map_eq_pure_bind] at hrun
    obtain ⟨h, r₁, hterm, hpure⟩ := hrun.bind
    obtain ⟨-, rfl⟩ := runs_pure hpure
    exact hterm.ofTerm_places hplaces

/-! ## Filling the holders -/

section holders
variable {owners : List String} {holders holders' : List (String × Handle)}
  {done : List (String × Slot × ValueType × ModelValue)} {loads : List Term}

theorem Held.keep {isOpen : Handle → Prop} (hheld : Held r done owners holders)
    (hkeeps : Keeps isOpen r r') (hclosed : ∀ holder ∈ holders, ¬isOpen holder.2) :
    Held r' done owners holders := by
  refine ⟨hheld.owners_eq, hheld.covered, hheld.distinct, fun hmem => ?_⟩
  obtain ⟨hinside, htype, hshape, hfilled⟩ := hheld.isHolder hmem
  have hnode := hkeeps.kept _ hinside (hclosed _ hmem)
  exact ⟨hinside.trans_le hkeeps.size_le, hnode ▸ htype, hnode ▸ hshape,
    hnode ▸ hfilled.mono hkeeps.stands⟩

/-- Each class that comes up gets a holder, with the values of the loads of its fields. -/
theorem Runs.fillHolders_held
    (hrun : Runs (Reanimation.fillHolders m loads holders) r holders' r')
    (hstatic : ∀ load ∈ loads, (staticField? load).isSome = true)
    (hplaces : Places m r.arena r.known) (hheld : Held r done (done.map (·.1)) holders) :
    Places m r'.arena r'.known ∧ Held r' (done ++ loads.filterMap (slotRead? m))
      ((done ++ loads.filterMap (slotRead? m)).map (·.1)) holders' := by
  induction loads generalizing r done holders with
  | nil =>
    obtain ⟨rfl, rfl⟩ := runs_pure hrun
    exact ⟨hplaces, by rwa [List.filterMap_nil, List.append_nil]⟩
  | cons load loads ih =>
    rw [List.forall_mem_cons] at hstatic
    obtain ⟨⟨className, name⟩, hfield⟩ := Option.isSome_iff_exists.mp hstatic.1
    rw [List.filterMap_cons]
    rcases hrun.fillHolders_step hfield with ⟨hnone, hrest⟩ |
      ⟨v, hsome, h, between, r₁, child, r₂, hholder, hvalue, hrest⟩
    · have hentry : slotRead? m load = none := by simp only [slotRead?, hfield, hnone]
      rw [hentry]
      exact ih hrest hstatic.2 hplaces hheld
    · have hentry : slotRead? m load = some (className, .field name load.type, load.type, v) := by
        simp only [slotRead?, hfield, hsome]
      rw [hentry]
      -- the holder is there, the value is built, and then put into its slot
      obtain ⟨hheld₁, -, hmem⟩ := hholder.held_holderOf hheld
      have hplaces₁ : Places m r₁.arena r₁.known := by
        rcases hholder.holderOf_cases with ⟨-, -, rfl⟩ | ⟨-, -, -, rfl⟩
        · exact hplaces
        · exact hplaces.push _
      obtain ⟨hkeeps, hplaces₂, hstands⟩ := hvalue.value_keeps hplaces₁
      have hheld₂ := hheld₁.keep hkeeps fun _ _ => not_false
      have hheld₃ : Held
          { r₂ with arena := r₂.arena.fillSlot h (.field name load.type) child }
          (done ++ [(className, .field name load.type, load.type, v)])
          (done.map (·.1) ++ [className]) between :=
        hheld₂.fill (by simp) hmem hstands
      have howners : done.map (·.1) ++ [className] =
          (done ++ [(className, Slot.field name load.type, load.type, v)]).map (·.1) := by simp
      rw [howners] at hheld₃
      have hdone := ih hrest hstatic.2 (hplaces₂.fillSlot h _ child) hheld₃
      rwa [List.append_assoc, List.singleton_append] at hdone

end holders

/-! ## The fields of a holder -/

/-- The node holds the static fields of the class that the state reads: a field for each load that
the model evaluates, with its name and type, where the load has its value, and no other slot. -/
structure HoldsReads (m : Model) (s : SymbolicState) (a : Arena) (known : List (Nat × Handle))
    (className : String) (h : Handle) : Prop where
  inside : h.index < a.size
  type_eq : (a.node h).type = .class className
  shape_eq : (a.node h).shape = .statics
  field_of_read : ∀ {name : String} {load : Term} {v : ModelValue},
    Reads m s className name load v → ∃ child, a.at? h (.field name load.type) = some child
  read_of_slot : ∀ {slot : Slot} {child : Handle}, a.at? h slot = some child →
    ∃ name load v, Reads m s className name load v ∧ slot = .field name load.type ∧
      Stands a (fun address k => (address, k) ∈ known) v load.type child

theorem mem_of_lastValue? {entries : List (Slot × ValueType × ModelValue)} {slot : Slot}
    (hlast : lastValue? entries slot = some (type, v)) : (slot, type, v) ∈ entries := by
  obtain ⟨front, back, hsplit, -⟩ := List.lookup_eq_some_iff.mp hlast
  have hmem : (slot, type, v) ∈ entries.reverse := by simp [hsplit]
  exact List.mem_reverse.mp hmem

theorem exists_lastValue? {entries : List (Slot × ValueType × ModelValue)}
    {entry : Slot × ValueType × ModelValue} (hentry : entry ∈ entries) :
    ∃ type v, lastValue? entries entry.1 = some (type, v) := by
  cases hlast : lastValue? entries entry.1 with
  | some last => exact ⟨last.1, last.2, rfl⟩
  | none =>
    have hne := List.lookup_eq_none_iff.mp hlast entry (List.mem_reverse.mpr hentry)
    simp at hne

/-- The entries of a class are those of the loads by which its fields are read. -/
theorem mem_entriesOf_reads {entry : Slot × ValueType × ModelValue} :
    entry ∈ entriesOf ((staticLoads s).filterMap (slotRead? m)) className ↔
      ∃ name load, Reads m s className name load entry.2.2 ∧ entry.1 = .field name load.type ∧
        entry.2.1 = load.type := by
  rw [entriesOf, List.mem_map]
  constructor
  · rintro ⟨row, hrow, rfl⟩
    obtain ⟨hrow, hclass⟩ := List.mem_filter.mp hrow
    obtain ⟨load, hload, hentry⟩ := List.mem_filterMap.mp hrow
    obtain ⟨name, hfield, hv, hslot, htype⟩ := slotRead?_eq_some.mp hentry
    obtain rfl := eq_of_beq hclass
    exact ⟨name, load, ⟨(mem_staticLoads.mp hload).1, hfield, hv⟩, hslot, htype⟩
  · rintro ⟨name, load, hread, hslot, htype⟩
    have hstatic : (staticField? load).isSome = true := by rw [hread.isStatic]; rfl
    refine ⟨(className, entry), List.mem_filter.mpr ⟨?_, beq_self_eq_true _⟩, rfl⟩
    refine List.mem_filterMap.mpr ⟨load, mem_staticLoads.mpr ⟨hread.occurs, hstatic⟩, ?_⟩
    exact slotRead?_eq_some.mpr ⟨name, hread.isStatic, hread.evaluates, hslot, htype⟩

theorem IsHolder.holdsReads
    (hholder : IsHolder a (fun address k => (address, k) ∈ known)
      (entriesOf ((staticLoads s).filterMap (slotRead? m)) className) className h) :
    HoldsReads m s a known className h := by
  refine ⟨hholder.inside, hholder.type_eq, hholder.shape_eq, fun {name load v} hread => ?_,
    fun {slot child} hslot => ?_⟩
  · have hentry : (Slot.field name load.type, load.type, v) ∈
        entriesOf ((staticLoads s).filterMap (slotRead? m)) className :=
      mem_entriesOf_reads.mpr ⟨name, load, hread, rfl, rfl⟩
    obtain ⟨type, w, hlast⟩ := exists_lastValue? hentry
    have hplace : (a.node h).accepts (.field name load.type) = true := by
      simp [Node.accepts, Node.hasFields, hholder.shape_eq]
    obtain ⟨child, hchild, -⟩ := hholder.filled.filled hplace hlast
    exact ⟨child, hchild⟩
  · cases hplace : (a.node h).accepts slot with
    | false =>
      have hnone := hholder.filled.empty (.inl hplace)
      exact absurd (hnone.symm.trans hslot) (by simp)
    | true =>
      cases hlast : lastValue? _ slot with
      | none =>
        have hnone := hholder.filled.empty (.inr hlast)
        exact absurd (hnone.symm.trans hslot) (by simp)
      | some last =>
        obtain ⟨type, v⟩ := last
        obtain ⟨child', hchild, hstands⟩ := hholder.filled.filled hplace hlast
        obtain rfl := Option.some.inj (hchild.symm.trans hslot)
        obtain ⟨name, load, hread, hname, htype⟩ :=
          mem_entriesOf_reads.mp (mem_of_lastValue? hlast)
        exact ⟨name, load, v, hread, hname, htype ▸ hstands⟩

/-- Every load of a static field in the state is as the constructors of terms make it, with a
location for values of its type. -/
def HasTypedStatics (s : SymbolicState) : Prop :=
  ∀ load className name, s.HasTerm load → staticField? load = some (className, name) →
    load = .fieldLoad (.field (.statics (.class className)) load.type name)

/-- Where loads are as they are made, there is one for each field, and the field has its value. -/
theorem HoldsReads.stands (hholds : HoldsReads m s a known className h)
    (htyped : HasTypedStatics s) (hread : Reads m s className name load v) :
    ∃ child, a.at? h (.field name load.type) = some child ∧
      Stands a (fun address k => (address, k) ∈ known) v load.type child := by
  obtain ⟨child, hchild⟩ := hholds.field_of_read hread
  obtain ⟨name', other, w, hother, hslot, hstands⟩ := hholds.read_of_slot hchild
  obtain ⟨rfl, htype⟩ := Slot.field.inj hslot
  have hsame : other = load := by
    rw [htyped other _ _ hother.occurs hother.isStatic,
      htyped load _ _ hread.occurs hread.isStatic, htype]
  subst hsame
  obtain rfl := Option.some.inj (hread.evaluates.symm.trans hother.evaluates)
  exact ⟨child, hchild, hstands⟩

/-- Where the parameters of a call are built, each class with a static field that the state reads
anywhere and the model evaluates has one holder, in the order in which the classes come up. A holder
has the fields that are read, with the values of their loads, and nothing else. -/
theorem statics_are_reads (m : Model) (info : MethodInfo) (s : SymbolicState)
    {names names' : NameSupply} {p : Parameters Handle} {a : Arena}
    (hrun : (start (parameters m info s)).run names = ((.ok p, a), names')) :
    ∃ (known : List (Nat × Handle)) (holders : List (String × Handle)),
      Places m a known ∧ p.statics = holders.map (·.2) ∧ p.statics.Nodup ∧
      holders.map (·.1) = readClasses m s ∧
      (∀ className, className ∈ readClasses m s ↔
        ∃ name load v, Reads m s className name load v) ∧
      ∀ holder ∈ holders, HoldsReads m s a known holder.1 holder.2 ∧
        (HasTypedStatics s → ∀ name load v, Reads m s holder.1 name load v →
          ∃ child, a.at? holder.2 (.field name load.type) = some child ∧
            Stands a (fun address k => (address, k) ∈ known) v load.type child) := by
  obtain ⟨r, hruns, rfl⟩ := runs_of_start hrun
  rw [parameters_eq] at hruns
  obtain ⟨receiver, r₁, hreceiver, hrest⟩ := hruns.bind
  obtain ⟨arguments, r₂, harguments, hrest⟩ := hrest.bind
  obtain ⟨holders, r₃, hstatics, hreturn⟩ := hrest.bind
  obtain ⟨rfl, rfl⟩ := runs_pure hreturn
  have hplaces : Places m ({} : Reanimation).arena ({} : Reanimation).known :=
    ⟨.nil, .nil, nofun, nofun, nofun⟩
  have hheld : Held r₂ [] [] [] := ⟨rfl, nofun, .nil, nofun⟩
  obtain ⟨hplaces₃, hheld₃⟩ := hstatics.fillHolders_held staticField?_of_mem
    (harguments.ofTerms_places (hreceiver.receiverOf_places hplaces)) hheld
  rw [List.nil_append] at hheld₃
  have hholds : ∀ holder ∈ holders, HoldsReads m s r.arena r.known holder.1 holder.2 :=
    fun holder hmem => (hheld₃.isHolder hmem).holdsReads
  refine ⟨r.known, holders, hplaces₃, rfl, hheld₃.distinct, ?_, fun _ => mem_readClasses,
    fun holder hmem => ⟨hholds holder hmem, fun htyped name load v hread =>
      (hholds holder hmem).stands htyped hread⟩⟩
  rw [hheld₃.owners_eq, firsts_staticLoads]

/-! A state that reads a field of one class in an alternative, one of another class in the body of a
function, and then another of the first class. -/

namespace Counters

def loadOf (className name : String) : Term :=
  .fieldLoad (.field (.statics (.class className)) .int name)

def state : SymbolicState :=
  .choice [.basic [⟨.path, .equal (loadOf "Config" "counter") (.int 2), {}⟩],
    .basic [⟨.state, .equal (.value .object "f")
        (.lambda .object [] (.basic [⟨.path, .equal (.int 7) (loadOf "Limits" "max"), {}⟩])), {}⟩,
      ⟨.path, .equal (loadOf "Config" "step") (loadOf "Config" "unset"), {}⟩]]

def model : HeapModel where
  values := [(loadOf "Config" "counter", .int 2), (loadOf "Limits" "max", .int 7),
    (loadOf "Config" "step", .int 1)]

def main : MethodInfo := ⟨⟨"Main", "main", "()V"⟩, [], .void, true, false, false⟩

theorem hasTypedStatics_state : HasTypedStatics state := by
  have hall : (state.terms.all fun t => match staticField? t with
      | some (className, name) =>
        Term.fieldLoad (.field (.statics (.class className)) t.type name) == t
      | none => true) = true := by decide +kernel
  intro t className name hterm hfield
  have hbeq := List.all_eq_true.mp hall t (State.mem_terms.mpr hterm)
  simp only [hfield] at hbeq
  exact (eq_of_beq_staticField (by rw [hfield]; rfl) hbeq).symm

theorem reads_max : Reads model.toModel state "Limits" "max" (loadOf "Limits" "max") (.int 7) := by
  have hsome : state.terms.contains (loadOf "Limits" "max") = true := by decide +kernel
  rw [← List.any_beq'] at hsome
  obtain ⟨t, ht, hbeq⟩ := List.any_eq_true.mp hsome
  have hstatic : (staticField? (loadOf "Limits" "max")).isSome = true := rfl
  obtain rfl := eq_of_beq_staticField hstatic hbeq
  exact ⟨State.mem_terms.mp ht, rfl, by decide +kernel⟩

theorem state_reads : ∃ (p : Parameters Handle) (a : Arena) (names' : NameSupply)
    (known : List (Nat × Handle)) (holders : List (String × Handle)),
    (start (parameters model.toModel main state)).run {} = ((.ok p, a), names') ∧
      Places model.toModel a known ∧ p.statics = holders.map (·.2) ∧ p.statics.Nodup ∧
      holders.map (·.1) = ["Config", "Limits"] ∧ HasTypedStatics state ∧
      ∃ h ∈ p.statics, ∃ child, a.at? h (.field "max" .int) = some child ∧
        Stands a (fun address k => (address, k) ∈ known) (.int 7) .int child := by
  have houtcome : ((start (parameters model.toModel main state)).run {}).1.1.toOption.isSome =
      true := by decide +kernel
  have hclasses : readClasses model.toModel state = ["Config", "Limits"] := by decide +kernel
  generalize hrun : (start (parameters model.toModel main state)).run {} = result at houtcome
  obtain ⟨⟨outcome, a⟩, names'⟩ := result
  cases outcome with
  | error => cases houtcome
  | ok p =>
    obtain ⟨known, holders, hplaces, hstatics, hnodup, horder, -, hholders⟩ :=
      statics_are_reads model.toModel main state hrun
    rw [hclasses] at horder
    have hmem : "Limits" ∈ holders.map (·.1) := by rw [horder]; decide
    obtain ⟨⟨className, h⟩, hholder, rfl⟩ := List.mem_map.mp hmem
    obtain ⟨child, hchild, hstands⟩ :=
      (hholders _ hholder).2 hasTypedStatics_state _ _ _ reads_max
    exact ⟨p, a, names', known, holders, rfl, hplaces, hstatics, hnodup, horder,
      hasTypedStatics_state, h, hstatics ▸ List.mem_map_of_mem hholder, child, hchild, hstands⟩

end Counters

end Reanimation
end Concolic
