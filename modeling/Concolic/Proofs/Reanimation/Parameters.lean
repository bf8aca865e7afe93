import Concolic.Proofs.Memory.Sets
import Concolic.Proofs.Reanimation.Heap

/-!
# The parameters of a call come to life

The receiver, the arguments and the static fields that a state reads are built one after the other
from what the model gives their terms. All of them share one heap: an address has one node, however
often and through whatever it is referred to, and the addresses that have a node are those that
references lead to from the values of the terms.

## Main statement

* `Reanimation.parameters_mirror` — parameters reproduce the heap of the model.
-/

namespace Concolic

theorem Arena.default_nullable (a : Arena) (type : ValueType) :
    a.default type true = pure (a.constant (Literal.defaultOf type)) := by
  cases type <;> rfl

namespace Reanimation

variable {m : HeapModel} {info : MethodInfo} {s : SymbolicState} {r r' : Reanimation} {a : Arena}
  {placed placed' : Nat → Handle → Prop} {found after : List (Nat × ValueType)} {t : Term}
  {ts : List Term} {h : Handle}

/-! ## The values of terms -/

/-- The references among the values of terms, each with the type of the term. -/
def roots (m : HeapModel) (ts : List Term) : List (ValueType × Nat) :=
  ts.filterMap fun t => (m.toModel.evaluate t).bind fun v => HeapModel.reference? (t.type, v)

/-- The handle is the value of the term: what the model gives it, or else the default of its
type. -/
def IsValueOf (m : HeapModel) (a : Arena) (placed : Nat → Handle → Prop) (t : Term) (h : Handle) :
    Prop :=
  match m.toModel.evaluate t with
  | some v => Stands a placed v t.type h
  | none => a.node h = .constant (Literal.defaultOf t.type) ∧ h.index < a.size

theorem roots_cons (m : HeapModel) (t : Term) (ts : List Term) :
    roots m (t :: ts) = roots m [t] ++ roots m ts := by
  rw [roots, roots, roots, ← List.filterMap_append, List.singleton_append]

theorem roots_of_some {v : ModelValue} (hv : m.toModel.evaluate t = some v) :
    roots m [t] = (HeapModel.reference? (t.type, v)).toList := by
  rw [roots, List.filterMap_eq_flatMap_toList, List.flatMap_singleton, hv, Option.bind_some]

theorem roots_of_none (hv : m.toModel.evaluate t = none) : roots m [t] = [] := by
  simp [roots, hv]

theorem IsValueOf.mono {b : Arena} (hplaced : ∀ address h, placed address h → placed' address h)
    (hsize : a.size ≤ b.size)
    (hconstants : ∀ h : Handle, h.index < a.size → (a.node h).isConstant = true →
      b.node h = a.node h)
    (hvalue : IsValueOf m a placed t h) : IsValueOf m b placed' t h := by
  cases hv : m.toModel.evaluate t with
  | some v =>
    simp only [IsValueOf, hv] at hvalue ⊢
    exact hvalue.mono hplaced hsize hconstants
  | none =>
    simp only [IsValueOf, hv] at hvalue ⊢
    obtain ⟨hnode, hlt⟩ := hvalue
    rw [hconstants h hlt (by rw [hnode]; rfl)]
    exact ⟨hnode, hlt.trans_le hsize⟩

theorem Grows.isValueOf {isOpen : Handle → Prop} (hgrows : Grows m isOpen r r')
    (hvalue : IsValueOf m r.arena r.Knows t h) : IsValueOf m r'.arena r'.Knows t h :=
  hvalue.mono (fun _ _ hknown => hgrows.suffix.subset hknown) hgrows.size_le hgrows.constants

theorem Runs.value {v : ModelValue} {type : ValueType}
    (hrun : Runs (Reanimation.value m.toModel v type) r h r') (hr : Holds m found r) :
    ∃ after, Extends m (fun _ => False) (HeapModel.reference? (type, v)).toList found r after r' ∧
      Stands r'.arena r'.Knows v type h := by
  have hfuel := (card_unvisited_le m r).trans (Nat.le_succ _)
  exact Builds.slotValue (heapValue_builds m (m.toModel.heapSize + 1)) hrun hr hfuel

theorem Runs.ofTerm (hrun : Runs (Reanimation.ofTerm m.toModel t) r h r') (hr : Holds m found r) :
    ∃ after, Extends m (fun _ => False) (roots m [t]) found r after r' ∧
      IsValueOf m r'.arena r'.Knows t h := by
  cases hv : m.toModel.evaluate t with
  | some v =>
    simp only [Reanimation.ofTerm, IsValueOf, hv] at hrun ⊢
    rw [roots_of_some hv]
    exact hrun.value hr
  | none =>
    simp only [Reanimation.ofTerm, IsValueOf, hv] at hrun ⊢
    obtain ⟨names, names', b, hdefault, rfl⟩ := runs_addNamed hrun
    rw [Arena.default_nullable] at hdefault
    cases hdefault
    rw [roots_of_none hv]
    refine ⟨found, .push hr rfl, Arena.node_push_new r.arena _, ?_⟩
    change r.arena.size < (r.arena.push _).2.size
    rw [Arena.size_push]
    omega

theorem Runs.ofTerms {hs : List Handle}
    (hrun : Runs (ts.mapM (Reanimation.ofTerm m.toModel)) r hs r') (hr : Holds m found r) :
    ∃ after, Extends m (fun _ => False) (roots m ts) found r after r' ∧
      List.Forall₂ (IsValueOf m r'.arena r'.Knows) ts hs := by
  induction ts generalizing r found hs with
  | nil =>
    rw [List.mapM_nil] at hrun
    obtain ⟨rfl, rfl⟩ := runs_pure hrun
    exact ⟨found, .refl hr, .nil⟩
  | cons t ts ih =>
    rw [List.mapM_cons] at hrun
    obtain ⟨h, r₁, hfirst, hrest⟩ := hrun.bind
    obtain ⟨hs', r₂, hrest, hpure⟩ := hrest.bind
    obtain ⟨rfl, rfl⟩ := runs_pure hpure
    obtain ⟨between, hextends₁, hvalue⟩ := hfirst.ofTerm hr
    obtain ⟨after, hextends₂, hvalues⟩ := ih hrest hextends₁.holds
    rw [roots_cons]
    exact ⟨after, hextends₁.trans hextends₂ fun _ _ _ => not_false,
      .cons (hextends₂.grows.isValueOf hvalue) hvalues⟩

/-! ## Static fields -/

/-- The class and the slot of the static field that a term reads, with what the model gives it. -/
def staticValue? (m : HeapModel) (load : Term) : Option (String × Slot × ValueType × ModelValue) :=
  match staticField? load, m.toModel.evaluate load with
  | some (owner, name), some v => some (owner, .field name load.type, load.type, v)
  | _, _ => none

/-- The entries of one class. -/
def entriesOf (done : List (String × Slot × ValueType × ModelValue)) (owner : String) :
    List (Slot × ValueType × ModelValue) := (done.filter (·.1 == owner)).map (·.2)

/-- The handle is that of the static fields of a class, which are filled from the entries. -/
structure IsHolder (a : Arena) (placed : Nat → Handle → Prop)
    (entries : List (Slot × ValueType × ModelValue)) (owner : String) (h : Handle) : Prop where
  inside : h.index < a.size
  type_eq : (a.node h).type = .class owner
  shape_eq : (a.node h).shape = .statics
  filled : IsFilled a placed entries (a.node h)

/-- Each class that has come up has one holder, filled from the entries that are done. -/
structure Held (r : Reanimation) (done : List (String × Slot × ValueType × ModelValue))
    (owners : List String) (holders : List (String × Handle)) : Prop where
  owners_eq : holders.map (·.1) = firsts owners
  covered : ∀ entry ∈ done, entry.1 ∈ owners
  distinct : (holders.map (·.2)).Nodup
  isHolder : ∀ {owner : String} {h : Handle}, (owner, h) ∈ holders →
    IsHolder r.arena r.Knows (entriesOf done owner) owner h

theorem IsHolder.isConstant_eq {entries : List (Slot × ValueType × ModelValue)} {owner : String}
    (hholder : IsHolder a placed entries owner h) : (a.node h).isConstant = false := by
  simp [Node.isConstant, Node.literal?, hholder.shape_eq]

section holders
variable {owner : String} {owners : List String} {holders holders' : List (String × Handle)}
  {done : List (String × Slot × ValueType × ModelValue)} {loads : List Term} {load : Term}

theorem entriesOf_concat (done : List (String × Slot × ValueType × ModelValue))
    (entry : String × Slot × ValueType × ModelValue) (owner : String) :
    entriesOf (done ++ [entry]) owner =
      entriesOf done owner ++ if entry.1 = owner then [entry.2] else [] := by
  by_cases howner : entry.1 = owner <;> simp [entriesOf, howner]

theorem Held.mono {isOpen : Handle → Prop} (hheld : Held r done owners holders)
    (hgrows : Grows m isOpen r r') (hclosed : ∀ holder ∈ holders, ¬isOpen holder.2) :
    Held r' done owners holders := by
  refine ⟨hheld.owners_eq, hheld.covered, hheld.distinct, fun hmem => ?_⟩
  obtain ⟨hinside, htype, hshape, hfilled⟩ := hheld.isHolder hmem
  have hnode := hgrows.kept _ hinside (hclosed _ hmem)
  exact ⟨hinside.trans_le hgrows.size_le, hnode ▸ htype, hnode ▸ hshape,
    hnode ▸ hgrows.isFilled hfilled⟩

/-- No address is a holder's. -/
theorem Held.closed (hheld : Held r done owners holders) (hr : Holds m found r) :
    ∀ known ∈ r.known, known.2 ∉ holders.map (·.2) := by
  rintro ⟨address, h⟩ hknown hmem
  obtain ⟨⟨owner, k⟩, hholder, heq⟩ := List.mem_map.mp hmem
  simp only at heq
  subst heq
  obtain ⟨place, hplace, rfl⟩ := List.mem_map.mp (hr.keys ▸ List.mem_map_of_mem hknown)
  have hshape := (hr.isAt hplace hknown).shape_eq
  rw [(hheld.isHolder hholder).shape_eq, (hheld.isHolder hholder).type_eq] at hshape
  cases hshape

/-- The holder of a class that comes up is empty at first. -/
theorem Held.new (hheld : Held r done owners holders) (hnew : owner ∉ holders.map (·.1)) :
    Held { r with arena := (r.arena.statics owner).2 } done (owners ++ [owner])
      (holders ++ [(owner, (r.arena.statics owner).1)]) := by
  have hany : ¬(firsts owners).any (· == owner) = true := by
    rwa [List.any_beq', List.contains_iff_mem, ← hheld.owners_eq]
  have hnone : entriesOf done owner = [] := by
    rw [entriesOf, List.map_eq_nil_iff, List.filter_eq_nil_iff]
    intro entry hentry hbeq
    rw [hheld.owners_eq, mem_firsts] at hnew
    exact hnew (eq_of_beq hbeq ▸ hheld.covered entry hentry)
  -- no entry is about the new class, and the other holders are as before
  have hgrows : Grows {} (fun _ => False) r { r with arena := (r.arena.statics owner).2 } := .push _
  have hnode : (r.arena.statics owner).2.node (r.arena.statics owner).1 =
      ⟨.statics (.class owner), .class owner, .statics, []⟩ := Arena.node_push_new r.arena _
  have hsize : (r.arena.statics owner).2.size = r.arena.size + 1 := Arena.size_push r.arena _
  have hindex : (r.arena.statics owner).1.index = r.arena.size := rfl
  have hinside : (r.arena.statics owner).1.index < (r.arena.statics owner).2.size := by omega
  refine ⟨?_, fun entry hentry => List.mem_append_left _ (hheld.covered entry hentry), ?_, ?_⟩
  · rw [firsts_concat, addNew, if_neg hany, List.map_append, hheld.owners_eq]
    rfl
  · rw [List.map_append, List.map_singleton, ← List.concat_eq_append, List.nodup_concat]
    refine ⟨fun hmem => ?_, hheld.distinct⟩
    obtain ⟨⟨o, k⟩, hholder, heq⟩ := List.mem_map.mp hmem
    have hlt := (hheld.isHolder hholder).inside
    simp only at heq
    rw [heq] at hlt
    omega
  · intro o k hmem
    rcases List.mem_append.mp hmem with hmem | hmem
    · exact (hheld.mono hgrows fun _ _ => not_false).isHolder hmem
    · cases List.mem_singleton.mp hmem
      refine ⟨hinside, by rw [hnode], by rw [hnode], ?_⟩
      rw [hnode, hnone]
      exact .of_empty rfl

/-- The holder of a class is there, or is made. -/
theorem Runs.holderOf_cases
    (hrun : Runs (Reanimation.holderOf holders owner) r (h, holders') r') :
    (owner, h) ∈ holders ∧ holders' = holders ∧ r' = r ∨
      owner ∉ holders.map (·.1) ∧ h = (r.arena.statics owner).1 ∧
        holders' = holders ++ [(owner, (r.arena.statics owner).1)] ∧
        r' = { r with arena := (r.arena.statics owner).2 } := by
  cases hlookup : holders.lookup owner with
  | some k =>
    simp only [Reanimation.holderOf, hlookup] at hrun
    obtain ⟨heq, rfl⟩ := runs_pure hrun
    cases heq
    obtain ⟨front, back, hsplit, -⟩ := List.lookup_eq_some_iff.mp hlookup
    exact .inl ⟨by simp [hsplit], rfl, rfl⟩
  | none =>
    simp only [Reanimation.holderOf, hlookup] at hrun
    obtain ⟨k, r₁, hpush, hreturn⟩ := hrun.bind
    obtain ⟨heq, rfl⟩ := runs_pure hreturn
    obtain ⟨rfl, rfl⟩ := runs_modifyGet hpush
    cases heq
    have hnew : owner ∉ holders.map (·.1) := by
      intro hmem
      obtain ⟨holder, hholder, rfl⟩ := List.mem_map.mp hmem
      simpa using List.lookup_eq_none_iff.mp hlookup holder hholder
    exact .inr ⟨hnew, rfl, rfl, rfl⟩

/-- A class that comes up again has its holder already. -/
theorem Held.again (hheld : Held r done owners holders) (hmem : (owner, h) ∈ holders) :
    Held r done (owners ++ [owner]) holders := by
  have hany : (firsts owners).any (· == owner) = true := by
    rw [List.any_beq', List.contains_iff_mem, ← hheld.owners_eq]
    exact List.mem_map_of_mem hmem
  have hcovered : ∀ entry ∈ done, entry.1 ∈ owners ++ [owner] := fun entry hentry =>
    List.mem_append_left _ (hheld.covered entry hentry)
  refine ⟨?_, hcovered, hheld.distinct, hheld.isHolder⟩
  rw [firsts_concat, addNew, if_pos hany, hheld.owners_eq]

/-- With the holder of a class that comes up, each class has its holder again. -/
theorem Runs.held_holderOf
    (hrun : Runs (Reanimation.holderOf holders owner) r (h, holders') r')
    (hheld : Held r done owners holders) :
    Held r' done (owners ++ [owner]) holders' ∧ holders <+: holders' ∧ (owner, h) ∈ holders' := by
  rcases hrun.holderOf_cases with ⟨hmem, rfl, rfl⟩ | ⟨hnew, rfl, rfl, rfl⟩
  · exact ⟨hheld.again hmem, List.prefix_rfl, hmem⟩
  · exact ⟨hheld.new hnew, List.prefix_append _ _, by simp⟩

theorem Runs.holderOf (hrun : Runs (Reanimation.holderOf holders owner) r (h, holders') r')
    (hr : Holds m found r) (hheld : Held r done owners holders) :
    Extends m (fun _ => False) [] found r found r' ∧
      Held r' done (owners ++ [owner]) holders' ∧ holders <+: holders' ∧ (owner, h) ∈ holders' := by
  refine ⟨?_, hrun.held_holderOf hheld⟩
  rcases hrun.holderOf_cases with ⟨-, -, rfl⟩ | ⟨-, -, -, rfl⟩
  · exact .refl hr
  · exact .push hr rfl

/-- A value is put into the holder of its class. -/
theorem Held.fill {child : Handle} {slot : Slot} {type : ValueType} {v : ModelValue}
    (hheld : Held r done owners holders) (howner : owner ∈ owners) (hmem : (owner, h) ∈ holders)
    (hchild : Stands r.arena r.Knows v type child) :
    Held { r with arena := r.arena.fillSlot h slot child } (done ++ [(owner, slot, type, v)]) owners
      holders := by
  have hholder := hheld.isHolder hmem
  have hgrows : Grows {} (· = h) r { r with arena := r.arena.fillSlot h slot child } :=
    .fillSlot slot child hholder.isConstant_eq
  have hnode := Arena.node_fillSlot_self slot child hholder.inside
  refine ⟨hheld.owners_eq, ?_, hheld.distinct, fun {o k} hother => ?_⟩
  · rw [List.forall_mem_append, List.forall_mem_singleton]
    exact ⟨hheld.covered, howner⟩
  · by_cases hself : k = h
    · subst hself
      cases List.inj_on_of_nodup_map hheld.distinct hother hmem rfl
      have hentry : Stands r.arena r.Knows (slot, type, v).2.2 (slot, type, v).2.1 child := hchild
      have hfilled := hgrows.isFilled (hholder.filled.concat hentry)
      rw [← hnode] at hfilled
      obtain ⟨htype, hshape⟩ := Arena.shape_node_fillSlot r.arena k slot child k
      refine ⟨hholder.inside.trans_le hgrows.size_le, htype.trans hholder.type_eq,
        hshape.trans hholder.shape_eq, ?_⟩
      rwa [entriesOf_concat, if_pos rfl]
    · have hne : owner ≠ o := by
        rintro rfl
        have howners : (holders.map (·.1)).Nodup := hheld.owners_eq ▸ nodup_firsts owners
        cases List.inj_on_of_nodup_map howners hother hmem rfl
        exact hself rfl
      rw [entriesOf_concat, if_neg hne, List.append_nil]
      obtain ⟨hinside, htype, hshape, hfilled⟩ := hheld.isHolder hother
      have hkept := hgrows.kept k hinside hself
      exact ⟨hinside.trans_le hgrows.size_le, hkept ▸ htype, hkept ▸ hshape,
        hkept ▸ hgrows.isFilled hfilled⟩

/-- A load of a static field that the model evaluates is put into the holder of its class; any
other is passed over. -/
theorem Runs.fillHolders_step {m : Model} {name : String}
    (hrun : Runs (Reanimation.fillHolders m (load :: loads) holders) r holders' r')
    (hfield : staticField? load = some (owner, name)) :
    m.evaluate load = none ∧ Runs (Reanimation.fillHolders m loads holders) r holders' r' ∨
      ∃ v, m.evaluate load = some v ∧
        ∃ h between r₁ child r₂, Runs (Reanimation.holderOf holders owner) r (h, between) r₁ ∧
          Runs (Reanimation.value m v load.type) r₁ child r₂ ∧
          Runs (Reanimation.fillHolders m loads between)
            { r₂ with arena := r₂.arena.fillSlot h (.field name load.type) child } holders' r' := by
  unfold Reanimation.fillHolders at hrun
  cases hv : m.evaluate load with
  | none =>
    simp only [hfield, hv] at hrun
    exact .inl ⟨rfl, hrun⟩
  | some v =>
    simp only [hfield, hv] at hrun
    obtain ⟨⟨h, between⟩, r₁, hholder, hrest⟩ := hrun.bind
    obtain ⟨child, r₂, hchild, hrest⟩ := hrest.bind
    obtain ⟨_, r₃, hedit, hrest⟩ := hrest.bind
    obtain rfl := runs_edit hedit
    exact .inr ⟨v, rfl, h, between, r₁, child, r₂, hholder, hchild, hrest⟩

theorem Runs.fillHolders_cons
    (hrun : Runs (Reanimation.fillHolders m.toModel (load :: loads) holders) r holders' r')
    (hstatic : (staticField? load).isSome = true) :
    m.toModel.evaluate load = none ∧ staticValue? m load = none ∧
        Runs (Reanimation.fillHolders m.toModel loads holders) r holders' r' ∨
      ∃ owner slot v, m.toModel.evaluate load = some v ∧
        staticValue? m load = some (owner, slot, load.type, v) ∧
        ∃ h between r₁ child r₂, Runs (Reanimation.holderOf holders owner) r (h, between) r₁ ∧
          Runs (Reanimation.value m.toModel v load.type) r₁ child r₂ ∧
          Runs (Reanimation.fillHolders m.toModel loads between)
            { r₂ with arena := r₂.arena.fillSlot h slot child } holders' r' := by
  obtain ⟨⟨owner, name⟩, hfield⟩ := Option.isSome_iff_exists.mp hstatic
  rcases hrun.fillHolders_step hfield with ⟨hnone, hrest⟩ | ⟨v, hsome, hput⟩
  · exact .inl ⟨hnone, by simp only [staticValue?, hfield, hnone], hrest⟩
  · exact .inr ⟨owner, _, v, hsome, by simp only [staticValue?, hfield, hsome], hput⟩

/-- The static fields that have a value are put into the holders of their classes. -/
theorem Runs.fillHolders
    (hrun : Runs (Reanimation.fillHolders m.toModel loads holders) r holders' r')
    (hstatic : ∀ load ∈ loads, (staticField? load).isSome = true) (hr : Holds m found r)
    (hheld : Held r done (done.map (·.1)) holders) :
    ∃ after, Extends m (· ∈ holders'.map (·.2)) (roots m loads) found r after r' ∧
      holders <+: holders' ∧ Held r' (done ++ loads.filterMap (staticValue? m))
        ((done ++ loads.filterMap (staticValue? m)).map (·.1)) holders' := by
  induction loads generalizing r found done holders with
  | nil =>
    obtain ⟨rfl, rfl⟩ := runs_pure hrun
    refine ⟨found, .refl hr, List.prefix_rfl, ?_⟩
    rwa [List.filterMap_nil, List.append_nil]
  | cons load loads ih =>
    rw [List.forall_mem_cons] at hstatic
    rw [roots_cons, List.filterMap_cons]
    rcases hrun.fillHolders_cons hstatic.1 with ⟨hnone, hentry, hrest⟩ |
      ⟨owner, slot, v, hsome, hentry, h, between, r₁, child, r₂, hholder, hvalue, hrest⟩
    · rw [roots_of_none hnone, hentry]
      exact ih hrest hstatic.2 hr hheld
    · rw [roots_of_some hsome, hentry]
      -- the holder is there, the value is built, and then put into its slot
      obtain ⟨hmade, hheld₁, hprefix₁, hmem⟩ := hholder.holderOf hr hheld
      obtain ⟨middle, hbuilt, hstands⟩ := hvalue.value hmade.holds
      have hheld₂ := hheld₁.mono hbuilt.grows fun _ _ => not_false
      have hconstant := (hheld₂.isHolder hmem).isConstant_eq
      have hput : Extends m (· = h) [] middle r₂ middle _ :=
        .fillSlot hbuilt.holds slot (hbuilt.holds.lt_size hstands) hconstant
      have hheld₃ : Held { r₂ with arena := r₂.arena.fillSlot h slot child }
          (done ++ [(owner, slot, load.type, v)]) (done.map (·.1) ++ [owner]) between :=
        hheld₂.fill (by simp) hmem hstands
      have howners : done.map (·.1) ++ [owner] =
          (done ++ [(owner, slot, load.type, v)]).map (·.1) := by simp
      rw [howners] at hheld₃
      -- the rest goes on from there, and no holder is the node of an address
      obtain ⟨after, hdone, hprefix₂, hheld₄⟩ := ih hrest hstatic.2 hput.holds hheld₃
      have hclosed := hheld₄.closed hdone.holds
      have hself : h ∈ holders'.map (·.2) := List.mem_map_of_mem (hprefix₂.subset hmem)
      have hfrom₂ := (hput.mono fun _ heq => heq ▸ hself).trans hdone
        fun known hknown _ => hclosed known (hdone.grows.suffix.subset hknown)
      have hfrom₁ := (hbuilt.mono fun _ => False.elim).trans hfrom₂
        fun known hknown _ => hclosed known (hfrom₂.grows.suffix.subset hknown)
      have hall := (hmade.mono fun _ => False.elim).trans hfrom₁
        fun known hknown _ => hclosed known (hfrom₁.grows.suffix.subset hknown)
      rw [List.append_assoc, List.singleton_append] at hheld₄
      exact ⟨after, hall, hprefix₁.trans hprefix₂, hheld₄⟩

end holders

/-! ## The whole heap -/

/-- The term for the receiver of a method that has one. -/
def receiverTerms (info : MethodInfo) : List Term :=
  if info.isStatic then [] else [.this info.ownerType]

def argumentTerms (info : MethodInfo) : List Term :=
  info.arguments.mapIdx fun index type => .argument type index

/-- The static fields that a state reads. -/
def staticLoads (s : SymbolicState) : List Term := s.collect fun t => (staticField? t).isSome

/-- The terms whose values a call takes. -/
def parameterTerms (info : MethodInfo) (s : SymbolicState) : List Term :=
  receiverTerms info ++ argumentTerms info ++ staticLoads s

/-- The arena has a node of its own for each address that was found, which is what lies there and
has the values that are there in its slots. -/
structure Mirrors (m : HeapModel) (found : List (Nat × ValueType)) (a : Arena)
    (place : Nat → Handle) : Prop where
  valid : a.IsValid
  inside : ∀ address ∈ found.map (·.1), (place address).index < a.size
  injective : ∀ p ∈ found.map (·.1), ∀ q ∈ found.map (·.1), place p = place q → p = q
  isAt : ∀ seen ∈ found, IsAt m seen.1 seen.2 (a.node (place seen.1))
  filled : ∀ address ∈ found.map (·.1),
    IsFilled a (fun p h => h = place p) (m.entriesAt address) (a.node (place address))

/-- The receiver and the arguments are the values of their terms, and each class with a static
field that has a value has a holder, which is filled from the values of its fields. -/
structure Fits (m : HeapModel) (info : MethodInfo) (s : SymbolicState) (a : Arena)
    (placed : Nat → Handle → Prop) (p : Parameters Handle) : Prop where
  receiver : List.Forall₂ (IsValueOf m a placed) (receiverTerms info) p.receiver.toList
  arguments : List.Forall₂ (IsValueOf m a placed) (argumentTerms info) p.arguments
  statics : ∃ holders : List (String × Handle), p.statics = holders.map (·.2) ∧
    holders.map (·.1) = firsts (((staticLoads s).filterMap (staticValue? m)).map (·.1)) ∧
    ∀ holder ∈ holders, IsHolder a placed
      (entriesOf ((staticLoads s).filterMap (staticValue? m)) holder.1) holder.1 holder.2

section whole
variable {p : Parameters Handle} {names names' : NameSupply}

theorem staticField?_of_mem : ∀ t ∈ staticLoads s, (staticField? t).isSome = true := by
  unfold staticLoads State.collect
  refine List.foldlRecOn (motive := fun seen => ∀ t ∈ seen, (staticField? t).isSome = true) _ _
    nofun ?_
  intro seen hseen t ht
  split
  · exact hseen
  · rw [List.forall_mem_append, List.forall_mem_singleton]
    exact ⟨hseen, (List.mem_filter.mp ht).2⟩

theorem holds_empty (m : HeapModel) : Holds m [] {} :=
  ⟨Arena.isValid_empty, rfl, .nil, .nil, nofun, nofun⟩

theorem held_empty : Held {} [] [] [] := ⟨rfl, nofun, .nil, nofun⟩

theorem runs_of_start {α : Type} {build : Build α} {v : α}
    (hrun : (start build).run names = ((.ok v, a), names')) :
    ∃ r, Runs build {} v r ∧ r.arena = a := by
  unfold start at hrun
  rw [StateT.run_bind] at hrun
  generalize hresult : StateT.run (build.run {}) names = result at hrun
  obtain ⟨⟨outcome, r⟩, names₁⟩ := result
  cases hrun
  exact ⟨r, ⟨names, _, hresult⟩, rfl⟩

/-- Build the receiver of a method, if it has one. -/
def receiverOf (m : Model) (info : MethodInfo) : Build (Option Handle) :=
  if info.isStatic then pure none else some <$> Reanimation.ofTerm m (.this info.ownerType)

theorem parameters_eq (m : Model) (info : MethodInfo) (s : SymbolicState) :
    parameters m info s = (do
      let receiver ← receiverOf m info
      let arguments ← (argumentTerms info).mapM (Reanimation.ofTerm m)
      let holders ← Reanimation.fillHolders m (staticLoads s) []
      return { receiver, arguments, statics := holders.map (·.2) }) := by
  unfold parameters receiverOf
  cases info.isStatic <;> rfl

theorem Runs.receiverOf {receiver : Option Handle}
    (hrun : Runs (Reanimation.receiverOf m.toModel info) r receiver r') (hr : Holds m found r) :
    ∃ after, Extends m (fun _ => False) (roots m (receiverTerms info)) found r after r' ∧
      List.Forall₂ (IsValueOf m r'.arena r'.Knows) (receiverTerms info) receiver.toList := by
  unfold Reanimation.receiverOf at hrun
  unfold receiverTerms
  cases hstatic : info.isStatic with
  | true =>
    rw [hstatic, if_pos rfl] at hrun
    obtain ⟨rfl, rfl⟩ := runs_pure hrun
    exact ⟨found, .refl hr, .nil⟩
  | false =>
    rw [hstatic, if_neg Bool.false_ne_true, map_eq_pure_bind] at hrun
    obtain ⟨h, r₁, hterm, hpure⟩ := hrun.bind
    obtain ⟨rfl, rfl⟩ := runs_pure hpure
    obtain ⟨after, hextends, hvalue⟩ := hterm.ofTerm hr
    exact ⟨after, hextends, .cons hvalue .nil⟩

/-- What was built for the parameters of a call. -/
theorem Runs.parameters (hrun : Runs (Reanimation.parameters m.toModel info s) {} p r) :
    ∃ found, Discovers m.references (roots m (parameterTerms info s)) [] found ∧
      Holds m found r ∧ (∀ known ∈ r.known,
        IsFilled r.arena r.Knows (m.entriesAt known.1) (r.arena.node known.2)) ∧
      Fits m info s r.arena r.Knows p := by
  rw [parameters_eq] at hrun
  obtain ⟨receiver, r₁, hreceiver, hrest⟩ := hrun.bind
  obtain ⟨arguments, r₂, harguments, hrest⟩ := hrest.bind
  obtain ⟨holders, r₃, hstatics, hreturn⟩ := hrest.bind
  obtain ⟨rfl, rfl⟩ := runs_pure hreturn
  obtain ⟨found₁, hextends₁, hreceiver⟩ := hreceiver.receiverOf (holds_empty m)
  obtain ⟨found₂, hextends₂, harguments⟩ := harguments.ofTerms hextends₁.holds
  have hheld := (held_empty.mono hextends₁.grows nofun).mono hextends₂.grows nofun
  obtain ⟨found₃, hextends₃, -, hheld₃⟩ :=
    hstatics.fillHolders staticField?_of_mem hextends₂.holds hheld
  -- all of it is one growth from nothing, so all that is known is done
  have hclosed := hheld₃.closed hextends₃.holds
  have hfrom₁ := (hextends₂.mono fun _ => False.elim).trans hextends₃
    fun known hknown _ => hclosed known (hextends₃.grows.suffix.subset hknown)
  have hall := (hextends₁.mono fun _ => False.elim).trans hfrom₁
    fun known hknown _ => hclosed known (hfrom₁.grows.suffix.subset hknown)
  refine ⟨found₃, ?_, hall.holds, fun known hknown => hall.grows.done known hknown nofun, ?_, ?_,
    ?_⟩
  · rw [parameterTerms, List.append_assoc, roots, List.filterMap_append, List.filterMap_append]
    exact hall.walk
  · exact hreceiver.imp fun _ _ hvalue => hfrom₁.grows.isValueOf hvalue
  · exact harguments.imp fun _ _ hvalue => hextends₃.grows.isValueOf hvalue
  · exact ⟨holders, rfl, hheld₃.owners_eq, fun holder hmem => hheld₃.isHolder hmem⟩

/-- Each address that is known has one place. -/
theorem Holds.exists_place (hr : Holds m found r) :
    ∃ place : Nat → Handle, ∀ address h, r.Knows address h → h = place address := by
  have hkeys : (r.known.map (·.1)).Nodup := hr.keys ▸ hr.nodup
  have hplace (address : Nat) : ∃ k, ∀ h, r.Knows address h → h = k := by
    by_cases hknown : ∃ k, r.Knows address k
    · obtain ⟨k, hk⟩ := hknown
      refine ⟨k, fun h hh => ?_⟩
      cases List.inj_on_of_nodup_map hkeys hh hk rfl
      rfl
    · exact ⟨⟨0⟩, fun h hh => absurd ⟨h, hh⟩ hknown⟩
  choose place hplace using hplace
  exact ⟨place, hplace⟩

/-- Parameters that are built from a model reproduce its heap: each address that references lead
to from the values of the terms has one node, which is as the model has it, and the parameters are
the values of their terms. The building ends by itself, whatever is shared or cyclic. -/
theorem parameters_mirror (m : HeapModel) (info : MethodInfo) (s : SymbolicState) :
    (∀ extra, heapValue m.toModel (m.toModel.heapSize + 1 + extra) =
      heapValue m.toModel (m.toModel.heapSize + 1)) ∧
    ∀ {names names' : NameSupply} {p : Parameters Handle} {a : Arena},
      (start (parameters m.toModel info s)).run names = ((.ok p, a), names') →
      ∃ found place, Discovers m.references (roots m (parameterTerms info s)) [] found ∧
        (∀ address, address ∈ found.map (·.1) ↔
          Reached m.references (roots m (parameterTerms info s)) address) ∧
        Mirrors m found a place ∧ Fits m info s a (fun address h => h = place address) p := by
  refine ⟨heapValue_add_fuel m, fun {names names' p a} hrun => ?_⟩
  obtain ⟨r, hruns, rfl⟩ := runs_of_start hrun
  obtain ⟨found, hwalk, hr, hdone, hfits⟩ := hruns.parameters
  obtain ⟨place, hplace⟩ := hr.exists_place
  have hknown (address : Nat) (haddress : address ∈ found.map (·.1)) :
      (address, place address) ∈ r.known := by
    rw [← hr.keys] at haddress
    obtain ⟨⟨_, h⟩, hmem, rfl⟩ := List.mem_map.mp haddress
    cases hplace _ h hmem
    exact hmem
  have hstands {v : ModelValue} {type : ValueType} {h : Handle}
      (hv : Stands r.arena r.Knows v type h) :
      Stands r.arena (fun address h => h = place address) v type h :=
    hv.mono hplace (Nat.le_refl _) fun _ _ _ => rfl
  have hvalue {t : Term} {h : Handle} (ht : IsValueOf m r.arena r.Knows t h) :
      IsValueOf m r.arena (fun address h => h = place address) t h :=
    ht.mono hplace (Nat.le_refl _) fun _ _ _ => rfl
  refine ⟨found, place, hwalk, hwalk.mem_iff_reached, ?_, ?_⟩
  · refine ⟨hr.valid, fun address haddress => hr.inside _ (hknown address haddress), ?_, ?_, ?_⟩
    · intro p hp q hq heq
      cases List.inj_on_of_nodup_map hr.injective (hknown p hp) (hknown q hq) heq
      rfl
    · intro seen hmem
      exact hr.isAt hmem (hknown _ (List.mem_map_of_mem hmem))
    · intro address haddress
      exact (hdone _ (hknown address haddress)).mono hstands
  · refine ⟨hfits.receiver.imp fun _ _ => hvalue, hfits.arguments.imp fun _ _ => hvalue, ?_⟩
    obtain ⟨holders, hholders, howners, hisHolder⟩ := hfits.statics
    refine ⟨holders, hholders, howners, fun holder hmem => ?_⟩
    obtain ⟨hinside, htype, hshape, hfilled⟩ := hisHolder holder hmem
    exact ⟨hinside, htype, hshape, hfilled.mono hstands⟩

end whole

/-! A receiver that leads to itself is built once, and leads to itself. -/

namespace Loop

def node : ValueType := .class "Node"

def model : HeapModel where
  values := [(.this node, .reference 1)]
  objects := [(1, ⟨"Node", [⟨"next", node, .reference 1⟩, ⟨"value", .int, .int 3⟩]⟩)]

def visit : MethodInfo := ⟨⟨"Node", "visit", "()V"⟩, [], .void, false, false, false⟩

theorem model_mirrored : ∃ p a names' found place,
    (start (parameters model.toModel visit (.basic []))).run {} = ((.ok p, a), names') ∧
      Mirrors model found a place ∧
      Fits model visit (.basic []) a (fun address h => h = place address) p ∧
      found = [(1, node)] ∧ p.receiver = some (place 1) ∧
      a.at? (place 1) (.field "next" node) = some (place 1) := by
  have houtcome : ((start (parameters model.toModel visit (.basic []))).run {}).1.1.toOption =
      some ⟨some ⟨0⟩, [], []⟩ := by decide +kernel
  have hnext : ((start (parameters model.toModel visit (.basic []))).run {}).1.2.at? ⟨0⟩
      (.field "next" node) = some ⟨0⟩ := by decide +kernel
  have hroots : roots model (parameterTerms visit (.basic [])) = [(node, 1)] := by
    decide +kernel
  generalize hrun : (start (parameters model.toModel visit (.basic []))).run {} = result
    at houtcome hnext
  obtain ⟨⟨outcome, a⟩, names'⟩ := result
  cases outcome with
  | error => cases houtcome
  | ok p =>
    obtain rfl : p = ⟨some ⟨0⟩, [], []⟩ := Option.some_inj.mp houtcome
    obtain ⟨found, place, hwalk, -, hmirrors, hfits⟩ :=
      (parameters_mirror model visit (.basic [])).2 hrun
    have hplace : (⟨0⟩ : Handle) = place 1 := by
      cases hfits.receiver with
      | cons hvalue =>
        have hvalue : Stands a (fun address h => h = place address) (.reference 1) node ⟨0⟩ :=
          hvalue
        cases hvalue with
        | reference hplace => exact hplace
        | literal hvalue => exact absurd rfl (hvalue 1)
    have hfound : Discovers model.references [(node, 1)] [] [(1, node)] :=
      .new (by simp) (.known (by simp) .nil) .nil
    rw [hroots] at hwalk
    exact ⟨_, a, names', found, place, rfl, hmirrors, hfits, hwalk.unique hfound,
      congrArg some hplace, hplace ▸ hnext⟩

end Loop

end Reanimation
end Concolic
