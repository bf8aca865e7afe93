import Concolic.Arena.Change
import Concolic.Proofs.Arena.Validity
import Concolic.Proofs.Inlining.Names
import Mathlib.Data.List.Perm.Subperm

/-!
# The run of a copy

A copy goes depth first: it gives a value its copy before it goes on to what the slots of the
value lead to, and it fills the slots of the copy as it comes back. So while slots are still empty,
the values that have a copy have exactly one each, in the order in which they were come to, and a
value that is come to again is not copied again. Once a value is left, it and everything that got
a copy on the way is done: its slots lead to the copies of what the slots of the original lead to.

## Main statements

* `Arena.copyValue_copies` — what copying a value comes to, from wherever it starts.
* `Arena.copyValue_add_fuel` — the copying ends by itself.
-/

namespace Concolic.Arena

/-! ## The run of a copy -/

section run
variable {c : Copying} {h k : Handle} {fuel : Nat}

theorem copyValue_of_known (hk : c.copies.lookup h = some k) :
    (copyValue fuel h).run c = (k, c) := by
  cases fuel <;> simp [copyValue, hk] <;> rfl

theorem copyValue_succ (hnew : c.copies.lookup h = none) :
    (copyValue (fuel + 1) h).run c = ((c.enter h).1,
      ((copySlots (copyValue fuel) (c.enter h).1 (c.arena.node h).slots).run (c.enter h).2).2) := by
  simp [copyValue, hnew]
  rfl

theorem copySlots_nil (copyChild : Handle → StateM Copying Handle) :
    (copySlots copyChild k []).run c = ((), c) := rfl

theorem copySlots_cons (copyChild : Handle → StateM Copying Handle) (slot : Slot) (child : Handle)
    (rest : List (Slot × Handle)) : (copySlots copyChild k ((slot, child) :: rest)).run c =
      (copySlots copyChild k rest).run
        (((copyChild child).run c).2.fill k slot ((copyChild child).run c).1) := rfl

end run

/-! ## What has a copy -/

/-- Each value has one copy, and the copies follow each other behind the first `first` nodes. -/
inductive Registered (first : Nat) : List (Handle × Handle) → Prop
  | nil : Registered first []
  | cons {copies : List (Handle × Handle)} {h : Handle} : Registered first copies →
      (∀ entry ∈ copies, entry.1 ≠ h) → Registered first ((h, ⟨first + copies.length⟩) :: copies)

namespace Registered

variable {first : Nat} {copies : List (Handle × Handle)} {h k : Handle}

theorem bounds (hcopies : Registered first copies) : ∀ entry ∈ copies,
    first ≤ entry.2.index ∧ entry.2.index < first + copies.length := by
  induction hcopies with
  | nil => nofun
  | @cons copies h _ _ ih =>
    rw [List.forall_mem_cons, List.length_cons]
    refine ⟨⟨Nat.le_add_right _ _, Nat.lt_succ_self _⟩, fun entry hentry => ?_⟩
    have := ih entry hentry
    omega

theorem eq_of_copy (hcopies : Registered first copies) : ∀ entry ∈ copies,
    ∀ other ∈ copies, entry.2 = other.2 → entry = other := by
  induction hcopies with
  | nil => nofun
  | cons hcopies _ ih =>
    intro entry hentry other hother heq
    have hbounds := hcopies.bounds
    rcases List.mem_cons.mp hentry with rfl | hentry
    · rcases List.mem_cons.mp hother with rfl | hother
      · rfl
      · have := (hbounds other hother).2
        rw [← heq] at this
        exact absurd this (Nat.lt_irrefl _)
    · rcases List.mem_cons.mp hother with rfl | hother
      · have := (hbounds entry hentry).2
        rw [heq] at this
        exact absurd this (Nat.lt_irrefl _)
      · exact ih entry hentry other hother heq

theorem exists_original (hcopies : Registered first copies) (hfirst : first ≤ k.index)
    (hk : k.index < first + copies.length) : ∃ h, (h, k) ∈ copies := by
  induction hcopies with
  | nil => exact absurd hk (Nat.not_lt.mpr hfirst)
  | @cons copies h _ _ ih =>
    rw [List.length_cons] at hk
    by_cases hlast : k.index = first + copies.length
    · refine ⟨h, ?_⟩
      rw [← hlast]
      exact List.mem_cons_self ..
    · obtain ⟨original, hmem⟩ := ih (by omega)
      exact ⟨original, List.mem_cons_of_mem _ hmem⟩

theorem lookup_eq_some_iff (hcopies : Registered first copies) :
    copies.lookup h = some k ↔ (h, k) ∈ copies := by
  induction hcopies with
  | nil => simp
  | @cons copies original _ hnew ih =>
    by_cases heq : h = original
    · subst heq
      rw [List.lookup_cons_self, List.mem_cons]
      constructor
      · rintro ⟨rfl⟩
        exact .inl rfl
      · rintro (hmem | hmem)
        · rw [(Prod.mk.inj hmem).2]
        · exact absurd rfl (hnew _ hmem)
    · rw [List.lookup_cons, beq_false_of_ne heq, List.mem_cons, Prod.mk.injEq]
      simp [heq, ih]

theorem not_known (hcopies : Registered first copies) (hnew : copies.lookup h = none) :
    ∀ entry ∈ copies, entry.1 ≠ h := by
  rintro ⟨_, k⟩ hentry rfl
  rw [hcopies.lookup_eq_some_iff.mpr hentry] at hnew
  cases hnew

theorem exists_copy (hcopies : Registered first copies) {size : Nat}
    (hinside : ∀ entry ∈ copies, entry.1.index < size) (hfull : size ≤ copies.length)
    (hh : h.index < size) : ∃ k, (h, k) ∈ copies := by
  have hnodup : (copies.map (·.1.index)).Nodup := by
    rw [List.Nodup, List.pairwise_map]
    have hpairwise : copies.Pairwise fun entry other => entry.1 ≠ other.1 := by
      clear hinside hfull
      induction hcopies with
      | nil => exact .nil
      | cons _ hnew ih => exact .cons (fun entry hentry heq => hnew entry hentry heq.symm) ih
    exact hpairwise.imp fun hne heq => hne (Handle.eq_of_index heq)
  have hsub : copies.map (·.1.index) ⊆ List.range size := by
    intro index hindex
    obtain ⟨entry, hentry, rfl⟩ := List.mem_map.mp hindex
    exact List.mem_range.mpr (hinside entry hentry)
  -- There are no fewer values with a copy than values, so each value is one of them.
  have hperm := (hnodup.subperm hsub).perm_of_length_le (by simpa using hfull)
  obtain ⟨entry, hentry, heq⟩ := List.mem_map.mp (hperm.mem_iff.mpr (List.mem_range.mpr hh))
  refine ⟨entry.2, ?_⟩
  rw [← Handle.eq_of_index heq]
  exact hentry

end Registered

/-! ## The invariant of a copy -/

/-- What holds while values with the property `P` are copied from an arena: everything has the
kind, the type and the name that its copy shall have; the slots of the copies are not looked at. -/
structure Copying.Holds (a : Arena) (P : Handle → Prop) (names : NameSupply) (c : Copying) :
    Prop where
  registered : Registered a.size c.copies
  size_eq : c.arena.size = a.size + c.copies.length
  within : ∀ entry ∈ c.copies, P entry.1
  old : ∀ h : Handle, h.index < a.size → c.arena.node h = a.node h
  shape_eq : ∀ entry ∈ c.copies, (c.arena.node entry.2).shape = (a.node entry.1).shape
  type_eq : ∀ entry ∈ c.copies, (c.arena.node entry.2).type = (a.node entry.1).type
  term_eq : ∀ entry ∈ c.copies, (a.node entry.1).isOnHeap = false →
    c.arena.term entry.2 = a.term entry.1
  names_le : names.used ≤ c.names.used
  fresh : ∀ entry ∈ c.copies, (a.node entry.1).isOnHeap = true →
    ∃ i, names.used ≤ i ∧ i < c.names.used ∧
      c.arena.term entry.2 = .value (a.node entry.1).type (NameSupply.name i)
  distinct : ∀ entry ∈ c.copies, ∀ other ∈ c.copies, (a.node entry.1).isOnHeap = true →
    (a.node other.1).isOnHeap = true → c.arena.term entry.2 = c.arena.term other.2 →
      entry = other

theorem Copying.holds_start (a : Arena) (P : Handle → Prop) (names : NameSupply) :
    Copying.Holds a P names { arena := a, names } where
  registered := .nil
  size_eq := rfl
  within := nofun
  old _ _ := rfl
  shape_eq := nofun
  type_eq := nofun
  term_eq := nofun
  names_le := Nat.le_refl _
  fresh := nofun
  distinct := nofun

namespace Copying.Holds

variable {a : Arena} {P : Handle → Prop} {names : NameSupply} {c : Copying} {h k : Handle}

theorem copyName_of_isOnHeap {n : Node} (hn : n.isOnHeap = true) (names : NameSupply) :
    (copyName n).run names = (.value n.type (NameSupply.name names.used), ⟨names.used + 1⟩) := by
  rw [copyName, if_pos hn]
  rfl

theorem copyName_of_not_isOnHeap {n : Node} (hn : n.isOnHeap = false) (names : NameSupply) :
    (copyName n).run names = (n.term, names) := by
  rw [copyName, hn]
  rfl

/-- The node that a copy starts as. -/
def shell (c : Copying) (h : Handle) : Node :=
  { c.arena.node h with term := ((copyName (c.arena.node h)).run c.names).1, slots := [] }

theorem copies_enter (c : Copying) (h : Handle) :
    (c.enter h).2.copies = (h, (c.enter h).1) :: c.copies := rfl

theorem enter_fst (c : Copying) (h : Handle) : (c.enter h).1 = ⟨c.arena.size⟩ := rfl

theorem node_enter_of_lt (h : Handle) (hk : k.index < c.arena.size) :
    (c.enter h).2.arena.node k = c.arena.node k :=
  node_push_of_lt (shell c h) hk

theorem node_enter_new (c : Copying) (h : Handle) :
    (c.enter h).2.arena.node ⟨c.arena.size⟩ = shell c h :=
  node_push_new c.arena (shell c h)

theorem enter (hc : c.Holds a P names) (hh : h.index < a.size) (hP : P h)
    (hnew : ∀ entry ∈ c.copies, entry.1 ≠ h) : (c.enter h).2.Holds a P names := by
  have hcopies : (c.enter h).2.copies = (h, ⟨c.arena.size⟩) :: c.copies := rfl
  have hbefore {entry : Handle × Handle} (hentry : entry ∈ c.copies) :
      (c.enter h).2.arena.node entry.2 = c.arena.node entry.2 := by
    apply node_enter_of_lt
    rw [hc.size_eq]
    exact (hc.registered.bounds entry hentry).2
  have hshell : (c.enter h).2.arena.node ⟨c.arena.size⟩ = shell c h := node_enter_new c h
  have hnode := hc.old h hh
  have hnames : (c.enter h).2.names = ((copyName (a.node h)).run c.names).2 := by
    rw [← hnode]
    rfl
  have hnewTerm (hheap : (a.node h).isOnHeap = true) : (c.enter h).2.arena.term ⟨c.arena.size⟩ =
      .value (a.node h).type (NameSupply.name c.names.used) ∧
        (c.enter h).2.names = ⟨c.names.used + 1⟩ := by
    rw [term, hshell, shell, hnames, hnode, copyName_of_isOnHeap hheap]
    exact ⟨rfl, rfl⟩
  have hused : c.names.used ≤ (c.enter h).2.names.used := by
    cases hheap : (a.node h).isOnHeap with
    | true =>
      rw [(hnewTerm hheap).2]
      exact Nat.le_succ _
    | false => rw [hnames, copyName_of_not_isOnHeap hheap]
  constructor
  · rw [hcopies, hc.size_eq]
    exact .cons hc.registered hnew
  · rw [hcopies, List.length_cons, ← Nat.add_assoc, ← hc.size_eq]
    exact size_push _ _
  · rw [hcopies, List.forall_mem_cons]
    exact ⟨hP, hc.within⟩
  · intro k hk
    rw [node_enter_of_lt h (by rw [hc.size_eq]; omega), hc.old k hk]
  · rw [hcopies, List.forall_mem_cons]
    refine ⟨?_, fun entry hentry => ?_⟩
    · rw [hshell, shell, hnode]
    · rw [hbefore hentry, hc.shape_eq entry hentry]
  · rw [hcopies, List.forall_mem_cons]
    refine ⟨?_, fun entry hentry => ?_⟩
    · rw [hshell, shell, hnode]
    · rw [hbefore hentry, hc.type_eq entry hentry]
  · rw [hcopies, List.forall_mem_cons]
    refine ⟨fun hheap => ?_, fun entry hentry hheap => ?_⟩
    · rw [term, hshell, shell, hnode, copyName_of_not_isOnHeap hheap]
      rfl
    · rw [term, hbefore hentry]
      exact hc.term_eq entry hentry hheap
  · exact hc.names_le.trans hused
  · rw [hcopies, List.forall_mem_cons]
    refine ⟨fun hheap => ?_, fun entry hentry hheap => ?_⟩
    · obtain ⟨hterm, hnames⟩ := hnewTerm hheap
      exact ⟨c.names.used, hc.names_le, by rw [hnames]; exact Nat.lt_succ_self _, hterm⟩
    · obtain ⟨i, hi, hlt, hterm⟩ := hc.fresh entry hentry hheap
      refine ⟨i, hi, hlt.trans_le hused, ?_⟩
      rw [term, hbefore hentry]
      exact hterm
  · -- The new name is none of those that were given out before.
    have hapart {entry : Handle × Handle} (hentry : entry ∈ c.copies)
        (hheap : (a.node entry.1).isOnHeap = true) (hheap' : (a.node h).isOnHeap = true) :
        (c.enter h).2.arena.term entry.2 ≠ (c.enter h).2.arena.term ⟨c.arena.size⟩ := by
      obtain ⟨i, -, hlt, hterm⟩ := hc.fresh entry hentry hheap
      rw [term, hbefore hentry, (hnewTerm hheap').1]
      intro heq
      have hvalue := hterm.symm.trans heq
      simp only [Term.value, Term.leaf.injEq, Leaf.value.injEq] at hvalue
      have := NameSupply.name_inj hvalue.2
      omega
    rw [hcopies]
    intro entry hentry other hother hheap hheap' heq
    rcases List.mem_cons.mp hentry with rfl | hentry
    · rcases List.mem_cons.mp hother with rfl | hother
      · rfl
      · exact absurd heq.symm (hapart hother hheap' hheap)
    · rcases List.mem_cons.mp hother with rfl | hother
      · exact absurd heq (hapart hentry hheap hheap')
      · rw [term, term, hbefore hentry, hbefore hother] at heq
        exact hc.distinct entry hentry other hother hheap hheap' heq

theorem fill (hc : c.Holds a P names) (hk : a.size ≤ k.index) (slot : Slot) (child : Handle) :
    (c.fill k slot child).Holds a P names := by
  have hhead (h : Handle) : ((c.fill k slot child).arena.node h).shape = (c.arena.node h).shape ∧
      ((c.fill k slot child).arena.node h).type = (c.arena.node h).type ∧
      (c.fill k slot child).arena.term h = c.arena.term h := by
    by_cases hhk : h = k
    · subst hhk
      rcases Nat.lt_or_ge h.index c.arena.size with hlt | hge
      · rw [term, Copying.fill, node_update_self _ hlt]
        exact ⟨rfl, rfl, rfl⟩
      · rw [Copying.fill, update_of_size_le _ hge]
        exact ⟨rfl, rfl, rfl⟩
    · rw [term, Copying.fill, node_update_of_ne _ hhk]
      exact ⟨rfl, rfl, rfl⟩
  constructor
  · exact hc.registered
  · exact (size_update _ _ _).trans hc.size_eq
  · exact hc.within
  · intro h hh
    rw [← hc.old h hh]
    exact node_update_of_ne _ (by rintro rfl; omega)
  · exact fun entry hentry => (hhead entry.2).1.trans (hc.shape_eq entry hentry)
  · exact fun entry hentry => (hhead entry.2).2.1.trans (hc.type_eq entry hentry)
  · exact fun entry hentry hheap => (hhead entry.2).2.2.trans (hc.term_eq entry hentry hheap)
  · exact hc.names_le
  · intro entry hentry hheap
    rw [(hhead entry.2).2.2]
    exact hc.fresh entry hentry hheap
  · intro entry hentry other hother hheap hheap' heq
    rw [(hhead entry.2).2.2, (hhead other.2).2.2] at heq
    exact hc.distinct entry hentry other hother hheap hheap' heq

end Copying.Holds

open Copying.Holds (copies_enter enter_fst node_enter_of_lt node_enter_new)

/-! ## What a run of a copy does -/

/-- The slots lead to the copies of what the slots of the original lead to. -/
def LeadsToCopies (copies : List (Handle × Handle)) :
    (slots copied : List (Slot × Handle)) → Prop :=
  List.Forall₂ fun entry copy => copy.1 = entry.1 ∧ (entry.2, copy.2) ∈ copies

theorem LeadsToCopies.mono {copies more : List (Handle × Handle)}
    {slots copied : List (Slot × Handle)} (h : LeadsToCopies copies slots copied)
    (hsub : copies ⊆ more) : LeadsToCopies more slots copied :=
  h.imp fun _ _ hentry => ⟨hentry.1, hsub hentry.2⟩

theorem LeadsToCopies.exists_copy {copies : List (Handle × Handle)}
    {slots copied : List (Slot × Handle)} (h : LeadsToCopies copies slots copied) :
    ∀ entry ∈ slots, ∃ k, (entry.2, k) ∈ copies := by
  induction h with
  | nil => nofun
  | cons hentry _ ih => exact List.forall_mem_cons.mpr ⟨⟨_, hentry.2⟩, ih⟩

theorem LeadsToCopies.eq_map {copies : List (Handle × Handle)}
    {slots copied : List (Slot × Handle)} (h : LeadsToCopies copies slots copied)
    {image : Handle → Handle} (himage : ∀ entry ∈ copies, image entry.1 = entry.2) :
    copied = slots.map fun entry => (entry.1, image entry.2) := by
  induction h with
  | nil => rfl
  | cons hentry _ ih => rw [List.map_cons, ← ih, himage _ hentry.2, ← hentry.1]

/-- Between two states of a copy, more values got a copy, and these are done; besides, nothing
changed but the copies that are still `open`. -/
structure Grows (a : Arena) (P : Handle → Prop) (names : NameSupply) (isOpen : Handle → Prop)
    (c c' : Copying) : Prop where
  holds : c'.Holds a P names
  copies : c.copies <:+ c'.copies
  kept : ∀ h : Handle, h.index < c.arena.size → ¬isOpen h → c'.arena.node h = c.arena.node h
  done : ∀ entry ∈ c'.copies, entry ∉ c.copies →
    LeadsToCopies c'.copies (a.node entry.1).slots (c'.arena.node entry.2).slots

section grows
variable {a : Arena} {P : Handle → Prop} {names : NameSupply} {isOpen : Handle → Prop}
  {c c' c'' : Copying} {h k : Handle}

/-- What gets a copy gets a new node. -/
theorem Copying.Holds.le_of_new (hc : c.Holds a P names) (hc' : c'.Holds a P names)
    (hcopies : c.copies <:+ c'.copies) {entry : Handle × Handle} (hentry : entry ∈ c'.copies)
    (hnew : entry ∉ c.copies) : c.arena.size ≤ entry.2.index := by
  by_contra hlt
  have hfirst := (hc'.registered.bounds entry hentry).1
  obtain ⟨h, hmem⟩ := hc.registered.exists_original hfirst (by rw [← hc.size_eq]; omega)
  have heq := hc'.registered.eq_of_copy entry hentry _ (hcopies.subset hmem) rfl
  rw [heq] at hnew
  exact hnew hmem

theorem Copying.Holds.size_le (hc : c.Holds a P names) (hc' : c'.Holds a P names)
    (hcopies : c.copies <:+ c'.copies) : c.arena.size ≤ c'.arena.size := by
  rw [hc.size_eq, hc'.size_eq]
  exact Nat.add_le_add_left hcopies.length_le _

theorem Grows.refl (hc : c.Holds a P names) : Grows a P names isOpen c c :=
  ⟨hc, List.suffix_rfl, fun _ _ _ => rfl, fun _ hentry hnew => absurd hentry hnew⟩

theorem Grows.trans (hc : c.Holds a P names) (hopen : ∀ h, isOpen h → h.index < c.arena.size)
    (h₁ : Grows a P names isOpen c c') (h₂ : Grows a P names isOpen c' c'') :
    Grows a P names isOpen c c'' := by
  have hsize := hc.size_le h₁.holds h₁.copies
  refine ⟨h₂.holds, h₁.copies.trans h₂.copies, fun h hh hclosed => ?_, fun entry hentry hnew => ?_⟩
  · rw [h₂.kept h (hh.trans_le hsize) hclosed, h₁.kept h hh hclosed]
  · by_cases hmem : entry ∈ c'.copies
    · have hplace := hc.le_of_new h₁.holds h₁.copies hmem hnew
      have hlt : entry.2.index < c'.arena.size := by
        rw [h₁.holds.size_eq]
        exact (h₁.holds.registered.bounds entry hmem).2
      rw [h₂.kept entry.2 hlt fun hisOpen => Nat.not_lt.mpr hplace (hopen _ hisOpen)]
      exact (h₁.done entry hmem hnew).mono h₂.copies.subset
    · exact h₂.done entry hentry hmem

theorem Grows.mono (h : Grows a P names (fun _ => False) c c') : Grows a P names isOpen c c' :=
  ⟨h.holds, h.copies, fun h' hh _ => h.kept h' hh not_false, h.done⟩

theorem grows_fill (hc : c.Holds a P names) (hk : a.size ≤ k.index) (slot : Slot)
    (child : Handle) : Grows a P names (· = k) c (c.fill k slot child) :=
  ⟨hc.fill hk slot child, List.suffix_rfl, fun _ _ hne => node_update_of_ne _ hne,
    fun _ hentry hnew => absurd hentry hnew⟩

/-- What copying a value comes to: it has a copy then, and everything that got a copy is done. -/
def Copies (a : Arena) (P : Handle → Prop) (names : NameSupply) (h : Handle) (c : Copying)
    (result : Handle × Copying) : Prop :=
  Grows a P names (fun _ => False) c result.2 ∧ (h, result.1) ∈ result.2.copies

/-- The slots of a copy are filled one after another, in their order. -/
theorem copySlots_grows {copyChild : Handle → StateM Copying Handle} {fuel : Nat}
    (hcopy : ∀ {c child}, c.Holds a P names → P child → a.size ≤ c.copies.length + fuel →
      Copies a P names child c ((copyChild child).run c))
    {slots : List (Slot × Handle)} (hc : c.Holds a P names) (hP : ∀ entry ∈ slots, P entry.2)
    (hfuel : a.size ≤ c.copies.length + fuel) (hk : a.size ≤ k.index)
    (hsize : k.index < c.arena.size)
    (hordered : Node.IsOrdered ((c.arena.node k).slots ++ slots)) :
    Grows a P names (· = k) c ((copySlots copyChild k slots).run c).2 ∧
      ∃ copied, LeadsToCopies ((copySlots copyChild k slots).run c).2.copies slots copied ∧
        (((copySlots copyChild k slots).run c).2.arena.node k).slots =
          (c.arena.node k).slots ++ copied := by
  induction slots generalizing c with
  | nil =>
    rw [copySlots_nil]
    exact ⟨.refl hc, [], .nil, by simp⟩
  | cons entry rest ih =>
    obtain ⟨slot, child⟩ := entry
    rw [List.forall_mem_cons] at hP
    rw [copySlots_cons]
    obtain ⟨hgrows, hmem⟩ := hcopy hc hP.1 hfuel
    generalize (copyChild child).run c = result at hgrows hmem ⊢
    have hfill := grows_fill hgrows.holds hk slot result.1
    have hnode : result.2.arena.node k = c.arena.node k := hgrows.kept k hsize not_false
    have hsize' := hsize.trans_le (hc.size_le hgrows.holds hgrows.copies)
    -- The slot comes behind all that are filled, so it is added at the end.
    have hslots : ((result.2.fill k slot result.1).arena.node k).slots =
        (c.arena.node k).slots ++ [(slot, result.1)] := by
      rw [Copying.fill, node_update_self _ hsize', hnode]
      apply Node.insertSlot_of_last
      intro entry hentry
      exact (List.pairwise_append.mp hordered).2.2 entry hentry _ (List.mem_cons_self ..)
    have hfuel' : a.size ≤ (result.2.fill k slot result.1).copies.length + fuel :=
      hfuel.trans (Nat.add_le_add_right hgrows.copies.length_le _)
    have hordered' : Node.IsOrdered
        (((result.2.fill k slot result.1).arena.node k).slots ++ rest) := by
      rw [hslots, Node.isOrdered_iff]
      rw [Node.isOrdered_iff] at hordered
      simpa using hordered
    obtain ⟨hrest, copied, hcopied, hdone⟩ := ih hfill.holds hP.2 hfuel'
      (hsize'.trans_le (Nat.le_of_eq (size_update _ _ _).symm)) hordered'
    have hopen (h : Handle) (heq : h = k) : h.index < c.arena.size := by rwa [heq]
    refine ⟨(hgrows.mono.trans hc hopen hfill).trans hc hopen hrest, (slot, result.1) :: copied,
      .cons ⟨rfl, hrest.copies.subset hmem⟩ hcopied, ?_⟩
    rw [hdone, hslots, List.append_assoc]
    rfl

/-- A value gets a copy, unless it has one, and so does everything that it reaches. -/
theorem copyValue_copies (ha : a.IsValid) (hclosed : ∀ h, P h → ∀ k, a.Leads h k → P k)
    (hinside : ∀ h, P h → h.index < a.size) (fuel : Nat) : ∀ {c : Copying} {h : Handle},
    c.Holds a P names → P h → a.size ≤ c.copies.length + fuel →
      Copies a P names h c ((copyValue fuel h).run c) := by
  induction fuel with
  | zero =>
    intro c h hc hP hfuel
    obtain ⟨k, hmem⟩ := hc.registered.exists_copy
      (fun entry hentry => hinside _ (hc.within entry hentry)) hfuel (hinside h hP)
    rw [copyValue_of_known (hc.registered.lookup_eq_some_iff.mpr hmem)]
    exact ⟨.refl hc, hmem⟩
  | succ fuel ih =>
    intro c h hc hP hfuel
    cases hknown : c.copies.lookup h with
    | some k =>
      rw [copyValue_of_known hknown]
      exact ⟨.refl hc, hc.registered.lookup_eq_some_iff.mp hknown⟩
    | none =>
      have hentered := hc.enter (hinside h hP) hP (hc.registered.not_known hknown)
      have hnode : c.arena.node h = a.node h := hc.old h (hinside h hP)
      have hshell : ((c.enter h).2.arena.node (c.enter h).1).slots = [] := by
        rw [enter_fst, node_enter_new]
        rfl
      have hcopies := copies_enter c h
      have hsize : (c.enter h).2.arena.size = c.arena.size + 1 := size_push _ _
      have hfirst : a.size ≤ (c.enter h).1.index := by
        rw [enter_fst, hc.size_eq]
        exact Nat.le_add_right _ _
      have hlast : (c.enter h).1.index < (c.enter h).2.arena.size := by
        rw [hsize, enter_fst]
        exact Nat.lt_succ_self _
      have hordered : Node.IsOrdered
          (((c.enter h).2.arena.node (c.enter h).1).slots ++ (a.node h).slots) := by
        rw [hshell]
        exact (ha h).ordered
      obtain ⟨hgrows, copied, hcopied, hslots⟩ := copySlots_grows ih hentered
        (fun entry hentry => hclosed h hP _ (leads_of_mem hentry))
        (by rw [hcopies, List.length_cons]; omega) hfirst hlast hordered
      rw [copyValue_succ hknown, hnode]
      have hsuffix := (List.suffix_cons (h, (c.enter h).1) c.copies).trans hgrows.copies
      have hmem := hgrows.copies.subset (List.mem_cons_self ..)
      refine ⟨⟨hgrows.holds, hsuffix, fun k hk _ => ?_, fun entry hentry hunknown => ?_⟩, hmem⟩
      · have hne : k ≠ (c.enter h).1 := by
          rintro rfl
          exact Nat.lt_irrefl _ hk
        rw [hgrows.kept k (by omega) hne]
        exact node_enter_of_lt h hk
      · by_cases hself : entry = (h, (c.enter h).1)
        · rw [hself, hslots, hshell]
          exact hcopied
        · apply hgrows.done entry hentry
          rw [hcopies, List.mem_cons]
          exact not_or.mpr ⟨hself, hunknown⟩

/-- Slots are filled alike by copies that agree on what the slots lead to. -/
theorem copySlots_congr {copyChild copyChild' : Handle → StateM Copying Handle} {fuel : Nat}
    (hcopy : ∀ {c child}, c.Holds a P names → P child → a.size ≤ c.copies.length + fuel →
      Copies a P names child c ((copyChild child).run c))
    (hsame : ∀ {c child}, c.Holds a P names → P child → a.size ≤ c.copies.length + fuel →
      (copyChild' child).run c = (copyChild child).run c)
    {slots : List (Slot × Handle)} (hc : c.Holds a P names) (hP : ∀ entry ∈ slots, P entry.2)
    (hfuel : a.size ≤ c.copies.length + fuel) (hk : a.size ≤ k.index) :
    (copySlots copyChild' k slots).run c = (copySlots copyChild k slots).run c := by
  induction slots generalizing c with
  | nil => rfl
  | cons entry rest ih =>
    rw [List.forall_mem_cons] at hP
    have hgrows := (hcopy hc hP.1 hfuel).1
    rw [copySlots_cons, copySlots_cons, hsame hc hP.1 hfuel]
    exact ih (hgrows.holds.fill hk _ _) hP.2
      (hfuel.trans (Nat.add_le_add_right hgrows.copies.length_le _))

/-- Where the fuel is enough for the values that have no copy, more of it changes nothing. -/
theorem copyValue_succ_fuel (ha : a.IsValid) (hclosed : ∀ h, P h → ∀ k, a.Leads h k → P k)
    (hinside : ∀ h, P h → h.index < a.size) (fuel : Nat) : ∀ {c : Copying} {h : Handle},
    c.Holds a P names → P h → a.size ≤ c.copies.length + fuel →
      (copyValue (fuel + 1) h).run c = (copyValue fuel h).run c := by
  induction fuel with
  | zero =>
    intro c h hc hP hfuel
    obtain ⟨k, hmem⟩ := hc.registered.exists_copy
      (fun entry hentry => hinside _ (hc.within entry hentry)) hfuel (hinside h hP)
    have hknown := hc.registered.lookup_eq_some_iff.mpr hmem
    rw [copyValue_of_known hknown, copyValue_of_known hknown]
  | succ fuel ih =>
    intro c h hc hP hfuel
    cases hknown : c.copies.lookup h with
    | some k => rw [copyValue_of_known hknown, copyValue_of_known hknown]
    | none =>
      have hentered := hc.enter (hinside h hP) hP (hc.registered.not_known hknown)
      have hfirst : a.size ≤ (c.enter h).1.index := by
        rw [enter_fst, hc.size_eq]
        exact Nat.le_add_right _ _
      have hfuel' : a.size ≤ (c.enter h).2.copies.length + fuel := by
        rw [copies_enter, List.length_cons]
        omega
      have hslots := copySlots_congr (copyValue_copies ha hclosed hinside fuel) ih hentered
        (fun entry hentry => hclosed h hP _ (leads_of_mem hentry)) hfuel' hfirst
      rw [copyValue_succ hknown, copyValue_succ hknown, hc.old h (hinside h hP), hslots]

theorem copyValue_add_fuel (ha : a.IsValid) (hclosed : ∀ h, P h → ∀ k, a.Leads h k → P k)
    (hinside : ∀ h, P h → h.index < a.size) (hc : c.Holds a P names) (hP : P h) {fuel : Nat}
    (hfuel : a.size ≤ c.copies.length + fuel) (extra : Nat) :
    (copyValue (fuel + extra) h).run c = (copyValue fuel h).run c := by
  induction extra with
  | zero => rfl
  | succ extra ih =>
    rw [← Nat.add_assoc, copyValue_succ_fuel ha hclosed hinside _ hc hP (by omega), ih]

end grows

end Concolic.Arena
