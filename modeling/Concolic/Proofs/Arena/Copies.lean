import Concolic.Proofs.Arena.Copying
import Concolic.Proofs.Arena.Likeness
import Mathlib.Data.Set.Function

/-!
# Copies are isomorphic

A copy takes everything that a value reaches to new nodes, one to one and along every slot. What
lies on the heap gets a name of its own; constants and the holders of static fields keep theirs.

## Main statement

* `Arena.copy_isCopied` — what a copy is, and that it is like its original.
-/

namespace Concolic

theorem Term.eq_of_value_beq {s t : ValueType} {x y : String}
    (h : (Term.value s x == Term.value t y) = true) : Term.value s x = Term.value t y := by
  have hsame : Term.same (.value s x) (.value t y) = true := h
  simp only [Term.value, Term.same, Bool.and_eq_true, beq_iff_eq] at hsame
  have hname : Leaf.same (.value x) (.value y) = true := hsame.2
  simp only [Leaf.same, beq_iff_eq] at hname
  rw [hsame.1, hname]

namespace Arena

/-- The copy of a value: everything that the value reaches has an image, which is a new node. -/
structure IsCopied (a : Arena) (root : Handle) (names : NameSupply) (image : Handle → Handle)
    (copy : Handle) (b : Arena) (names' : NameSupply) : Prop where
  root_eq : image root = copy
  size_le : a.size ≤ b.size
  old : ∀ h : Handle, h.index < a.size → b.node h = a.node h
  bijOn : Set.BijOn image {h | a.Reaches root h} {k | a.size ≤ k.index ∧ k.index < b.size}
  shape_eq : ∀ h, a.Reaches root h → (b.node (image h)).shape = (a.node h).shape
  type_eq : ∀ h, a.Reaches root h → (b.node (image h)).type = (a.node h).type
  slots_eq : ∀ h, a.Reaches root h →
    (b.node (image h)).slots = (a.node h).slots.map fun entry => (entry.1, image entry.2)
  term_eq : ∀ h, a.Reaches root h → (a.node h).isOnHeap = false →
    b.term (image h) = a.term h
  fresh : ∀ h, a.Reaches root h → (a.node h).isOnHeap = true →
    ∃ i, names.used ≤ i ∧ i < names'.used ∧
      b.term (image h) = .value (a.node h).type (NameSupply.name i)
  distinct : ∀ h k, a.Reaches root h → a.Reaches root k → (a.node h).isOnHeap = true →
    (a.node k).isOnHeap = true → h ≠ k → (b.term (image h) == b.term (image k)) = false

section copied
variable {a b : Arena} {root copy : Handle} {names names' : NameSupply}
  {image : Handle → Handle}

/-- A copy behind which everything that got a copy is done. -/
theorem Copies.isCopied {c : Copying}
    (h : Copies a (a.Reaches root) names root { arena := a, names } (copy, c)) :
    ∃ image, IsCopied a root names image copy c.arena c.names := by
  obtain ⟨hgrows, hmem⟩ := h
  have hc := hgrows.holds
  have hdone (entry : Handle × Handle) (hentry : entry ∈ c.copies) :
      LeadsToCopies c.copies (a.node entry.1).slots (c.arena.node entry.2).slots :=
    hgrows.done entry hentry List.not_mem_nil
  let image (h : Handle) : Handle := (c.copies.lookup h).getD h
  have himage (entry : Handle × Handle) (hentry : entry ∈ c.copies) : image entry.1 = entry.2 := by
    simp only [image, hc.registered.lookup_eq_some_iff.mpr hentry, Option.getD_some]
  -- Whatever the value reaches has a copy, because every copy is done.
  have hcopied {h : Handle} (hh : a.Reaches root h) : (h, image h) ∈ c.copies := by
    induction hh with
    | refl =>
      rw [himage _ hmem]
      exact hmem
    | tail _ hlead ih =>
      obtain ⟨entry, hentry, rfl⟩ := List.mem_map.mp hlead
      obtain ⟨k, hk⟩ := (hdone _ ih).exists_copy entry hentry
      rw [himage _ hk]
      exact hk
  refine ⟨image, ?_⟩
  constructor
  · exact himage _ hmem
  · rw [hc.size_eq]
    exact Nat.le_add_right _ _
  · exact hc.old
  · refine ⟨fun h hh => ?_, fun h hh k hk heq => ?_, fun k hk => ?_⟩
    · have hbounds := hc.registered.bounds _ (hcopied hh)
      rwa [← hc.size_eq] at hbounds
    · have hsame := hc.registered.eq_of_copy _ (hcopied hh) _ (hcopied hk) heq
      exact congrArg Prod.fst hsame
    · obtain ⟨h, hh⟩ := hc.registered.exists_original hk.1 (by rw [← hc.size_eq]; exact hk.2)
      exact ⟨h, hc.within _ hh, himage _ hh⟩
  · exact fun h hh => hc.shape_eq _ (hcopied hh)
  · exact fun h hh => hc.type_eq _ (hcopied hh)
  · exact fun h hh => (hdone _ (hcopied hh)).eq_map himage
  · exact fun h hh => hc.term_eq _ (hcopied hh)
  · exact fun h hh => hc.fresh _ (hcopied hh)
  · intro h k hh hk hheap hheap' hne
    obtain ⟨i, -, -, hi⟩ := hc.fresh _ (hcopied hh) hheap
    obtain ⟨j, -, -, hj⟩ := hc.fresh _ (hcopied hk) hheap'
    rw [Bool.eq_false_iff]
    intro hbeq
    have heq : c.arena.term (image h) = c.arena.term (image k) := by
      rw [hi, hj] at hbeq ⊢
      exact Term.eq_of_value_beq hbeq
    have hsame := hc.distinct _ (hcopied hh) _ (hcopied hk) hheap hheap' heq
    exact hne (congrArg Prod.fst hsame)

/-- The arena behind a copy is valid. -/
theorem IsCopied.isValid (hcopy : IsCopied a root names image copy b names') (ha : a.IsValid) :
    b.IsValid := by
  intro k
  rcases Nat.lt_or_ge k.index a.size with hlt | hge
  · rw [hcopy.old k hlt]
    exact (ha k).mono hcopy.size_le
  rcases Nat.lt_or_ge k.index b.size with hlt | hge'
  · obtain ⟨h, hh, rfl⟩ := hcopy.bijOn.surjOn ⟨hge, hlt⟩
    have hslots := hcopy.slots_eq h hh
    constructor
    · rw [hslots, Node.isOrdered_iff, List.map_map]
      exact Node.isOrdered_iff.mp (ha h).ordered
    · rw [hslots]
      intro entry hentry
      obtain ⟨original, horiginal, rfl⟩ := List.mem_map.mp hentry
      rw [Node.accepts_congr (hcopy.shape_eq h hh)]
      exact (ha h).accepted original horiginal
    · rw [hslots]
      intro entry hentry
      obtain ⟨original, horiginal, rfl⟩ := List.mem_map.mp hentry
      have hchild : a.Reaches root original.2 := hh.tail (leads_of_mem horiginal)
      exact (hcopy.bijOn.mapsTo hchild).2
  · rw [node_of_size_le hge']
    exact .of_empty rfl

theorem IsCopied.isImage (hcopy : IsCopied a root names image copy b names') (ha : a.IsValid)
    (hroot : root.index < a.size) : b.IsImage (a.Reaches root) image := by
  have hold (h : Handle) (hh : a.Reaches root h) : b.node h = a.node h :=
    hcopy.old h (ha.lt_size_of_reaches hroot hh)
  constructor
  · intro h hh entry hentry
    rw [hold h hh] at hentry
    exact hh.tail (leads_of_mem hentry)
  · exact fun h k hh hk heq => hcopy.bijOn.injOn hh hk heq
  · intro h hh
    rw [hold h hh, hcopy.shape_eq h hh]
  · intro h hh
    rw [hold h hh, hcopy.type_eq h hh]
  · intro h hh
    rw [hold h hh, hcopy.slots_eq h hh]

/-- A copy is made of new nodes, one for each value that it copies, and is like its original. The
copying ends by itself, whatever is shared or cyclic. -/
theorem copy_isCopied (a : Arena) (root : Handle) (names : NameSupply) (ha : a.IsValid)
    (hroot : root.index < a.size) :
    (∀ extra, (copyValue (a.size + extra) root).run { arena := a, names } =
      (copyValue a.size root).run { arena := a, names }) ∧
    ∃ copy b names', (a.copy root).run names = ((copy, b), names') ∧
      (∃ image, IsCopied a root names image copy b names') ∧
      b.structurallyEqual root copy = true ∧ b.structurallyEqual copy root = true ∧
      b.depth root = b.depth copy := by
  have hclosed (h : Handle) (hh : a.Reaches root h) (k : Handle) (hlead : a.Leads h k) :
      a.Reaches root k := hh.tail hlead
  have hinside (h : Handle) (hh : a.Reaches root h) : h.index < a.size :=
    ha.lt_size_of_reaches hroot hh
  have hstart := Copying.holds_start a (a.Reaches root) names
  have hreach : a.Reaches root root := .refl
  have hfuel : a.size ≤ ({ arena := a, names } : Copying).copies.length + a.size :=
    Nat.le_add_left _ _
  refine ⟨copyValue_add_fuel ha hclosed hinside hstart hreach hfuel, ?_⟩
  have hcopies := copyValue_copies ha hclosed hinside a.size hstart hreach hfuel
  obtain ⟨image, hcopied⟩ := hcopies.isCopied
  refine ⟨_, _, _, rfl, ⟨image, hcopied⟩, ?_⟩
  have himage := hcopied.isImage ha hroot
  have hlike := himage.structurallyEqual (hcopied.isValid ha) hreach
  have hdepth := himage.depth_eq hreach
  rw [hcopied.root_eq] at hlike hdepth
  exact ⟨hlike.1, hlike.2, hdepth.symm⟩

end copied

/-! A node that leads to itself is copied to another that leads to itself. -/

namespace Loop

def node : Node := ⟨.value (.class "Node") "loop", .class "Node", .object, []⟩

def arena : Arena :=
  (((({} : Arena).push node).2.push (.constant (.int 3))).2.setField ⟨0⟩ "next" (.class "Node")
    ⟨0⟩).setField ⟨0⟩ "value" .int ⟨1⟩

theorem isValid_arena : arena.IsValid := by
  have hnode := isValid_push (n := node) isValid_empty rfl
  have hconstant := isValid_push (n := .constant (.int 3)) hnode rfl
  exact isValid_setField (isValid_setField hconstant _ _ (by decide)) _ _ (by decide)

theorem arena_isCopied : arena.IsValid ∧ (⟨0⟩ : Handle).index < arena.size ∧
    ∃ image b, IsCopied arena ⟨0⟩ {} image ⟨2⟩ b ⟨1⟩ ∧
      b.at? ⟨2⟩ (.field "next" (.class "Node")) = some ⟨2⟩ ∧
      b.structurallyEqual ⟨0⟩ ⟨2⟩ = true := by
  have hroot : (⟨0⟩ : Handle).index < arena.size := by decide
  obtain ⟨-, copy, b, names', hrun, ⟨image, hcopied⟩, hlike, -⟩ :=
    copy_isCopied arena ⟨0⟩ {} isValid_arena hroot
  have hcopy : ((arena.copy ⟨0⟩).run {}).1.1 = ⟨2⟩ := by decide +kernel
  have hnames : ((arena.copy ⟨0⟩).run {}).2 = ⟨1⟩ := by decide +kernel
  have hnext :
      ((arena.copy ⟨0⟩).run {}).1.2.at? ⟨2⟩ (.field "next" (.class "Node")) = some ⟨2⟩ := by
    decide +kernel
  rw [hrun] at hcopy hnames hnext
  simp only at hcopy hnames hnext
  subst hcopy hnames
  exact ⟨isValid_arena, hroot, image, b, hcopied, hnext, hlike⟩

end Loop

end Arena
end Concolic
