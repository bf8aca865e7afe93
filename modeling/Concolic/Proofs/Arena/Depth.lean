import Concolic.Proofs.Arena.Validity
import Concolic.Proofs.Spanning.Depth
import Mathlib.Data.Finset.Range
import Mathlib.Data.Nat.SuccPred

/-!
# The depth of a value

One set of values that have been come to is kept for a whole walk, so a value that is shared counts
on the way on which it is first come to, and nothing on any other. Where slots lead to no cycle, the
depth of a value is thus the number of values on its longest leftmost chain, in which every slot is
the first behind which the last value of the chain lies. A longer chain may come to that value by a
later slot, and then the depth falls short of the longest chain.

## Main statements

* `Arena.depth_eq_longest_leftmost` — the depth is the length of the longest leftmost chain; it is
  at most the length of the longest chain, and equal to it exactly if a longest chain is leftmost.
* `Arena.Shared.depth_lt_chain` — a value that is less deep than its longest chain.
-/

namespace Concolic.Arena

variable {a : Arena} {h k root : Handle} {rest : List Handle}

/-! ## Chains -/

/-- The numbers of values on the chains of slots from a value. -/
def chainLengths (a : Arena) (root : Handle) : Set Nat :=
  {n | ∃ rest, List.IsChain a.Leads (root :: rest) ∧ (root :: rest).length = n}

/-- The numbers of values on the leftmost chains of slots from a value: every slot is the first
behind which the last value lies. -/
def leftmostLengths (a : Arena) (root : Handle) : Set Nat :=
  {n | ∃ target chain, Spanning.LeftmostChain a.edges target root chain ∧ chain.length = n}

/-- Slots lead from the value to no cycle. -/
def IsAcyclicFrom (a : Arena) (root : Handle) : Prop :=
  ∀ h, a.Reaches root h → ¬Relation.TransGen a.Leads h h

theorem leads_edges (a : Arena) : Spanning.Leads a.edges = a.Leads := by
  funext h k
  apply propext
  constructor
  · rintro ⟨edge, hedge, rfl⟩
    obtain ⟨entry, hentry, rfl⟩ := List.mem_map.mp hedge
    exact leads_of_mem hentry
  · intro hlead
    obtain ⟨entry, hentry, rfl⟩ := List.mem_map.mp hlead
    exact ⟨_, List.mem_map_of_mem hentry, rfl⟩

theorem reaches_edges (a : Arena) : Spanning.Reaches a.edges = a.Reaches :=
  congrArg Relation.ReflTransGen a.leads_edges

theorem IsAcyclicFrom.edges (hacyclic : a.IsAcyclicFrom root) :
    Spanning.IsAcyclicFrom a.edges root := by
  rw [Spanning.IsAcyclicFrom, reaches_edges, leads_edges]
  exact hacyclic

theorem leftmostLengths_subset (a : Arena) (root : Handle) :
    a.leftmostLengths root ⊆ a.chainLengths root := by
  rintro n ⟨target, chain, hchain, rfl⟩
  obtain ⟨rest, rfl, hrest⟩ := hchain.isChain
  exact ⟨rest, a.leads_edges ▸ hrest, rfl⟩

/-! ## Finitely many values -/

/-- The nodes of the arena, and the value that a walk starts with. -/
def handles (a : Arena) (root : Handle) : Finset Handle :=
  insert root ((Finset.range a.size).image Handle.mk)

theorem card_handles_le (a : Arena) (root : Handle) : (a.handles root).card ≤ a.size + 2 := by
  have hcard : ((Finset.range a.size).image Handle.mk).card ≤ a.size :=
    Finset.card_image_le.trans (Finset.card_range _).le
  exact (Finset.card_insert_le _ _).trans (by omega)

theorem IsValid.mem_handles (ha : a.IsValid) (hlead : a.Leads h k) : k ∈ a.handles root := by
  have hlt := ha.lt_size_of_leads hlead
  exact Finset.mem_insert_of_mem
    (Finset.mem_image.mpr ⟨k.index, Finset.mem_range.mpr hlt, rfl⟩)

theorem IsValid.edges_mem_handles (ha : a.IsValid) {edge : Option Slot × Handle}
    (hedge : edge ∈ a.edges h) : edge.2 ∈ a.handles root :=
  ha.mem_handles (a.leads_edges ▸ Spanning.leads_of_mem hedge)

/-- The values on a chain are nodes of the arena, from the second one on. -/
theorem IsValid.chain_mem_handles (ha : a.IsValid) (hchain : List.IsChain a.Leads (root :: rest))
    (hh : h ∈ root :: rest) : h ∈ a.handles root := by
  rcases List.mem_cons.mp hh with rfl | hh
  · exact Finset.mem_insert_self ..
  · have hpairs := Spanning.pairwise_of_isChain (a.leads_edges ▸ hchain)
    cases List.rel_of_pairwise_cons hpairs hh with
    | single hlead | tail _ hlead => exact ha.mem_handles (a.leads_edges ▸ hlead)

/-- Without cycles there is a longest chain. -/
theorem exists_longest_chain (ha : a.IsValid) (hacyclic : a.IsAcyclicFrom root) :
    ∃ longest, IsGreatest (a.chainLengths root) longest := by
  have hbound : a.size + 2 ∈ upperBounds (a.chainLengths root) := by
    rintro n ⟨rest, hchain, rfl⟩
    have hnodup : (root :: rest).Nodup := hacyclic.edges.nodup_of_isChain (a.leads_edges ▸ hchain)
    have hinside : (root :: rest).toFinset ⊆ a.handles root :=
      fun h hh => ha.chain_mem_handles hchain (List.mem_toFinset.mp hh)
    rw [← List.toFinset_card_of_nodup hnodup]
    exact (Finset.card_le_card hinside).trans (a.card_handles_le root)
  exact BddAbove.exists_isGreatest_of_nonempty ⟨_, hbound⟩ ⟨1, [], List.isChain_singleton _, rfl⟩

/-! ## The depth -/

/-- In a valid arena, from a value that reaches no cycle, the depth is the number of values on the
longest leftmost chain. That is at most the number on the longest chain, and it is as many exactly
if some longest chain is leftmost. -/
theorem depth_eq_longest_leftmost (ha : a.IsValid) (hacyclic : a.IsAcyclicFrom root) :
    IsGreatest (a.leftmostLengths root) (a.depth root) ∧
    ∃ longest, IsGreatest (a.chainLengths root) longest ∧ a.depth root ≤ longest ∧
      (a.depth root = longest ↔ longest ∈ a.leftmostLengths root) := by
  obtain ⟨_, hwalk⟩ := Spanning.walks_walk (fun _ _ _ => ha.edges_mem_handles)
    (Finset.mem_insert_self ..) none (a.card_handles_le root)
  have hgreatest : IsGreatest (a.leftmostLengths root) (a.depth root) :=
    hwalk.isGreatest_depth hacyclic.edges
  obtain ⟨longest, hlongest⟩ := exists_longest_chain ha hacyclic
  have hle : a.depth root ≤ longest := hlongest.2 (a.leftmostLengths_subset root hgreatest.1)
  refine ⟨hgreatest, longest, hlongest, hle, ?_, ?_⟩
  · intro heq
    exact heq ▸ hgreatest.1
  · intro hmem
    exact Nat.le_antisymm hle (hgreatest.2 hmem)

/-! A value leads to another by its first slot, and to a third by its second, which leads to the
other as well. The shared value is come to by the first slot, so the longer way counts nothing. -/

namespace Shared

def node (name : String) : Node := ⟨.value (.class "Node") name, .class "Node", .object, []⟩

/-- The root, the value in between and the shared one. -/
def bare : Arena :=
  (((({} : Arena).push (node "root")).2.push (node "middle")).2.push (node "leaf")).2

def arena : Arena :=
  ((bare.setField ⟨0⟩ "a" (.class "Node") ⟨2⟩).setField ⟨0⟩ "b" (.class "Node") ⟨1⟩).setField ⟨1⟩
    "x" (.class "Node") ⟨2⟩

theorem isValid_bare : bare.IsValid := by
  have hroot := isValid_push (n := node "root") isValid_empty rfl
  have hmiddle := isValid_push (n := node "middle") hroot rfl
  exact isValid_push hmiddle rfl

theorem isValid_arena : arena.IsValid := by
  have hroot : (bare.setField ⟨0⟩ "a" (.class "Node") ⟨2⟩).IsValid :=
    isValid_setField isValid_bare _ _ (by decide)
  exact isValid_setField (isValid_setField hroot _ _ (by decide)) _ _ (by decide)

/-- Slots lead from each value to later ones. -/
theorem index_lt_of_leads (hlead : arena.Leads h k) : h.index < k.index := by
  have hnodes : ∀ index < 3, ∀ child ∈ (arena.node ⟨index⟩).children, index < child.index := by
    decide
  rcases Nat.lt_or_ge h.index 3 with hlt | hge
  · exact hnodes h.index hlt k hlead
  · have hsize : arena.size = 3 := by decide
    rw [Leads, node_of_size_le (hsize ▸ hge)] at hlead
    cases hlead

theorem isAcyclicFrom (root : Handle) : arena.IsAcyclicFrom root := by
  intro h _ hcycle
  have hlt : h.index < h.index := by
    refine hcycle.trans_induction_on (motive := fun {h k} _ => h.index < k.index) ?_ ?_
    · exact index_lt_of_leads
    · exact fun _ _ => Nat.lt_trans
  exact Nat.lt_irrefl _ hlt

theorem longest_leftmost : arena.IsValid ∧ arena.IsAcyclicFrom ⟨0⟩ ∧
    IsGreatest (arena.leftmostLengths ⟨0⟩) 2 := by
  have hdepth : arena.depth ⟨0⟩ = 2 := by decide +kernel
  exact ⟨isValid_arena, isAcyclicFrom ⟨0⟩,
    hdepth ▸ (depth_eq_longest_leftmost isValid_arena (isAcyclicFrom ⟨0⟩)).1⟩

/-- There is a chain of three values, and the depth is two. -/
theorem depth_lt_chain : arena.IsValid ∧ arena.IsAcyclicFrom ⟨0⟩ ∧
    List.IsChain arena.Leads [⟨0⟩, ⟨1⟩, ⟨2⟩] ∧ arena.depth ⟨0⟩ = 2 ∧
    ¬IsGreatest (arena.chainLengths ⟨0⟩) (arena.depth ⟨0⟩) := by
  have hdepth : arena.depth ⟨0⟩ = 2 := by decide +kernel
  have hchain : List.IsChain arena.Leads [⟨0⟩, ⟨1⟩, ⟨2⟩] := by
    have hfirst : ⟨1⟩ ∈ (arena.node ⟨0⟩).children := by decide
    have hsecond : ⟨2⟩ ∈ (arena.node ⟨1⟩).children := by decide
    exact .cons_cons hfirst (.cons_cons hsecond (.singleton _))
  refine ⟨isValid_arena, isAcyclicFrom ⟨0⟩, hchain, hdepth, ?_⟩
  intro hgreatest
  have hle : 3 ≤ arena.depth ⟨0⟩ := hgreatest.2 ⟨_, hchain, rfl⟩
  omega

end Shared

end Concolic.Arena
