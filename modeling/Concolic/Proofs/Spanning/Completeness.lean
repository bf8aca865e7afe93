import Concolic.Proofs.Spanning
import Mathlib.Data.Finset.Card
import Mathlib.Data.Finset.Insert

/-!
# Depth-first walks come to everything

With fuel for each vertex that it may come to, a walk is the same as with any more fuel, and it
leaves out no edge: it comes to whatever the edges lead to from where it has been. Such walks are
described by a relation that has no fuel in it, and what holds of them is shown by its rules.

## Main statements

* `Spanning.walks_walk` — a walk with enough fuel follows every edge.
* `Spanning.walk_add_fuel` — more fuel than that changes nothing.
-/

namespace Concolic.Spanning

variable {ε V : Type} {next : V → List (ε × V)} {edges : List (ε × V)}
  {ts ts' : List (Spanning ε V)} {seen seen' seen'' : List V} {v w root : V}

/-! ## Walks without fuel -/

/-- To follow `edges`, with `seen` seen before, gives the trees `ts`, and `seen'` are those seen
after. -/
inductive Walks (next : V → List (ε × V)) :
    List V → List (ε × V) → List (Spanning ε V) → List V → Prop
  | nil {seen : List V} : Walks next seen [] [] seen
  | again {seen seen' : List V} {edge : ε × V} {rest : List (ε × V)}
      {ts : List (Spanning ε V)} :
      edge.2 ∈ seen → Walks next seen rest ts seen' →
      Walks next seen (edge :: rest) (.again edge.1 edge.2 :: ts) seen'
  | visit {seen mid seen' : List V} {edge : ε × V} {rest : List (ε × V)}
      {onward ts : List (Spanning ε V)} :
      edge.2 ∉ seen → Walks next (edge.2 :: seen) (next edge.2) onward mid →
      Walks next mid rest ts seen' →
      Walks next seen (edge :: rest) (.visit edge.1 edge.2 onward :: ts) seen'

namespace Walks

/-- There is only one way to follow edges. -/
theorem unique (h : Walks next seen edges ts seen') (h' : Walks next seen edges ts' seen'') :
    ts = ts' ∧ seen' = seen'' := by
  induction h generalizing ts' seen'' with
  | nil =>
    cases h'
    exact ⟨rfl, rfl⟩
  | again hmem _ ih =>
    cases h' with
    | again _ hrest =>
      obtain ⟨rfl, rfl⟩ := ih hrest
      exact ⟨rfl, rfl⟩
    | visit hnew => exact absurd hmem hnew
  | visit hnew _ _ ihonward ih =>
    cases h' with
    | again hmem => exact absurd hmem hnew
    | visit _ honward hrest =>
      obtain ⟨rfl, rfl⟩ := ihonward honward
      obtain ⟨rfl, rfl⟩ := ih hrest
      exact ⟨rfl, rfl⟩

/-- What has been seen after a walk was seen before it or is in it. -/
theorem mem_iff (h : Walks next seen edges ts seen') :
    w ∈ seen' ↔ w ∈ seen ∨ w ∈ orderOfAll ts := by
  induction h with
  | nil => simp [orderOfAll]
  | again _ _ ih => simp [orderOfAll, order, ih]
  | visit _ _ _ ihonward ih =>
    rw [ih, ihonward]
    simp only [orderOfAll, order, List.mem_cons, List.mem_append]
    tauto

theorem subset (h : Walks next seen edges ts seen') (hw : w ∈ seen) : w ∈ seen' :=
  h.mem_iff.mpr (.inl hw)

/-- Every edge is followed. -/
theorem mem_of_edge (h : Walks next seen edges ts seen') {edge : ε × V} (hedge : edge ∈ edges) :
    edge.2 ∈ seen' := by
  induction h with
  | nil => cases hedge
  | again hmem hrest ih =>
    rcases List.mem_cons.mp hedge with rfl | hedge
    · exact hrest.subset hmem
    · exact ih hedge
  | visit _ honward hrest _ ih =>
    rcases List.mem_cons.mp hedge with rfl | hedge
    · exact hrest.subset (honward.subset (List.mem_cons_self ..))
    · exact ih hedge

/-- Every edge out of what a walk comes to is followed. -/
theorem closed (h : Walks next seen edges ts seen') (hv : v ∈ orderOfAll ts) {edge : ε × V}
    (hedge : edge ∈ next v) : edge.2 ∈ seen' := by
  induction h with
  | nil => cases hv
  | again _ _ ih => exact ih hv
  | visit _ honward hrest ihonward ih =>
    simp only [orderOfAll, order, List.cons_append, List.mem_cons, List.mem_append] at hv
    rcases hv with rfl | hv | hv
    · exact hrest.subset (honward.mem_of_edge hedge)
    · exact hrest.subset (ihonward hv)
    · exact ih hv

end Walks

/-! ## Enough fuel -/

section fuel
variable [DecidableEq V] {U : Finset V} {fuel : Nat}

/-- To arrive at vertices of a finite set that edges do not leave follows every edge, if there
is fuel for each vertex of the set that has not been seen. -/
theorem walks_arriveAll (hnext : ∀ v ∈ U, ∀ edge ∈ next v, edge.2 ∈ U)
    (hedges : ∀ edge ∈ edges, edge.2 ∈ U) (hfuel : (U \ seen.toFinset).card ≤ fuel) :
    Walks next seen edges (arriveAll (arrive next fuel) edges seen).1
      (arriveAll (arrive next fuel) edges seen).2 := by
  induction fuel generalizing edges seen with
  | zero =>
    -- Without fuel, everything has been seen.
    have hall : U ⊆ seen.toFinset := by
      rw [← Finset.sdiff_eq_empty_iff_subset]
      exact Finset.card_eq_zero.mp (Nat.le_zero.mp hfuel)
    induction edges with
    | nil => exact .nil
    | cons edge rest ih =>
      rw [List.forall_mem_cons] at hedges
      exact .again (List.mem_toFinset.mp (hall hedges.1)) (ih hedges.2)
  | succ fuel ih =>
    induction edges generalizing seen with
    | nil => exact .nil
    | cons edge rest ihrest =>
      rw [List.forall_mem_cons] at hedges
      by_cases hmem : edge.2 ∈ seen
      · simp only [arriveAll, arrive, if_pos hmem]
        exact .again hmem (ihrest hedges.2 hfuel)
      · simp only [arriveAll, arrive, if_neg hmem]
        have hless : (U \ (edge.2 :: seen).toFinset).card ≤ fuel := by
          have hin : edge.2 ∈ U \ seen.toFinset := by simp [hedges.1, hmem]
          rw [List.toFinset_cons, Finset.sdiff_insert, Finset.card_erase_of_mem hin]
          omega
        have honward := ih (hnext _ hedges.1) hless
        refine .visit hmem honward (ihrest hedges.2 (le_trans (Finset.card_le_card ?_) hfuel))
        apply Finset.sdiff_subset_sdiff (Finset.Subset.refl _)
        intro w hw
        rw [List.mem_toFinset] at hw ⊢
        exact honward.subset (List.mem_cons_of_mem _ hw)

variable (hnext : ∀ v ∈ U, ∀ edge ∈ next v, edge.2 ∈ U) (hroot : root ∈ U)
include hnext hroot

/-- A walk follows every edge, if there is fuel for each vertex that it may come to. -/
theorem walks_walk (via : ε) (hfuel : U.card ≤ fuel) :
    ∃ seen', Walks next [] [(via, root)] [walk next fuel via root] seen' := by
  have hedges : ∀ edge ∈ [(via, root)], edge.2 ∈ U := by simpa using hroot
  exact ⟨_, walks_arriveAll hnext hedges (by simpa using hfuel)⟩

/-- More fuel than for each vertex that it may come to makes no other walk. -/
theorem walk_add_fuel (via : ε) (hfuel : U.card ≤ fuel) (extra : Nat) :
    walk next (fuel + extra) via root = walk next fuel via root := by
  obtain ⟨_, h⟩ := walks_walk hnext hroot via (Nat.le_trans hfuel (Nat.le_add_right _ extra))
  obtain ⟨_, h'⟩ := walks_walk hnext hroot via hfuel
  exact (List.cons.inj (h.unique h').1).1

/-- A walk comes to where an edge leads from what it comes to. -/
theorem mem_order_walk_of_edge (via : ε) (hfuel : U.card ≤ fuel)
    (hv : v ∈ (walk next fuel via root).order) {edge : ε × V} (hedge : edge ∈ next v) :
    edge.2 ∈ (walk next fuel via root).order := by
  obtain ⟨seen', h⟩ := walks_walk hnext hroot via hfuel
  have hmem := h.mem_iff.mp (h.closed (by simpa [orderOfAll] using hv) hedge)
  simpa [orderOfAll] using hmem

/-- A walk comes to its root. -/
theorem root_mem_order_walk (via : ε) (hfuel : U.card ≤ fuel) :
    root ∈ (walk next fuel via root).order := by
  obtain ⟨seen', h⟩ := walks_walk hnext hroot via hfuel
  have hmem := h.mem_iff.mp (h.mem_of_edge (List.mem_singleton.mpr rfl))
  simpa [orderOfAll] using hmem

end fuel

end Concolic.Spanning
