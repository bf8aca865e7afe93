import Concolic.Proofs.Spanning.Depth

/-!
# What walks come to

With enough fuel, a walk comes to exactly what edges lead to from its root. It comes to everything
for the first time once.

## Main statements

* `Spanning.mem_order_walk_iff` — a walk comes to what edges lead to.
* `Spanning.Walks.nodup` — nothing is come to twice for the first time.
* `Spanning.exists_walks_onward` — a walk is its root and a walk along the edges out of it.
-/

namespace Concolic.Spanning

variable {ε V : Type} {next : V → List (ε × V)} {edges : List (ε × V)}
  {ts : List (Spanning ε V)} {seen seen' : List V} {v w root : V}

namespace Walks

/-- What has been seen before is not come to for the first time. -/
theorem not_mem_of_mem (h : Walks next seen edges ts seen') (hv : v ∈ orderOfAll ts) :
    v ∉ seen := by
  induction h with
  | nil => cases hv
  | again _ _ ih => exact ih hv
  | visit hnew honward _ ihonward ih =>
    simp only [orderOfAll, order, List.cons_append, List.mem_cons, List.mem_append] at hv
    rcases hv with rfl | hv | hv
    · exact hnew
    · exact fun hseen => ihonward hv (List.mem_cons_of_mem _ hseen)
    · exact fun hseen => ih hv (honward.subset (List.mem_cons_of_mem _ hseen))

theorem nodup (h : Walks next seen edges ts seen') : (orderOfAll ts).Nodup := by
  induction h with
  | nil => exact List.nodup_nil
  | again _ _ ih => exact ih
  | visit hnew honward hrest ihonward ih =>
    simp only [orderOfAll, order, List.cons_append]
    have hmid : ∀ v ∈ orderOfAll _, v ∉ _ := fun v => hrest.not_mem_of_mem (v := v)
    refine List.nodup_cons.mpr ⟨?_, List.nodup_append.mpr ⟨ihonward, ih, ?_⟩⟩
    · rw [List.mem_append, not_or]
      refine ⟨fun hmem => honward.not_mem_of_mem hmem (List.mem_cons_self ..), fun hmem => ?_⟩
      exact hmid _ hmem (honward.subset (List.mem_cons_self ..))
    · rintro v hv _ hmem rfl
      exact hmid v hmem (honward.mem_iff.mpr (.inr hv))

end Walks

section fuel
variable [DecidableEq V] {U : Finset V} {fuel : Nat}
  (hnext : ∀ v ∈ U, ∀ edge ∈ next v, edge.2 ∈ U) (hroot : root ∈ U)
include hnext hroot

/-- With fuel for each vertex that it may come to, a walk comes to what edges lead to. -/
theorem mem_order_walk_iff (via : ε) (hfuel : U.card ≤ fuel) :
    w ∈ (walk next fuel via root).order ↔ Reaches next root w := by
  constructor
  · have hclosed (v : V) (hv : Reaches next root v) (edge : ε × V) (hedge : edge ∈ next v) :
        Reaches next root edge.2 := hv.tail (leads_of_mem hedge)
    exact forall_mem_order_walk hclosed fuel via .refl w
  · intro hreach
    induction hreach with
    | refl => exact root_mem_order_walk hnext hroot via hfuel
    | tail _ hlead ih =>
      obtain ⟨edge, hedge, rfl⟩ := hlead
      exact mem_order_walk_of_edge hnext hroot via hfuel ih hedge

/-- A walk comes to its root first, and goes on along every edge out of it. -/
theorem exists_walks_onward (via : ε) (hfuel : U.card ≤ fuel) :
    ∃ onward seen', walk next fuel via root = .visit via root onward ∧
      Walks next [root] (next root) onward seen' := by
  obtain ⟨seen', h⟩ := walks_walk hnext hroot via hfuel
  generalize walk next fuel via root = t at h
  cases h with
  | again hmem => cases hmem
  | visit _ honward => exact ⟨_, _, rfl, honward⟩

end fuel

end Concolic.Spanning
