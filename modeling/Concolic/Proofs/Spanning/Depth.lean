import Concolic.Proofs.Spanning.Completeness
import Mathlib.Data.List.Chain
import Mathlib.Logic.Relation
import Mathlib.Order.Bounds.Basic

/-!
# How deep a walk is

Where a graph has no cycle, the way down the tree of a walk to a vertex is its leftmost chain: every
step takes the first edge behind which the vertex lies. For a walk that leaves out an edge has been
to where it leads, and then it has been to everything behind it. So the depth of the walk is the
length of the longest leftmost chain. Other chains, which come to a shared vertex by a later edge,
do not count, however long they are.

## Main statements

* `Spanning.Walks.length_le_depthOfAll`, `Spanning.Walks.exists_chain` — no leftmost chain is longer
  than a walk is deep, and some is as long.
* `Spanning.Walks.isGreatest_depth` — the same of the walk from a root.
-/

namespace Concolic.Spanning

variable {ε V : Type} {next : V → List (ε × V)} {edges before after : List (ε × V)}
  {edge : ε × V} {ts : List (Spanning ε V)} {seen seen' : List V} {v w root target : V}
  {chain : List V}

/-! ## Where edges lead -/

/-- An edge leads from the one vertex to the other. -/
def Leads (next : V → List (ε × V)) (v w : V) : Prop := ∃ edge ∈ next v, edge.2 = w

/-- Edges lead from the one vertex to the other, through any number of vertices. -/
def Reaches (next : V → List (ε × V)) : V → V → Prop := Relation.ReflTransGen (Leads next)

/-- Edges lead from the vertex to no cycle. -/
def IsAcyclicFrom (next : V → List (ε × V)) (v : V) : Prop :=
  ∀ w, Reaches next v w → ¬Relation.TransGen (Leads next) w w

/-- From a vertex to the target, where every step takes the first edge behind which the target
lies. -/
inductive LeftmostChain (next : V → List (ε × V)) (target : V) : V → List V → Prop
  | here : LeftmostChain next target target [target]
  | step {v : V} {before after : List (ε × V)} {edge : ε × V} {chain : List V} :
      next v = before ++ edge :: after → (∀ other ∈ before, ¬Reaches next other.2 target) →
      LeftmostChain next target edge.2 chain → LeftmostChain next target v (v :: chain)

theorem leads_of_mem (hedge : edge ∈ next v) : Leads next v edge.2 := ⟨edge, hedge, rfl⟩

theorem IsAcyclicFrom.of_leads (hacyclic : IsAcyclicFrom next v) (hlead : Leads next v w) :
    IsAcyclicFrom next w :=
  fun x hx => hacyclic x (hx.head hlead)

theorem IsAcyclicFrom.not_reaches (hacyclic : IsAcyclicFrom next v) (hlead : Leads next v w) :
    ¬Reaches next w v :=
  fun hback => hacyclic v .refl (.head' hlead hback)

theorem LeftmostChain.reaches (hchain : LeftmostChain next target v chain) :
    Reaches next v target := by
  induction hchain with
  | here => exact .refl
  | step hnext _ _ ih =>
    exact ih.head (leads_of_mem (hnext ▸ List.mem_append_right _ (List.mem_cons_self ..)))

/-- A leftmost chain is a chain of edges. -/
theorem LeftmostChain.isChain (hchain : LeftmostChain next target v chain) :
    ∃ rest, chain = v :: rest ∧ List.IsChain (Leads next) (v :: rest) := by
  induction hchain with
  | here => exact ⟨[], rfl, List.isChain_singleton _⟩
  | step hnext _ _ ih =>
    obtain ⟨rest, rfl, hrest⟩ := ih
    have hlead := leads_of_mem (hnext ▸ List.mem_append_right _ (List.mem_cons_self ..))
    exact ⟨_, rfl, List.isChain_cons_cons.mpr ⟨hlead, hrest⟩⟩

/-! ## What has been seen is settled -/

/-- Whatever was seen before and the edges lead to, all that lies behind it was seen as well. -/
def Settled (next : V → List (ε × V)) (seen : List V) (edges : List (ε × V)) : Prop :=
  ∀ edge ∈ edges, ∀ v ∈ seen, Reaches next edge.2 v → ∀ w, Reaches next v w → w ∈ seen

theorem Settled.rest (hsettled : Settled next seen (edge :: edges)) : Settled next seen edges :=
  fun other hother => hsettled other (List.mem_cons_of_mem _ hother)

theorem Settled.mem_of_head (hsettled : Settled next seen (edge :: edges)) (hmem : edge.2 ∈ seen)
    (hw : Reaches next edge.2 w) : w ∈ seen :=
  hsettled edge (List.mem_cons_self ..) _ hmem .refl w hw

/-- Behind a new vertex everything is settled, as no edge leads back to it. -/
theorem Settled.onward (hsettled : Settled next seen (edge :: edges))
    (hacyclic : IsAcyclicFrom next edge.2) :
    Settled next (edge.2 :: seen) (next edge.2) := by
  intro other hother v hv hreach w hw
  have hlead := leads_of_mem hother
  rcases List.mem_cons.mp hv with rfl | hv
  · exact absurd hreach (hacyclic.not_reaches hlead)
  · exact List.mem_cons_of_mem _
      (hsettled edge (List.mem_cons_self ..) v hv (hreach.head hlead) w hw)

namespace Walks

/-- A walk comes only to what the edges lead to. -/
theorem reaches_of_mem (h : Walks next seen edges ts seen') (hv : v ∈ orderOfAll ts) :
    ∃ edge ∈ edges, Reaches next edge.2 v := by
  induction h with
  | nil => cases hv
  | again _ _ ih =>
    obtain ⟨edge, hedge, hreach⟩ := ih hv
    exact ⟨edge, List.mem_cons_of_mem _ hedge, hreach⟩
  | visit _ _ _ ihonward ih =>
    simp only [orderOfAll, order, List.cons_append, List.mem_cons, List.mem_append] at hv
    rcases hv with rfl | hv | hv
    · exact ⟨_, List.mem_cons_self .., .refl⟩
    · obtain ⟨edge, hedge, hreach⟩ := ihonward hv
      exact ⟨_, List.mem_cons_self .., hreach.head (leads_of_mem hedge)⟩
    · obtain ⟨edge, hedge, hreach⟩ := ih hv
      exact ⟨edge, List.mem_cons_of_mem _ hedge, hreach⟩

/-- A walk comes to everything that lies behind the edges, unless it was seen before. -/
theorem mem_of_reaches (h : Walks next seen edges ts seen') (hsettled : Settled next seen edges)
    (hedge : edge ∈ edges) (hw : Reaches next edge.2 w) : w ∈ seen' := by
  induction hw with
  | refl => exact h.mem_of_edge hedge
  | tail hreach hlead ih =>
    rcases h.mem_iff.mp ih with hseen | horder
    · exact h.subset (hsettled edge hedge _ hseen hreach _ (.single hlead))
    · obtain ⟨onward, honward, rfl⟩ := hlead
      exact h.closed horder honward

/-- Once an edge has been followed, everything is settled for the others. -/
theorem settled_rest {mid : List V} {t : Spanning ε V} (h : Walks next seen [edge] [t] mid)
    (hsettled : Settled next seen (edge :: edges)) : Settled next mid edges := by
  have hself : Settled next seen [edge] := by
    intro other hother
    exact hsettled other (List.mem_cons.mpr (.inl (List.mem_singleton.mp hother)))
  intro other hother v hv hreach w hw
  rcases h.mem_iff.mp hv with hseen | horder
  · exact h.subset (hsettled.rest other hother v hseen hreach w hw)
  · obtain ⟨_, hmem, hfrom⟩ := h.reaches_of_mem horder
    obtain rfl := List.mem_singleton.mp hmem
    exact h.mem_of_reaches hself hmem (hfrom.trans hw)

/-! ## The depth of a walk -/

/-- No leftmost chain to a new vertex is longer than the walk is deep. -/
theorem length_le_depthOfAll (h : Walks next seen edges ts seen')
    (hsettled : Settled next seen edges) (hacyclic : ∀ edge ∈ edges, IsAcyclicFrom next edge.2)
    (hnew : target ∉ seen) (hedges : edges = before ++ edge :: after)
    (hfirst : ∀ other ∈ before, ¬Reaches next other.2 target)
    (hchain : LeftmostChain next target edge.2 chain) : chain.length ≤ depthOfAll ts := by
  induction h generalizing before edge after chain with
  | nil => simp at hedges
  | @again seen seen' other rest ts hmem _ ih =>
    rw [List.forall_mem_cons] at hacyclic
    cases before with
    | nil =>
      obtain ⟨rfl, rfl⟩ := List.cons.inj hedges
      exact absurd (hsettled.mem_of_head hmem hchain.reaches) hnew
    | cons _ before =>
      obtain ⟨rfl, rfl⟩ := List.cons.inj hedges
      rw [List.forall_mem_cons] at hfirst
      have hle := ih hsettled.rest hacyclic.2 hnew rfl hfirst.2 hchain
      exact hle.trans (Nat.le_max_right ..)
  | @visit seen mid seen' other rest onward ts hunseen honward hrest ihonward ih =>
    rw [List.forall_mem_cons] at hacyclic
    cases before with
    | nil =>
      obtain ⟨rfl, rfl⟩ := List.cons.inj hedges
      refine le_trans ?_ (Nat.le_max_left ..)
      rw [depth]
      cases hchain with
      | here => exact Nat.le_add_right ..
      | step hnext hfirst hchain =>
        -- The chain goes on to the target, which is not the vertex that was come to.
        have hlead := leads_of_mem (hnext ▸ List.mem_append_right _ (List.mem_cons_self ..))
        have hne : target ≠ other.2 := by
          rintro rfl
          exact hacyclic.1.not_reaches hlead hchain.reaches
        have hle := ihonward (hsettled.onward hacyclic.1)
          (fun other hother => hacyclic.1.of_leads (leads_of_mem hother))
          (List.not_mem_cons_of_ne_of_not_mem hne hnew) hnext hfirst hchain
        rw [List.length_cons]
        omega
    | cons _ before =>
      obtain ⟨rfl, rfl⟩ := List.cons.inj hedges
      rw [List.forall_mem_cons] at hfirst
      have hone : Walks next seen [other] [.visit other.1 other.2 onward] mid :=
        .visit hunseen honward .nil
      have hunmet : target ∉ mid := by
        intro hmem
        rcases hone.mem_iff.mp hmem with hseen | horder
        · exact hnew hseen
        · obtain ⟨_, hother, hreach⟩ := hone.reaches_of_mem horder
          obtain rfl := List.mem_singleton.mp hother
          exact hfirst.1 hreach
      have hle := ih (hone.settled_rest hsettled) hacyclic.2 hunmet rfl hfirst.2 hchain
      exact hle.trans (Nat.le_max_right ..)

/-- A walk that comes to anything is as deep as some leftmost chain to a new vertex. -/
theorem exists_chain (h : Walks next seen edges ts seen') (hsettled : Settled next seen edges)
    (hacyclic : ∀ edge ∈ edges, IsAcyclicFrom next edge.2) (hdepth : 0 < depthOfAll ts) :
    ∃ target chain before edge after, target ∉ seen ∧ edges = before ++ edge :: after ∧
      (∀ other ∈ before, ¬Reaches next other.2 target) ∧
      LeftmostChain next target edge.2 chain ∧ chain.length = depthOfAll ts := by
  induction h with
  | nil => simp [depthOfAll] at hdepth
  | @again seen seen' other rest ts hmem _ ih =>
    rw [List.forall_mem_cons] at hacyclic
    simp only [depthOfAll, depth, Nat.zero_max] at hdepth ⊢
    obtain ⟨target, chain, before, edge, after, hnew, rfl, hfirst, hchain, hlength⟩ :=
      ih hsettled.rest hacyclic.2 hdepth
    have hother : ¬Reaches next other.2 target :=
      fun hreach => hnew (hsettled.mem_of_head hmem hreach)
    exact ⟨target, chain, other :: before, edge, after, hnew, rfl,
      List.forall_mem_cons.mpr ⟨hother, hfirst⟩, hchain, hlength⟩
  | @visit seen mid seen' other rest onward ts hunseen honward hrest ihonward ih =>
    rw [List.forall_mem_cons] at hacyclic
    have hone : Walks next seen [other] [.visit other.1 other.2 onward] mid :=
      .visit hunseen honward .nil
    simp only [depthOfAll, depth] at hdepth ⊢
    rcases Nat.lt_or_ge (1 + depthOfAll onward) (depthOfAll ts) with hlt | hge
    · -- The deepest way is found later, so the target does not lie behind this edge.
      rw [Nat.max_eq_right (Nat.le_of_lt hlt)]
      obtain ⟨target, chain, before, edge, after, hnew, rfl, hfirst, hchain, hlength⟩ :=
        ih (hone.settled_rest hsettled) hacyclic.2 (by omega)
      have hother : ¬Reaches next other.2 target := by
        intro hreach
        have hself : Settled next seen [other] := fun edge hedge =>
          hsettled edge (List.mem_cons.mpr (.inl (List.mem_singleton.mp hedge)))
        exact hnew (hone.mem_of_reaches hself (List.mem_singleton.mpr rfl) hreach)
      exact ⟨target, chain, other :: before, edge, after, fun hmem => hnew (hone.subset hmem),
        rfl, List.forall_mem_cons.mpr ⟨hother, hfirst⟩, hchain, hlength⟩
    · rw [Nat.max_eq_left hge]
      rcases Nat.eq_zero_or_pos (depthOfAll onward) with hzero | hpos
      · exact ⟨other.2, [other.2], [], other, rest, hunseen, rfl, nofun, .here, by simp [hzero]⟩
      · obtain ⟨target, chain, before, edge, after, hnew, hnext, hfirst, hchain, hlength⟩ :=
          ihonward (hsettled.onward hacyclic.1)
            (fun edge hedge => hacyclic.1.of_leads (leads_of_mem hedge)) hpos
        refine ⟨target, other.2 :: chain, [], other, rest, ?_, rfl, nofun,
          .step hnext hfirst hchain, ?_⟩
        · exact fun hmem => hnew (List.mem_cons_of_mem _ hmem)
        · rw [List.length_cons, hlength, Nat.add_comm]

/-- From a root, a walk is as deep as its longest leftmost chain is long. -/
theorem isGreatest_depth {via : ε} {t : Spanning ε V}
    (h : Walks next [] [(via, root)] [t] seen') (hacyclic : IsAcyclicFrom next root) :
    IsGreatest {n | ∃ target chain, LeftmostChain next target root chain ∧ chain.length = n}
      t.depth := by
  have hdepth : depthOfAll [t] = t.depth := Nat.max_zero _
  have hsettled : Settled next [] [(via, root)] := by
    intro _ _ _ hseen
    cases hseen
  have hedges : ∀ edge ∈ [(via, root)], IsAcyclicFrom next edge.2 := by simpa using hacyclic
  have hbound : ∀ n, (∃ target chain, LeftmostChain next target root chain ∧ chain.length = n) →
      n ≤ depthOfAll [t] := by
    rintro n ⟨target, chain, hchain, rfl⟩
    have hsplit : [(via, root)] = [] ++ (via, root) :: [] := rfl
    exact h.length_le_depthOfAll hsettled hedges List.not_mem_nil hsplit (by simp) hchain
  rw [← hdepth]
  refine ⟨?_, hbound⟩
  have hpos : 0 < depthOfAll [t] := hbound 1 ⟨root, [root], .here, rfl⟩
  obtain ⟨target, chain, before, edge, after, -, hsplit, -, hchain, hlength⟩ :=
    h.exists_chain hsettled hedges hpos
  have hedge : edge ∈ [(via, root)] := hsplit ▸ List.mem_append_right _ (List.mem_cons_self ..)
  rw [List.mem_singleton.mp hedge] at hchain
  exact ⟨target, chain, hchain, hlength⟩

end Walks

/-- A chain of edges leads from each vertex to every later one. -/
theorem pairwise_of_isChain (hchain : List.IsChain (Leads next) (v :: chain)) :
    (v :: chain).Pairwise (Relation.TransGen (Leads next)) :=
  (hchain.imp fun _ _ => .single).pairwise

/-- A chain of edges repeats no vertex where there is no cycle. -/
theorem IsAcyclicFrom.nodup_of_isChain (hacyclic : IsAcyclicFrom next v)
    (hchain : List.IsChain (Leads next) (v :: chain)) : (v :: chain).Nodup := by
  have hpairs := pairwise_of_isChain hchain
  refine hpairs.imp_of_mem fun {w x} hw _ hlead => ?_
  have hreach : Reaches next v w := by
    rcases List.mem_cons.mp hw with rfl | hw
    · exact .refl
    · exact (List.rel_of_pairwise_cons hpairs hw).to_reflTransGen
  rintro rfl
  exact hacyclic w hreach hlead

end Concolic.Spanning
