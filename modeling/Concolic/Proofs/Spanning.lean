import Concolic.Spanning

/-!
# Depth-first walks stay where edges lead

A walk comes to nothing but what edges lead to from its root. A walk through a graph whose
vertices are named otherwise is the same walk under the other names, as long as no two vertices
that it may come to share a name: it has the same shape, and so the same depth.

## Main statements

* `Spanning.forall_mem_order_walk` — a walk stays in a set of vertices that edges do not leave.
* `Spanning.walk_map` — walks under other names.
-/

namespace Concolic.Spanning

variable {ε V W : Type}

/-! ## Sets that edges do not leave -/

section closed
variable [DecidableEq V] {next : V → List (ε × V)} {P : V → Prop}

/-- From within the set, an arrival stays there. -/
def Stays (P : V → Prop) (arrive : ε → V → List V → Spanning ε V × List V) : Prop :=
  ∀ via v seen, P v → (∀ w ∈ seen, P w) →
    (∀ w ∈ (arrive via v seen).1.order, P w) ∧ ∀ w ∈ (arrive via v seen).2, P w

omit [DecidableEq V] in
theorem Stays.arriveAll {arrive : ε → V → List V → Spanning ε V × List V} (h : Stays P arrive)
    {edges : List (ε × V)} {seen : List V} (hedges : ∀ e ∈ edges, P e.2)
    (hseen : ∀ w ∈ seen, P w) :
    (∀ w ∈ orderOfAll (arriveAll arrive edges seen).1, P w) ∧
      ∀ w ∈ (arriveAll arrive edges seen).2, P w := by
  induction edges generalizing seen with
  | nil => exact ⟨nofun, hseen⟩
  | cons edge edges ih =>
    rw [List.forall_mem_cons] at hedges
    obtain ⟨horder, hafter⟩ := h edge.1 edge.2 seen hedges.1 hseen
    obtain ⟨horders, hafters⟩ := ih hedges.2 hafter
    refine ⟨?_, hafters⟩
    intro w hw
    rcases List.mem_append.mp hw with hw | hw
    · exact horder w hw
    · exact horders w hw

theorem stays_arrive (hnext : ∀ v, P v → ∀ e ∈ next v, P e.2) (fuel : Nat) :
    Stays P (arrive next fuel) := by
  induction fuel with
  | zero => exact fun via v seen _ hseen => ⟨nofun, hseen⟩
  | succ fuel ih =>
    intro via v seen hv hseen
    by_cases hmem : v ∈ seen
    · simp only [arrive, if_pos hmem]
      exact ⟨nofun, hseen⟩
    · simp only [arrive, if_neg hmem]
      have hseen' : ∀ w ∈ v :: seen, P w := List.forall_mem_cons.mpr ⟨hv, hseen⟩
      obtain ⟨horder, hafter⟩ := ih.arriveAll (hnext v hv) hseen'
      exact ⟨List.forall_mem_cons.mpr ⟨hv, horder⟩, hafter⟩

/-- A walk stays in a set that has the root and that edges do not leave. -/
theorem forall_mem_order_walk (hnext : ∀ v, P v → ∀ e ∈ next v, P e.2) (fuel : Nat) (via : ε)
    {root : V} (hroot : P root) : ∀ v ∈ (walk next fuel via root).order, P v :=
  (stays_arrive hnext fuel via root [] hroot nofun).1

end closed

/-! ## Other names -/

mutual

/-- The walk with the vertices under other names. -/
def map (f : V → W) : Spanning ε V → Spanning ε W
  | .visit via v onward => .visit via (f v) (mapAll f onward)
  | .again via v => .again via (f v)

def mapAll (f : V → W) : List (Spanning ε V) → List (Spanning ε W)
  | [] => []
  | t :: rest => t.map f :: mapAll f rest

end

mutual

theorem depth_map (f : V → W) : (t : Spanning ε V) → (t.map f).depth = t.depth
  | .visit via v onward => by rw [map, depth, depth, depthOfAll_mapAll f onward]
  | .again via v => by rw [map, depth, depth]

theorem depthOfAll_mapAll (f : V → W) :
    (ts : List (Spanning ε V)) → depthOfAll (mapAll f ts) = depthOfAll ts
  | [] => by rw [mapAll, depthOfAll, depthOfAll]
  | t :: rest => by
    rw [mapAll, depthOfAll, depthOfAll, depth_map f t, depthOfAll_mapAll f rest]

end

section names
variable [DecidableEq V] [DecidableEq W] {f : V → W} {P : V → Prop}
  {next : V → List (ε × V)} {next' : W → List (ε × W)}

omit [DecidableEq V] [DecidableEq W] in
theorem arriveAll_map {arrive : ε → V → List V → Spanning ε V × List V}
    {arrive' : ε → W → List W → Spanning ε W × List W} (hstays : Stays P arrive)
    (h : ∀ via v seen, P v → (∀ w ∈ seen, P w) → arrive' via (f v) (seen.map f) =
      ((arrive via v seen).1.map f, (arrive via v seen).2.map f))
    {edges : List (ε × V)} {seen : List V} (hedges : ∀ e ∈ edges, P e.2)
    (hseen : ∀ w ∈ seen, P w) :
    arriveAll arrive' (edges.map fun e => (e.1, f e.2)) (seen.map f) =
      (mapAll f (arriveAll arrive edges seen).1, (arriveAll arrive edges seen).2.map f) := by
  induction edges generalizing seen with
  | nil => rfl
  | cons edge edges ih =>
    rw [List.forall_mem_cons] at hedges
    have hafter := (hstays edge.1 edge.2 seen hedges.1 hseen).2
    simp only [List.map_cons, arriveAll, h edge.1 edge.2 seen hedges.1 hseen,
      ih hedges.2 hafter, mapAll]

theorem arrive_map (hnext : ∀ v, P v → ∀ e ∈ next v, P e.2)
    (hnext' : ∀ v, P v → next' (f v) = (next v).map fun e => (e.1, f e.2))
    (hf : ∀ v w, P v → P w → f v = f w → v = w) (fuel : Nat) (via : ε) (v : V) (seen : List V)
    (hv : P v) (hseen : ∀ w ∈ seen, P w) : arrive next' fuel via (f v) (seen.map f) =
      ((arrive next fuel via v seen).1.map f, (arrive next fuel via v seen).2.map f) := by
  induction fuel generalizing via v seen with
  | zero => rfl
  | succ fuel ih =>
    have hmem : f v ∈ seen.map f ↔ v ∈ seen := by
      rw [List.mem_map]
      constructor
      · rintro ⟨w, hw, heq⟩
        obtain rfl := hf w v (hseen w hw) hv heq
        exact hw
      · exact fun hmem => ⟨v, hmem, rfl⟩
    by_cases hseenBefore : v ∈ seen
    · simp only [arrive, if_pos hseenBefore, if_pos (hmem.mpr hseenBefore), map]
    · have hseen' : ∀ w ∈ v :: seen, P w := List.forall_mem_cons.mpr ⟨hv, hseen⟩
      have honward := arriveAll_map (stays_arrive hnext fuel) ih (hnext v hv) hseen'
      rw [List.map_cons] at honward
      simp only [arrive, if_neg hseenBefore, if_neg (mt hmem.mp hseenBefore), hnext' v hv,
        honward, map]

/-- A walk where the vertices have other names is the same walk under these names. -/
theorem walk_map (hnext : ∀ v, P v → ∀ e ∈ next v, P e.2)
    (hnext' : ∀ v, P v → next' (f v) = (next v).map fun e => (e.1, f e.2))
    (hf : ∀ v w, P v → P w → f v = f w → v = w) (fuel : Nat) (via : ε) {root : V}
    (hroot : P root) : walk next' fuel via (f root) = (walk next fuel via root).map f :=
  congrArg Prod.fst (arrive_map hnext hnext' hf fuel via root [] hroot nofun)

end names

end Concolic.Spanning
