import Mathlib.Data.List.Basic
import Mathlib.Logic.Relation

/-!
# Discovery

A walk that follows references depth first comes to every vertex that they lead to. It discovers a
vertex through the first reference that it follows to it, passes on to the references of the vertex
before it goes on, and ignores all later references to it.

## Main statements

* `Discovers.unique` — what a walk discovers, through which references, is determined.
* `Discovers.mem_iff_reached` — a walk discovers whatever references lead to, and nothing else.
-/

namespace Concolic

variable {ε V : Type} {next : V → List (ε × V)}

/-- Following the references in turn, each labelled, a walk that has discovered the vertices `seen`
comes to have discovered more; each vertex stands with the label of the reference that led to it,
the latest first. -/
inductive Discovers (next : V → List (ε × V)) :
    (references : List (ε × V)) → (seen after : List (V × ε)) → Prop
  | nil {seen : List (V × ε)} : Discovers next [] seen seen
  | known {label : ε} {v : V} {rest : List (ε × V)} {seen after : List (V × ε)} :
      v ∈ seen.map (·.1) → Discovers next rest seen after →
      Discovers next ((label, v) :: rest) seen after
  | new {label : ε} {v : V} {rest : List (ε × V)} {seen between after : List (V × ε)} :
      v ∉ seen.map (·.1) → Discovers next (next v) ((v, label) :: seen) between →
      Discovers next rest between after → Discovers next ((label, v) :: rest) seen after

/-- References lead from one of the roots to the vertex. -/
def Reached (next : V → List (ε × V)) (roots : List (ε × V)) (v : V) : Prop :=
  ∃ root ∈ roots, Relation.ReflTransGen (fun u w => w ∈ (next u).map (·.2)) root.2 v

namespace Discovers

variable {references more : List (ε × V)} {seen between after : List (V × ε)}

theorem append (h : Discovers next references seen between)
    (h' : Discovers next more between after) :
    Discovers next (references ++ more) seen after := by
  induction h with
  | nil => exact h'
  | known hv _ ih => exact .known hv (ih h')
  | new hv hnext _ _ ih => exact .new hv hnext (ih h')

theorem suffix (h : Discovers next references seen after) : seen <:+ after := by
  induction h with
  | nil => exact List.suffix_rfl
  | known _ _ ih => exact ih
  | new _ _ _ ih ih' => exact ((List.suffix_cons _ _).trans ih).trans ih'

/-- A vertex is discovered once. -/
theorem nodup (h : Discovers next references seen after) (hseen : (seen.map (·.1)).Nodup) :
    (after.map (·.1)).Nodup := by
  induction h with
  | nil => exact hseen
  | known _ _ ih => exact ih hseen
  | new hv _ _ ih ih' => exact ih' (ih (List.nodup_cons.mpr ⟨hv, hseen⟩))

theorem unique (h : Discovers next references seen after)
    (h' : Discovers next references seen between) : after = between := by
  induction h generalizing between with
  | nil =>
    cases h'
    rfl
  | known hv _ ih =>
    cases h' with
    | known _ h' => exact ih h'
    | new hnew => exact absurd hv hnew
  | new hv _ _ ih ih' =>
    cases h' with
    | known hknown => exact absurd hknown hv
    | new _ hnext hrest =>
      obtain rfl := ih hnext
      exact ih' hrest

/-- Every reference that was followed led to a vertex that is discovered now, and so did the
references of every vertex discovered on the way. -/
theorem closed (h : Discovers next references seen after) :
    (∀ ref ∈ references, ref.2 ∈ after.map (·.1)) ∧ ∀ v ∈ after.map (·.1),
      v ∉ seen.map (·.1) → ∀ ref ∈ next v, ref.2 ∈ after.map (·.1) := by
  induction h with
  | nil => exact ⟨nofun, fun v hv hnew => absurd hv hnew⟩
  | known hv hrest ih =>
    refine ⟨List.forall_mem_cons.mpr ⟨?_, ih.1⟩, ih.2⟩
    exact (hrest.suffix.map _).subset hv
  | @new label v rest seen between after hv hnext hrest ih ih' =>
    have hsub : between.map (·.1) ⊆ after.map (·.1) := (hrest.suffix.map _).subset
    have hself : v ∈ between.map (·.1) := (hnext.suffix.map _).subset (by simp)
    refine ⟨List.forall_mem_cons.mpr ⟨hsub hself, ih'.1⟩, fun u hu hnew ref href => ?_⟩
    by_cases hbetween : u ∈ between.map (·.1)
    · by_cases huv : u = v
      · subst huv
        exact hsub (ih.1 ref href)
      · have hbefore : u ∉ ((v, label) :: seen).map (·.1) := by
          rw [List.map_cons, List.mem_cons]
          exact not_or.mpr ⟨huv, hnew⟩
        exact hsub (ih.2 u hbetween hbefore ref href)
    · exact ih'.2 u hu hbetween ref href

/-- What is discovered was known, or references lead to it. -/
theorem reached_of_mem (h : Discovers next references seen after) :
    ∀ v ∈ after.map (·.1), v ∈ seen.map (·.1) ∨ Reached next references v := by
  induction h with
  | nil => exact fun v hv => .inl hv
  | known _ _ ih =>
    intro u hu
    refine (ih u hu).imp_right ?_
    rintro ⟨root, hroot, hpath⟩
    exact ⟨root, List.mem_cons_of_mem _ hroot, hpath⟩
  | @new label v rest seen between after _ _ _ ih ih' =>
    intro u hu
    rcases ih' u hu with hu | ⟨root, hroot, hpath⟩
    · rcases ih u hu with hu | ⟨root, hroot, hpath⟩
      · rw [List.map_cons, List.mem_cons] at hu
        rcases hu with rfl | hu
        · exact .inr ⟨(label, u), List.mem_cons_self .., .refl⟩
        · exact .inl hu
      · exact .inr ⟨(label, v), List.mem_cons_self .., .head (List.mem_map_of_mem hroot) hpath⟩
    · exact .inr ⟨root, List.mem_cons_of_mem _ hroot, hpath⟩

theorem mem_iff_reached (h : Discovers next references [] after) (v : V) :
    v ∈ after.map (·.1) ↔ Reached next references v := by
  constructor
  · intro hv
    rcases h.reached_of_mem v hv with hnil | hreached
    · cases hnil
    · exact hreached
  · rintro ⟨root, hroot, hpath⟩
    induction hpath with
    | refl => exact h.closed.1 root hroot
    | tail _ hlead ih =>
      obtain ⟨ref, href, rfl⟩ := List.mem_map.mp hlead
      exact h.closed.2 _ ih List.not_mem_nil ref href

end Discovers

end Concolic
