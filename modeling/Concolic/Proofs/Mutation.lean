import Concolic.Proofs.ExploredPaths
import Mathlib.Order.Bounds.Basic

/-!
# Which branch a mutation flips

A mutation goes through a state from the left, and behind every branch it asks whether a known path
starts with the branches before and this one flipped. The first time that none does, it flips the
branch and stops. What is no branch is kept on the way and takes no part in the question, so the
answer depends on the path condition only, and the known paths matter only by what they start with.

## Main statements

* `ExploredPaths.flipped_of_isLeast` — the loop stops at the leftmost branch that is open.
* `ExploredPaths.mutate_leftmost` — which state a mutation gives, and that its path is new.
-/

namespace Concolic.ExploredPaths

variable {e : ExploredPaths} {s : SymbolicState} {path parts before after : List Predicate}
  {p : Predicate} {k : Nat}

/-- No known path starts with the branches before the one of the index and that one flipped. -/
def IsOpen (e : ExploredPaths) (branches : List Predicate) (k : Nat) : Prop :=
  ∃ p, branches[k]? = some p ∧ e.isCovered (.basic (branches.take k ++ [p.inverse])) = false

/-! ## Branches among other predicates -/

/-- A branch among other predicates stands behind those that stand before it. -/
theorem exists_split_of_getElem? (h : (parts.filter Clause.isPath)[k]? = some p) :
    ∃ before after, parts = before ++ p :: after ∧ p.isPath = true ∧
      before.filter Clause.isPath = (parts.filter Clause.isPath).take k := by
  obtain ⟨hlt, hget⟩ := List.getElem?_eq_some_iff.mp h
  have hsplit : parts.filter Clause.isPath = (parts.filter Clause.isPath).take k ++
      p :: (parts.filter Clause.isPath).drop (k + 1) := by
    rw [← hget, ← List.drop_eq_getElem_cons hlt, List.take_append_drop]
  obtain ⟨lead, rest, rfl, hlead, hrest⟩ := List.filter_eq_append_iff.mp hsplit
  obtain ⟨others, after, rfl, hothers, hp, -⟩ := List.filter_eq_cons_iff.mp hrest
  refine ⟨lead ++ others, after, (List.append_assoc ..).symm, hp, ?_⟩
  rw [List.filter_append, List.filter_eq_nil_iff.mpr hothers, List.append_nil, hlead]

/-- Branches that are covered on their other side are passed, and the next one that is not is
flipped. -/
theorem flipped_of_split (hp : p.isPath = true)
    (hpassed : ∀ lead q rest, before.filter Clause.isPath = lead ++ q :: rest →
      e.isCovered (.basic (path ++ lead ++ [q.inverse])) = true)
    (hfree : e.isCovered (.basic (path ++ before.filter Clause.isPath ++ [p.inverse])) = false) :
    e.flipped path (before ++ p :: after) = before ++ [p.inverse] := by
  induction before generalizing path with
  | nil =>
    rw [List.filter_nil, List.append_nil] at hfree
    rw [List.nil_append, flipped, hp, hfree]
    rfl
  | cons q before ih =>
    by_cases hq : q.isPath = true
    · rw [List.filter_cons_of_pos hq] at hpassed hfree
      have hcovered : e.isCovered (.basic (path ++ [q.inverse])) = true := by
        simpa using hpassed [] q _ rfl
      have hrest : e.flipped (path ++ [q]) (before ++ p :: after) = before ++ [p.inverse] := by
        refine ih (fun lead q' rest heq => ?_) (by simpa using hfree)
        simpa using hpassed (q :: lead) q' rest (by rw [heq]; rfl)
      rw [List.cons_append, flipped, hq, hcovered, hrest]
      rfl
    · rw [List.filter_cons_of_neg hq] at hpassed hfree
      rw [List.cons_append, flipped, if_pos (by simpa using hq), ih hpassed hfree]
      rfl

/-- The loop stops at the leftmost branch that is open. -/
theorem flipped_of_isLeast (hk : IsLeast {k | e.IsOpen (parts.filter Clause.isPath) k} k) :
    ∃ before p after, parts = before ++ p :: after ∧ p.isPath = true ∧
      (parts.filter Clause.isPath)[k]? = some p ∧
      before.filter Clause.isPath = (parts.filter Clause.isPath).take k ∧
      e.flipped [] parts = before ++ [p.inverse] := by
  obtain ⟨⟨p, hget, hfree⟩, hleast⟩ := hk
  obtain ⟨before, after, hparts, hp, hbefore⟩ := exists_split_of_getElem? hget
  refine ⟨before, p, after, hparts, hp, hget, hbefore, ?_⟩
  rw [hparts]
  refine flipped_of_split hp (fun lead q rest heq => ?_) (by rwa [List.nil_append, hbefore])
  -- A branch in front that is not covered is open, and it stands to the left of the leftmost one.
  by_contra hnot
  rw [Bool.not_eq_true, List.nil_append] at hnot
  rw [hbefore] at heq
  have hbranches : parts.filter Clause.isPath =
      lead ++ q :: (rest ++ (parts.filter Clause.isPath).drop k) := by
    rw [← List.cons_append, ← List.append_assoc, ← heq, List.take_append_drop]
  have hopen : e.IsOpen (parts.filter Clause.isPath) lead.length := by
    rw [hbranches]
    exact ⟨q, by simp, by rwa [List.take_left]⟩
  have hle : k ≤ lead.length := hleast hopen
  have hlength := congrArg List.length heq
  rw [List.length_take, List.length_append, List.length_cons] at hlength
  omega

theorem mutate_of_not_isOpen
    (hnone : ∀ k, ¬e.IsOpen (s.parts.filter Clause.isPath) k) : e.mutate s = .basic s.parts := by
  rcases e.mutate_cases s with ⟨heq, -⟩ | ⟨before, p, after, hparts, hp, -, hpath, hfree⟩
  · exact heq
  · refine absurd ⟨p, ?_, ?_⟩ (hnone (before.filter Clause.isPath).length)
    · simp [hparts, hp]
    · rw [hpath] at hfree
      simpa [hparts, hp] using hfree

/-- A path does not start with the branches before one of its own and that one flipped. -/
theorem not_startsWith_of_flip (hs : s.IsLinear) (hparts : s.parts = before ++ p :: after)
    (hp : p.IsRelation) : s.startsWith (.basic (before ++ [p.inverse])) = false := by
  rw [← Bool.not_eq_true, State.startsWith_iff_key, hs.key_eq, State.key_basic, hparts,
    List.map_append, List.map_append, List.prefix_append_right_inj, List.map_cons, List.map_cons,
    List.cons_prefix_cons]
  rintro ⟨hsame, -⟩
  rw [State.Item.toClass_eq_iff, State.Item.part_beq_part, Clause.inverse_beq_self hp] at hsame
  exact Bool.false_ne_true hsame

/-! ## The mutation -/

/-- Of a state without choices, whose branches are equalities and inequalities, a mutation flips the
leftmost branch that is open. What stands before it is kept, and nothing stands behind it. The path
of the new state is thus the branches before and the branch flipped; it is neither covered nor
known, and the path of the state does not start with it. Where no branch is open, the state stays
the same. -/
theorem mutate_leftmost (e : ExploredPaths) (hs : s.IsLinear)
    (hrelation : ∀ p ∈ s.parts, p.isPath = true → p.IsRelation) :
    ((∀ k, ¬e.IsOpen (s.parts.filter Clause.isPath) k) → (e.mutate s == s) = true) ∧
    ∀ k, IsLeast {k | e.IsOpen (s.parts.filter Clause.isPath) k} k →
      ∃ before p after, s.parts = before ++ p :: after ∧
        (s.parts.filter Clause.isPath)[k]? = some p ∧
        before.filter Clause.isPath = (s.parts.filter Clause.isPath).take k ∧
        e.mutate s = .basic (before ++ [p.inverse]) ∧
        (e.mutate s).path = .basic ((s.parts.filter Clause.isPath).take k ++ [p.inverse]) ∧
        e.isCovered (e.mutate s).path = false ∧
        e.contains (e.mutate s).path = false ∧
        s.path.startsWith (e.mutate s).path = false := by
  constructor
  · intro hnone
    rw [mutate_of_not_isOpen hnone, State.beq_iff_key, State.key_basic, hs.key_eq]
  · intro k hk
    obtain ⟨before, p, after, hparts, hp, hget, hbefore, hflipped⟩ := flipped_of_isLeast hk
    have hmutate : e.mutate s = .basic (before ++ [p.inverse]) := by rw [mutate, hflipped]
    have hpath : (e.mutate s).path =
        .basic ((s.parts.filter Clause.isPath).take k ++ [p.inverse]) := by
      rw [hmutate, State.path_basic, List.filter_append, hbefore]
      simp [hp]
    have hfree : e.isCovered (e.mutate s).path = false := by
      obtain ⟨⟨q, hq, hfree⟩, -⟩ := hk
      rw [hget] at hq
      rwa [hpath, Option.some.inj hq]
    have hleaves : s.path.startsWith (e.mutate s).path = false := by
      have hsplit : s.path.parts = (s.parts.filter Clause.isPath).take k ++
          p :: after.filter Clause.isPath := by
        rw [State.parts_path hs, ← hbefore, hparts, List.filter_append, List.filter_cons_of_pos hp]
      have hmem : p ∈ s.parts := by simp [hparts]
      rw [hpath]
      exact not_startsWith_of_flip (State.isLinear_path hs) hsplit (hrelation p hmem hp)
    exact ⟨before, p, after, hparts, hget, hbefore, hmutate, hpath, hfree,
      contains_of_not_isCovered hfree, hleaves⟩

/-! A state assigns a number, takes a branch, assigns another and takes a second branch. A longer
path that leaves at the first branch is known. -/

namespace Leaving

def assignment (name : String) (value : Int32) : Predicate :=
  ⟨.state, .equal (.value .int name) (.int value), {}⟩

def branch (name : String) : Predicate := ⟨.path, .equal (.value .bool name) (.bool true), {}⟩

def state : SymbolicState :=
  .basic [assignment "x" 1, branch "a", assignment "y" 2, branch "b"]

def explored : ExploredPaths where
  paths := [.basic [(branch "a").inverse, branch "c"]]

theorem isLeast_open : IsLeast {k | explored.IsOpen (state.parts.filter Clause.isPath) k} 1 := by
  have hbranches : state.parts.filter Clause.isPath = [branch "a", branch "b"] := rfl
  rw [hbranches]
  refine ⟨⟨branch "b", rfl, by decide +kernel⟩, fun k hk => ?_⟩
  by_contra hlt
  obtain rfl : k = 0 := by omega
  obtain ⟨p, hp, hfree⟩ := hk
  cases hp
  exact absurd hfree (by decide +kernel)

/-- The known path covers the first branch on its other side, so the second one is flipped. -/
theorem state_mutated : state.IsLinear ∧
    (∀ p ∈ state.parts, p.isPath = true → p.IsRelation) ∧
    (explored.mutate state).path = .basic [branch "a", (branch "b").inverse] ∧
    explored.contains (explored.mutate state).path = false ∧
    state.path.startsWith (explored.mutate state).path = false := by
  have hlinear : state.IsLinear := State.isLinear_basic _
  have hrelation : ∀ p ∈ state.parts, p.isPath = true → p.IsRelation := by decide
  obtain ⟨-, hflips⟩ := mutate_leftmost explored hlinear hrelation
  obtain ⟨before, p, after, -, hp, -, -, hpath, -, hnew, hleaves⟩ := hflips 1 isLeast_open
  cases hp
  exact ⟨hlinear, hrelation, hpath, hnew, hleaves⟩

end Leaving

end Concolic.ExploredPaths
