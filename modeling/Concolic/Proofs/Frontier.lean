import Concolic.Proofs.ExploredPaths
import Mathlib.Algebra.GroupWithZero.Nat
import Mathlib.Algebra.Order.BigOperators.Group.List
import Mathlib.Algebra.Order.Group.Nat

/-!
# The frontier of a path

Next to a path lie the paths that leave it at one of its branches. Each has room for so many
failures and for one confirmation, and whatever is entered of a path takes from its room only.
-/

namespace Concolic

/-! ## Paths next to a path -/

/-- The paths that leave a run of branches at one of them, behind the branches before. -/
def neighbours (before : List Predicate) : List Predicate → List SymbolicState
  | [] => []
  | p :: rest => .basic (before ++ [p.inverse]) :: neighbours (before ++ [p]) rest

theorem length_neighbours (before branches : List Predicate) :
    (neighbours before branches).length = branches.length := by
  induction branches generalizing before with
  | nil => rfl
  | cons p rest ih => simp [neighbours, ih]

theorem mem_neighbours (before lead : List Predicate) (p : Predicate) (rest : List Predicate) :
    State.basic (before ++ lead ++ [p.inverse]) ∈ neighbours before (lead ++ p :: rest) := by
  induction lead generalizing before with
  | nil => simp [neighbours]
  | cons q lead ih =>
    rw [List.cons_append, neighbours]
    refine List.mem_cons_of_mem _ ?_
    simpa using ih (before ++ [q])

/-- The paths next to a path condition. -/
def frontier (path : SymbolicState) : List SymbolicState :=
  neighbours [] (path.parts.filter Clause.isPath)

theorem length_frontier (path : SymbolicState) :
    (frontier path).length = (path.parts.filter Clause.isPath).length := length_neighbours ..

/-- Path conditions that are the same have the same paths next to them. -/
theorem exists_mem_frontier {known path : SymbolicState} {before after : List Predicate}
    {p : Predicate} (hsame : (known == path) = true) (hlinear : path.IsLinear)
    (hpath : ∀ q ∈ path.parts, q.isPath = true) (hparts : path.parts = before ++ p :: after) :
    ∃ f ∈ frontier known, (f == .basic (before ++ [p.inverse])) = true := by
  have hknown := hlinear.of_beq hsame
  have hkey := State.beq_iff_key.mp hsame
  rw [hknown.key_eq, hlinear.key_eq] at hkey
  -- The known path need not be written the same, but all its parts are branches as well.
  have hkept : known.parts.filter Clause.isPath = known.parts := by
    rw [List.filter_eq_self]
    intro q hq
    have hmem := List.mem_map_of_mem (f := fun a => State.Item.toClass (.part a)) hq
    rw [hkey] at hmem
    obtain ⟨q', hq', hclass⟩ := List.mem_map.mp hmem
    have hbeq := State.Item.toClass_eq_iff.mp hclass
    rw [State.Item.part_beq_part] at hbeq
    rw [← Clause.isPath_congr hbeq]
    exact hpath q' hq'
  rw [hparts, List.map_append, List.map_cons, List.map_eq_append_iff] at hkey
  obtain ⟨before', tail, hsplit, hbefore, htail⟩ := hkey
  obtain ⟨p', after', rfl, hp, -⟩ := List.map_eq_cons_iff.mp htail
  refine ⟨.basic ([] ++ before' ++ [p'.inverse]), ?_, ?_⟩
  · rw [frontier, hkept, hsplit]
    exact mem_neighbours [] before' p' after'
  · have hp := State.Item.toClass_eq_iff.mp hp
    rw [State.Item.part_beq_part] at hp
    have hinverse := Clause.inverse_congr hp
    rw [← State.Item.part_beq_part] at hinverse
    rw [State.beq_iff_key, State.key_basic, State.key_basic, List.nil_append, List.map_append,
      List.map_append, hbefore, List.map_singleton, List.map_singleton,
      State.Item.toClass_eq_iff.mpr hinverse]

/-! ## Room for failures -/

/-- How often a path may still fail or be confirmed. -/
def ExploredPaths.room (e : ExploredPaths) (s : SymbolicState) : Nat :=
  if e.contains s then 0 else e.maxRetries - e.failureCount s + 1

namespace ExploredPaths

variable {e : ExploredPaths} {path s : SymbolicState}

theorem room_congr {t : SymbolicState} (h : (s == t) = true) : e.room s = e.room t := by
  rw [room, room, contains_congr h, failureCount_congr h]

/-- What an entry of a path does to the room of paths: none of another path is touched, and
of its own so much is taken. -/
structure Takes (e e' : ExploredPaths) (path : SymbolicState) (amount : Nat) : Prop where
  other : ∀ s, (path == s) = false → e'.room s = e.room s
  own : e'.room path + amount ≤ e.room path

theorem takes_record (h : e.IsKept) (hr : 1 ≤ e.maxRetries) (hnew : e.contains path = false) :
    Takes e (e.record path) path 2 where
  other s hs := by
    simp only [room, contains_record, hs, Bool.or_false, failureCount_record_of_ne hs,
      maxRetries_record]
  own := by
    have hlt := h.failureCount_lt (s := path) hr
    simp only [room, contains_record, BEq.rfl, hnew, Bool.or_true, if_true]
    rw [if_neg (by simp)]
    omega

theorem takes_block (h : e.IsKept) (hr : 1 ≤ e.maxRetries) (hnew : e.contains path = false) :
    Takes e (e.block path) path 2 where
  other s hs := by
    simp only [room, contains_block, hs, Bool.or_false, failureCount_block_of_ne hs,
      maxRetries_block]
  own := by
    have hlt := h.failureCount_lt (s := path) hr
    simp only [room, contains_block, BEq.rfl, hnew, Bool.or_true, if_true]
    rw [if_neg (by simp)]
    omega

theorem takes_recordFailure (h : e.IsKept) (hr : 1 ≤ e.maxRetries)
    (hnew : e.contains path = false) : Takes e (e.recordFailure path) path 1 := by
  rcases recordFailure_cases e path with ⟨hzero, -⟩ | ⟨-, -, heq⟩ | ⟨hlt, heq⟩
  · omega
  · rw [heq]
    have hblock := takes_block h hr hnew
    exact ⟨hblock.other, by have := hblock.own; omega⟩
  · refine ⟨fun s hs => ?_, ?_⟩
    · simp only [room, contains_recordFailure_of_ne hs, failureCount_recordFailure_of_ne hs,
        maxRetries_recordFailure]
    · have hsame : (e.recordFailure path).contains path = false := by
        rw [heq]
        exact hnew
      simp only [room, hsame, hnew, failureCount_recordFailure_self hlt, maxRetries_recordFailure]
      rw [if_neg (by simp), if_neg (by simp)]
      omega

/-- A sum goes down when no term goes up and one goes down. -/
theorem sum_map_add_le {α : Type} {f g : α → Nat} {x : α} {amount : Nat} {xs : List α}
    (hle : ∀ y ∈ xs, f y ≤ g y) (hx : x ∈ xs) (hdown : f x + amount ≤ g x) :
    (xs.map f).sum + amount ≤ (xs.map g).sum := by
  obtain ⟨before, after, rfl⟩ := List.append_of_mem hx
  have hbefore : (before.map f).sum ≤ (before.map g).sum :=
    List.sum_le_sum fun y hy => hle y (List.mem_append_left _ hy)
  have hafter : (after.map f).sum ≤ (after.map g).sum :=
    List.sum_le_sum fun y hy => hle y (List.mem_append_right _ (List.mem_cons_of_mem _ hy))
  simp only [List.map_append, List.map_cons, List.sum_append, List.sum_cons]
  omega

/-- The room of a list of paths that has the entered one goes down by what the entry takes. -/
theorem Takes.sum_room {e' : ExploredPaths} {amount : Nat} {paths : List SymbolicState}
    (h : Takes e e' path amount) (hmem : ∃ f ∈ paths, (f == path) = true) :
    (paths.map e'.room).sum + amount ≤ (paths.map e.room).sum := by
  obtain ⟨f, hf, hsame⟩ := hmem
  have hown : e'.room f + amount ≤ e.room f := by
    rw [room_congr hsame, room_congr hsame]
    exact h.own
  refine sum_map_add_le (fun s _ => ?_) hf hown
  by_cases hs : (path == s) = true
  · rw [← room_congr hs, ← room_congr hs]
    have := h.own
    omega
  · exact Nat.le_of_eq (h.other s (by simpa using hs))

end ExploredPaths

end Concolic
