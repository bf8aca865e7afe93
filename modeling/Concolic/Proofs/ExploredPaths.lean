import Concolic.ExploredPaths
import Concolic.Proofs.State.Linear
import Concolic.Proofs.Term.Inverse

/-!
# Bookkeeping of explored paths

What each operation does to the questions that a search asks: is a path known, is it covered,
how often has it failed. Known and covered paths only ever become more. The path that a
mutation leads to is never covered, and when a mutation leads nowhere, the other side of
every branch is.
-/

namespace Concolic.ExploredPaths

variable {states : List SymbolicState} {e : ExploredPaths} {path s t : SymbolicState}

/-! ## Lists of states -/

theorem has_iff : has states s = true ↔ ∃ known ∈ states, (known == s) = true := by
  simp [has]

theorem has_congr (h : (s == t) = true) : has states s = has states t := by
  rw [Bool.eq_iff_iff, has_iff, has_iff]
  exact ⟨fun ⟨known, hmem, hs⟩ => ⟨known, hmem, BEq.trans hs h⟩,
    fun ⟨known, hmem, ht⟩ => ⟨known, hmem, BEq.trans ht (BEq.symm h)⟩⟩

theorem has_append (first second : List SymbolicState) :
    has (first ++ second) s = (has first s || has second s) := List.any_append

theorem has_singleton : has [path] s = (path == s) := by simp [has]

theorem add_of_has (h : has states path = true) : add states path = states := if_pos h

theorem add_of_not_has (h : has states path = false) : add states path = states ++ [path] := by
  simp [add, h]

/-- After adding a state, a state is there when it was or when it is the one added. -/
theorem has_add : has (add states path) s = (has states s || path == s) := by
  by_cases h : has states path = true
  · rw [add_of_has h]
    by_cases hs : (path == s) = true
    · rw [← has_congr hs, h, Bool.true_or]
    · simp [hs]
  · rw [add_of_not_has (by simpa using h), has_append, has_singleton]

/-! ## Known and covered paths -/

theorem contains_eq : e.contains s = has (e.paths ++ e.blocked) s := (has_append ..).symm

theorem contains_iff :
    e.contains s = true ↔ ∃ known ∈ e.paths ++ e.blocked, (known == s) = true := by
  rw [contains_eq, has_iff]

theorem contains_congr (h : (s == t) = true) : e.contains s = e.contains t := by
  rw [contains_eq, contains_eq, has_congr h]

theorem isCovered_iff :
    e.isCovered s = true ↔ ∃ known ∈ e.paths ++ e.blocked, known.startsWith s = true := by
  rw [isCovered, List.any_eq_true]

/-- A known path is covered. -/
theorem isCovered_of_contains (h : e.contains s = true) : e.isCovered s = true := by
  obtain ⟨known, hmem, hs⟩ := contains_iff.mp h
  exact isCovered_iff.mpr ⟨known, hmem, (State.beq_iff_startsWith.mp hs).1⟩

theorem contains_of_not_isCovered (h : e.isCovered s = false) : e.contains s = false := by
  rw [← Bool.not_eq_true] at h ⊢
  exact fun hcontains => h (isCovered_of_contains hcontains)

theorem not_contains_iff :
    e.contains s = false ↔ has e.paths s = false ∧ has e.blocked s = false := by
  rw [contains, Bool.or_eq_false_iff]

/-- More paths cover more. -/
theorem isCovered_mono {e' : ExploredPaths} (hsub : e.paths ++ e.blocked ⊆ e'.paths ++ e'.blocked)
    (h : e.isCovered s = true) : e'.isCovered s = true := by
  obtain ⟨known, hmem, hs⟩ := isCovered_iff.mp h
  exact isCovered_iff.mpr ⟨known, hsub hmem, hs⟩

theorem subset_add : states ⊆ add states path := by
  by_cases h : has states path = true
  · rw [add_of_has h]
    exact List.Subset.refl _
  · rw [add_of_not_has (by simpa using h)]
    exact List.subset_append_left ..

/-! ## Failures -/

theorem failureCount_congr (h : (s == t) = true) : e.failureCount s = e.failureCount t := by
  have hsame : (fun entry : SymbolicState × Nat => entry.1 == s) = fun entry => entry.1 == t := by
    funext entry
    rw [Bool.eq_iff_iff]
    exact ⟨fun hs => BEq.trans hs h, fun ht => BEq.trans ht (BEq.symm h)⟩
  rw [failureCount, failureCount, hsame]

theorem failureCount_forget_of_ne (h : (path == s) = false) :
    (e.forget path).failureCount s = e.failureCount s := by
  have hkept : ∀ entry : SymbolicState × Nat, (entry.1 == s) = true →
      (!(entry.1 == path)) = true := by
    intro entry hs
    rw [Bool.not_eq_true', ← Bool.not_eq_true]
    intro hpath
    rw [← Bool.not_eq_true] at h
    exact h (BEq.trans (BEq.symm hpath) hs)
  have hfind : ∀ entries : List (SymbolicState × Nat),
      (entries.filter fun entry => !(entry.1 == path)).find? (fun entry => entry.1 == s) =
        entries.find? fun entry => entry.1 == s := by
    intro entries
    rw [List.find?_filter]
    congr 1
    funext entry
    have := hkept entry
    grind
  simp [failureCount, forget, hfind]

theorem find?_forget_self :
    (e.forget path).failures.find? (fun entry => entry.1 == path) = none := by
  rw [List.find?_eq_none]
  intro entry hentry
  simpa [forget] using (List.mem_filter.mp hentry).2

theorem failureCount_forget_self : (e.forget path).failureCount path = 0 := by
  simp [failureCount, find?_forget_self]

/-! ## Operations -/

theorem contains_record : (e.record path).contains s = (e.contains s || path == s) := by
  simp only [contains, record, forget, has_add, Bool.or_right_comm]

theorem contains_block : (e.block path).contains s = (e.contains s || path == s) := by
  simp only [contains, block, forget, has_add, Bool.or_assoc]

@[simp] theorem maxRetries_record : (e.record path).maxRetries = e.maxRetries := rfl

@[simp] theorem maxRetries_block : (e.block path).maxRetries = e.maxRetries := rfl

theorem failureCount_record_of_ne (h : (path == s) = false) :
    (e.record path).failureCount s = e.failureCount s := failureCount_forget_of_ne h

theorem failureCount_block_of_ne (h : (path == s) = false) :
    (e.block path).failureCount s = e.failureCount s := failureCount_forget_of_ne h

/-- A failure that gives its path up. -/
theorem recordFailure_of_le (hzero : e.maxRetries ≠ 0)
    (h : e.maxRetries ≤ e.failureCount path + 1) : e.recordFailure path = e.block path := by
  simp [recordFailure, hzero, h]

/-- A failure that only counts. -/
theorem recordFailure_of_lt (h : e.failureCount path + 1 < e.maxRetries) :
    e.recordFailure path =
      { e.forget path with
        failures := (e.forget path).failures ++ [(path, e.failureCount path + 1)] } := by
  have hzero : e.maxRetries ≠ 0 := by omega
  have hle : ¬e.maxRetries ≤ e.failureCount path + 1 := by omega
  simp [recordFailure, hzero, hle]

theorem recordFailure_of_zero (h : e.maxRetries = 0) : e.recordFailure path = e := by
  simp [recordFailure, h]

@[simp] theorem maxRetries_recordFailure : (e.recordFailure path).maxRetries = e.maxRetries := by
  unfold recordFailure
  split
  · rfl
  · dsimp only
    split <;> rfl

/-- A failure does one of three things: nothing, give its path up, or count. -/
theorem recordFailure_cases (e : ExploredPaths) (path : SymbolicState) :
    (e.maxRetries = 0 ∧ e.recordFailure path = e) ∨
    (e.maxRetries ≠ 0 ∧ e.maxRetries ≤ e.failureCount path + 1 ∧
      e.recordFailure path = e.block path) ∨
    (e.failureCount path + 1 < e.maxRetries ∧ e.recordFailure path =
      { e.forget path with
        failures := (e.forget path).failures ++ [(path, e.failureCount path + 1)] }) := by
  by_cases hzero : e.maxRetries = 0
  · exact .inl ⟨hzero, recordFailure_of_zero hzero⟩
  · by_cases hle : e.maxRetries ≤ e.failureCount path + 1
    · exact .inr (.inl ⟨hzero, hle, recordFailure_of_le hzero hle⟩)
    · have hlt : e.failureCount path + 1 < e.maxRetries := by omega
      exact .inr (.inr ⟨hlt, recordFailure_of_lt hlt⟩)

theorem contains_recordFailure_of_ne (h : (path == s) = false) :
    (e.recordFailure path).contains s = e.contains s := by
  rcases recordFailure_cases e path with ⟨-, heq⟩ | ⟨-, -, heq⟩ | ⟨-, heq⟩
  · rw [heq]
  · rw [heq, contains_block, h, Bool.or_false]
  · rw [heq]
    rfl

theorem failureCount_recordFailure_of_ne (h : (path == s) = false) :
    (e.recordFailure path).failureCount s = e.failureCount s := by
  rcases recordFailure_cases e path with ⟨-, heq⟩ | ⟨-, -, heq⟩ | ⟨-, heq⟩
  · rw [heq]
  · rw [heq, failureCount_block_of_ne h]
  · have hforget := failureCount_forget_of_ne (e := e) h
    rw [heq, ← hforget]
    simp [failureCount, List.find?_append, h]

/-- A failure that only counts is one more failure. -/
theorem failureCount_recordFailure_self (h : e.failureCount path + 1 < e.maxRetries) :
    (e.recordFailure path).failureCount path = e.failureCount path + 1 := by
  rw [recordFailure_of_lt h]
  simp [failureCount, List.find?_append, find?_forget_self]

/-- What is covered stays covered. -/
theorem isCovered_record (h : e.isCovered s = true) : (e.record path).isCovered s = true := by
  refine isCovered_mono (fun known hmem => ?_) h
  rw [List.mem_append] at hmem ⊢
  exact hmem.imp_left fun hpath => subset_add hpath

theorem isCovered_block (h : e.isCovered s = true) : (e.block path).isCovered s = true := by
  refine isCovered_mono (fun known hmem => ?_) h
  rw [List.mem_append] at hmem ⊢
  exact hmem.imp_right fun hblocked => subset_add hblocked

theorem isCovered_recordFailure (h : e.isCovered s = true) :
    (e.recordFailure path).isCovered s = true := by
  rcases recordFailure_cases e path with ⟨-, heq⟩ | ⟨-, -, heq⟩ | ⟨-, heq⟩
  · rw [heq]
    exact h
  · rw [heq]
    exact isCovered_block h
  · rw [heq]
    exact h

theorem paths_recordFailure : (e.recordFailure path).paths = e.paths := by
  rcases recordFailure_cases e path with ⟨-, heq⟩ | ⟨-, -, heq⟩ | ⟨-, heq⟩ <;> rw [heq] <;> rfl

/-! ## Entries -/

/-- The books differ in one path, that was not known: these are the confirmed and the blocked
paths now, and this is how often it has failed. -/
structure Enters (e : ExploredPaths) (path : SymbolicState) (paths blocked : List SymbolicState)
    (count : Nat) (e' : ExploredPaths) : Prop where
  unknown : e.contains path = false
  paths : e'.paths = paths
  blocked : e'.blocked = blocked
  count : e'.failureCount path = count
  others : ∀ other, (path == other) = false → e'.failureCount other = e.failureCount other

/-- The path is confirmed now, and its failures are forgotten. -/
def Confirms (e : ExploredPaths) (path : SymbolicState) : ExploredPaths → Prop :=
  e.Enters path (e.paths ++ [path]) e.blocked 0

theorem confirms_record (h : e.contains path = false) : e.Confirms path (e.record path) where
  unknown := h
  paths := add_of_not_has (not_contains_iff.mp h).1
  blocked := rfl
  count := failureCount_forget_self
  others _ := failureCount_record_of_ne

/-- No path is both confirmed and blocked, and failures are counted of unknown paths only and
below the number that blocks. -/
structure IsKept (e : ExploredPaths) : Prop where
  disjoint : ∀ s, has e.paths s = true → has e.blocked s = false
  unknown : ∀ entry ∈ e.failures, e.contains entry.1 = false
  pending : ∀ entry ∈ e.failures, 1 ≤ entry.2 ∧ entry.2 < e.maxRetries

theorem IsKept.failureCount_lt (h : e.IsKept) (hr : 1 ≤ e.maxRetries) :
    e.failureCount s < e.maxRetries := by
  unfold failureCount
  cases hfind : e.failures.find? (fun entry => entry.1 == s) with
  | none => exact hr
  | some entry => exact (h.pending entry (List.mem_of_find?_eq_some hfind)).2

theorem isKept_empty (maxRetries : Nat) : IsKept { maxRetries } := by
  constructor <;> simp [has]

theorem ne_of_mem_forget {entry : SymbolicState × Nat} (h : entry ∈ (e.forget path).failures) :
    (path == entry.1) = false := by
  have hne := (List.mem_filter.mp h).2
  rw [Bool.not_eq_true', ← Bool.not_eq_true] at hne
  rw [← Bool.not_eq_true]
  exact fun hsame => hne (BEq.symm hsame)

theorem IsKept.record (h : e.IsKept) (hpath : e.contains path = false) :
    (e.record path).IsKept where
  disjoint s hs := by
    rw [show (e.record path).paths = add e.paths path from rfl, has_add, Bool.or_eq_true] at hs
    rcases hs with hs | hs
    · exact h.disjoint s hs
    · rw [← (not_contains_iff.mp hpath).2]
      exact (has_congr hs).symm
  unknown entry hentry := by
    rw [contains_record, ne_of_mem_forget hentry, Bool.or_false]
    exact h.unknown entry (List.mem_filter.mp hentry).1
  pending entry hentry := h.pending entry (List.mem_filter.mp hentry).1

theorem IsKept.block (h : e.IsKept) (hpath : e.contains path = false) :
    (e.block path).IsKept where
  disjoint s hs := by
    rw [show (e.block path).blocked = add e.blocked path from rfl, has_add,
      h.disjoint s hs, Bool.false_or, ← Bool.not_eq_true]
    intro hsame
    have hs : has e.paths s = true := hs
    rw [← has_congr hsame, (not_contains_iff.mp hpath).1] at hs
    exact Bool.false_ne_true hs
  unknown entry hentry := by
    rw [contains_block, ne_of_mem_forget hentry, Bool.or_false]
    exact h.unknown entry (List.mem_filter.mp hentry).1
  pending entry hentry := h.pending entry (List.mem_filter.mp hentry).1

theorem IsKept.recordFailure (h : e.IsKept) (hpath : e.contains path = false) :
    (e.recordFailure path).IsKept := by
  rcases recordFailure_cases e path with ⟨-, heq⟩ | ⟨-, -, heq⟩ | ⟨hlt, heq⟩
  · rw [heq]
    exact h
  · rw [heq]
    exact h.block hpath
  · rw [heq]
    refine ⟨h.disjoint, fun entry hentry => ?_, fun entry hentry => ?_⟩
    · rcases List.mem_append.mp hentry with hentry | hentry
      · exact h.unknown entry (List.mem_filter.mp hentry).1
      · rw [List.mem_singleton.mp hentry]
        exact hpath
    · rcases List.mem_append.mp hentry with hentry | hentry
      · exact h.pending entry (List.mem_filter.mp hentry).1
      · rw [List.mem_singleton.mp hentry]
        exact ⟨by simp, hlt⟩

theorem length_record (h : e.contains path = false) :
    (e.record path).paths.length = e.paths.length + 1 := by
  rw [show (e.record path).paths = add e.paths path from rfl,
    add_of_not_has (not_contains_iff.mp h).1, List.length_append, List.length_singleton]

/-! ## The order of insertion -/

/-- The known paths in the order they came, none opening one that came before it. -/
structure IsOrdered (e : ExploredPaths) (order : List SymbolicState) : Prop where
  perm : order.Perm (e.paths ++ e.blocked)
  pairwise : order.Pairwise fun earlier later => earlier.startsWith later = false

/-- The paths that became known between two states of the books. -/
def inserted (before after : ExploredPaths) : List SymbolicState :=
  after.paths.drop before.paths.length ++ after.blocked.drop before.blocked.length

theorem inserted_self (e : ExploredPaths) : inserted e e = [] := by simp [inserted]

theorem inserted_record (h : e.contains path = false) : inserted e (e.record path) = [path] := by
  simp [inserted, record, forget, add_of_not_has (not_contains_iff.mp h).1]

theorem inserted_block (h : e.contains path = false) : inserted e (e.block path) = [path] := by
  simp [inserted, block, forget, add_of_not_has (not_contains_iff.mp h).2]

theorem isOrdered_empty (maxRetries : Nat) : IsOrdered { maxRetries } [] :=
  ⟨List.Perm.refl _, List.Pairwise.nil⟩

/-- An uncovered path may come last. -/
theorem IsOrdered.pairwise_append {order : List SymbolicState} (h : e.IsOrdered order)
    (hpath : e.isCovered path = false) :
    (order ++ [path]).Pairwise fun earlier later => earlier.startsWith later = false := by
  refine List.pairwise_append.mpr ⟨h.pairwise, List.pairwise_singleton .., ?_⟩
  intro known hknown later hlater
  rw [List.mem_singleton.mp hlater, ← Bool.not_eq_true]
  intro hstarts
  rw [isCovered_iff.mpr ⟨known, h.perm.subset hknown, hstarts⟩] at hpath
  exact Bool.false_ne_true hpath.symm

theorem IsOrdered.record {order : List SymbolicState} (h : e.IsOrdered order)
    (hpath : e.isCovered path = false) :
    (e.record path).IsOrdered (order ++ inserted e (e.record path)) := by
  have hnew := contains_of_not_isCovered hpath
  rw [inserted_record hnew]
  refine ⟨?_, h.pairwise_append hpath⟩
  rw [show (e.record path).paths = add e.paths path from rfl,
    add_of_not_has (not_contains_iff.mp hnew).1, List.append_assoc]
  have hswap : (e.blocked ++ [path]).Perm ([path] ++ e.blocked) := List.perm_append_comm
  refine (h.perm.append_right [path]).trans ?_
  rw [List.append_assoc]
  exact hswap.append_left e.paths

theorem IsOrdered.block {order : List SymbolicState} (h : e.IsOrdered order)
    (hpath : e.isCovered path = false) :
    (e.block path).IsOrdered (order ++ inserted e (e.block path)) := by
  have hnew := contains_of_not_isCovered hpath
  rw [inserted_block hnew]
  refine ⟨?_, h.pairwise_append hpath⟩
  rw [show (e.block path).blocked = add e.blocked path from rfl,
    add_of_not_has (not_contains_iff.mp hnew).2, ← List.append_assoc]
  exact h.perm.append_right [path]

theorem IsOrdered.recordFailure {order : List SymbolicState} (h : e.IsOrdered order)
    (hpath : e.isCovered path = false) :
    (e.recordFailure path).IsOrdered (order ++ inserted e (e.recordFailure path)) := by
  rcases recordFailure_cases e path with ⟨-, heq⟩ | ⟨-, -, heq⟩ | ⟨-, heq⟩
  · rw [heq, inserted_self, List.append_nil]
    exact h
  · rw [heq]
    exact h.block hpath
  · rw [heq]
    have hnone : inserted e (e.forget path) = [] := inserted_self e
    exact ⟨by simpa [inserted, forget] using h.perm, by simpa [inserted, forget] using h.pairwise⟩

/-! ## Mutation -/

/-- Every branch of a path condition has its other side covered. -/
def IsEnclosed (e : ExploredPaths) (branches : List Predicate) : Prop :=
  ∀ before p after, branches = before ++ p :: after →
    e.isCovered (.basic (before ++ [p.inverse])) = true

theorem IsEnclosed.mono {e' : ExploredPaths} {branches : List Predicate}
    (hmono : ∀ s, e.isCovered s = true → e'.isCovered s = true) (h : e.IsEnclosed branches) :
    e'.IsEnclosed branches := fun before p after heq => hmono _ (h before p after heq)

/-- Flipping changes nothing only when the other side of every branch is covered, and else it
ends with the first branch whose other side is not. -/
theorem flipped_cases (e : ExploredPaths) (path parts : List Predicate) :
    (e.flipped path parts = parts ∧
      ∀ before p after, parts.filter Clause.isPath = before ++ p :: after →
        e.isCovered (.basic (path ++ before ++ [p.inverse])) = true) ∨
    ∃ before p after, parts = before ++ p :: after ∧ p.isPath = true ∧
      e.flipped path parts = before ++ [p.inverse] ∧
      e.isCovered (.basic (path ++ before.filter Clause.isPath ++ [p.inverse])) = false := by
  -- The branches in front are covered on their other side, and go into the path.
  induction parts generalizing path with
  | nil => exact .inl ⟨rfl, by simp⟩
  | cons q parts ih =>
    rw [flipped]
    by_cases hq : q.isPath = true
    · by_cases hcovered : e.isCovered (.basic (path ++ [q.inverse])) = true
      · rw [if_neg (by simp [hq]), if_pos hcovered]
        rcases ih (path ++ [q]) with ⟨heq, hall⟩ | ⟨before, p, after, hparts, hp, heq, hfree⟩
        · refine .inl ⟨by rw [heq], fun before p after hsplit => ?_⟩
          rw [List.filter_cons_of_pos hq] at hsplit
          cases before with
          | nil =>
            obtain ⟨rfl, -⟩ := List.cons.inj hsplit
            simpa using hcovered
          | cons q' before =>
            obtain ⟨rfl, htail⟩ := List.cons.inj hsplit
            simpa using hall before p after htail
        · refine .inr ⟨q :: before, p, after, by rw [hparts]; rfl, hp, by rw [heq]; rfl, ?_⟩
          rw [List.filter_cons_of_pos hq]
          simpa using hfree
      · rw [if_neg (by simp [hq]), if_neg hcovered]
        exact .inr ⟨[], q, parts, rfl, hq, rfl, by simpa using hcovered⟩
    · rw [if_pos (by simpa using hq)]
      rcases ih path with ⟨heq, hall⟩ | ⟨before, p, after, hparts, hp, heq, hfree⟩
      · refine .inl ⟨by rw [heq], ?_⟩
        rw [List.filter_cons_of_neg hq]
        exact hall
      · refine .inr ⟨q :: before, p, after, by rw [hparts]; rfl, hp, by rw [heq]; rfl, ?_⟩
        rw [List.filter_cons_of_neg hq]
        exact hfree

/-- A mutation either keeps the parts of a state whose path condition is enclosed, or flips
a branch behind which nothing is covered. -/
theorem mutate_cases (e : ExploredPaths) (s : SymbolicState) :
    (e.mutate s = .basic s.parts ∧ e.IsEnclosed (s.parts.filter Clause.isPath)) ∨
    ∃ before p after, s.parts = before ++ p :: after ∧ p.isPath = true ∧
      e.mutate s = .basic (before ++ [p.inverse]) ∧
      (e.mutate s).path = .basic (before.filter Clause.isPath ++ [p.inverse]) ∧
      e.isCovered (e.mutate s).path = false := by
  rcases flipped_cases e [] s.parts with ⟨heq, hall⟩ | ⟨before, p, after, hparts, hp, heq, hfree⟩
  · exact .inl ⟨by rw [mutate, heq], hall⟩
  · have hmutate : e.mutate s = .basic (before ++ [p.inverse]) := by rw [mutate, heq]
    have hpath : (e.mutate s).path = .basic (before.filter Clause.isPath ++ [p.inverse]) := by
      rw [hmutate, State.path_basic, List.filter_append]
      simp [hp]
    refine .inr ⟨before, p, after, hparts, hp, hmutate, hpath, ?_⟩
    rw [hpath]
    exact hfree

end Concolic.ExploredPaths
