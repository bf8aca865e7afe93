import Concolic.Proofs.Search.Run

/-!
# The books of a run

The operations that enter a path do not look at all the lists they should keep apart: a
confirmed path is not looked up among the blocked, nor a failed one among the confirmed. The
books stay in order nevertheless, because a path is only entered when nothing covers it.
`run_books_in_order` states this of whatever search a run comes to.
-/

namespace Concolic

variable {σ : Type}

/-- The paths that became known in a turn. -/
def Turn.inserted (u : Turn σ) : List SymbolicState :=
  ExploredPaths.inserted u.before.explored u.after.explored

namespace Task

variable {t : Task σ} {s s' : Search} {w w₀ : World σ} {u : Turn σ} {past : List (Turn σ)}
  {order : List SymbolicState} {rounds : Nat} {turns : List (Turn σ)}
  {result : Except Failure Outcome}

/-- The books of a search with the paths known in the order they came. -/
structure Books (t : Task σ) (order : List SymbolicState) (s : Search) : Prop where
  kept : s.explored.IsKept
  ordered : s.explored.IsOrdered order
  retries : s.explored.maxRetries = t.engine.settings.search.maxFrontierRetries
  accepted : s.explored.paths.length = s.accepted

theorem books_start (t : Task σ) : t.Books [] t.start where
  kept := ExploredPaths.isKept_empty _
  ordered := ExploredPaths.isOrdered_empty _
  retries := rfl
  accepted := rfl

theorem Books.of_eq (h : t.Books order s) (hexplored : s'.explored = s.explored)
    (haccepted : s'.accepted = s.accepted) : t.Books order s' where
  kept := hexplored ▸ h.kept
  ordered := hexplored ▸ h.ordered
  retries := hexplored ▸ h.retries
  accepted := by rw [hexplored, haccepted, h.accepted]

theorem Books.record {path : SymbolicState} (h : t.Books order s)
    (hfree : s.explored.isCovered path = false)
    (hexplored : s'.explored = s.explored.record path) (haccepted : s'.accepted = s.accepted + 1) :
    t.Books (order ++ ExploredPaths.inserted s.explored s'.explored) s' := by
  have hnew := ExploredPaths.contains_of_not_isCovered hfree
  rw [hexplored]
  refine ⟨?_, ?_, ?_, ?_⟩
  · rw [hexplored]
    exact h.kept.record hnew
  · rw [hexplored]
    exact h.ordered.record hfree
  · rw [hexplored, ExploredPaths.maxRetries_record, h.retries]
  · rw [hexplored, ExploredPaths.length_record hnew, h.accepted, haccepted]

theorem Books.block {path : SymbolicState} (h : t.Books order s)
    (hfree : s.explored.isCovered path = false)
    (hexplored : s'.explored = s.explored.block path) (haccepted : s'.accepted = s.accepted) :
    t.Books (order ++ ExploredPaths.inserted s.explored s'.explored) s' := by
  have hnew := ExploredPaths.contains_of_not_isCovered hfree
  rw [hexplored]
  refine ⟨?_, ?_, ?_, ?_⟩
  · rw [hexplored]
    exact h.kept.block hnew
  · rw [hexplored]
    exact h.ordered.block hfree
  · rw [hexplored, ExploredPaths.maxRetries_block, h.retries]
  · rw [hexplored, haccepted, ← h.accepted]
    rfl

theorem Books.recordFailure {path : SymbolicState} (h : t.Books order s)
    (hfree : s.explored.isCovered path = false)
    (hexplored : s'.explored = s.explored.recordFailure path)
    (haccepted : s'.accepted = s.accepted) :
    t.Books (order ++ ExploredPaths.inserted s.explored s'.explored) s' := by
  have hnew := ExploredPaths.contains_of_not_isCovered hfree
  rw [hexplored]
  refine ⟨?_, ?_, ?_, ?_⟩
  · rw [hexplored]
    exact h.kept.recordFailure hnew
  · rw [hexplored]
    exact h.ordered.recordFailure hfree
  · rw [hexplored, ExploredPaths.maxRetries_recordFailure, h.retries]
  · rw [hexplored, haccepted, ← h.accepted, ExploredPaths.paths_recordFailure]

/-- A turn keeps the books in order. -/
theorem Books.turn (h : t.Books order s) (htakes : t.Takes s w u) (hnext : u.next = .going s') :
    t.Books (order ++ u.inserted) s' := by
  obtain ⟨hexplored, -, -⟩ := after_eq_going hnext
  have hbefore := h.of_eq htakes.explored htakes.accepted
  have hafter := htakes.tries.accepted_eq
  have hcount := counts_of_going hnext
  rw [Turn.inserted, ← hexplored]
  rcases htakes.tries.explored_cases with ⟨heq, hno⟩ | ⟨mutated, -, hfree, hentered⟩
  · rcases hcount with ⟨⟨trace, hok⟩, -⟩ | ⟨-, haccepted, -⟩
    · exact absurd hok (hno trace)
    · rw [hexplored, heq, ExploredPaths.inserted_self, List.append_nil]
      exact hbefore.of_eq (hexplored.trans heq) (haccepted.trans hafter)
  · rcases hentered with ⟨heq, trace, hok⟩ | ⟨hdiscarded, heq⟩
    · rcases hcount with ⟨-, haccepted, -⟩ | ⟨hno, -⟩
      · exact hbefore.record hfree (hexplored.trans heq) (by rw [haccepted, hafter])
      · exact absurd hok (hno trace)
    · rcases hcount with ⟨⟨trace, hok⟩, -⟩ | ⟨-, haccepted, -⟩
      · simp [hdiscarded] at hok
      · rcases heq with heq | heq
        · exact hbefore.block hfree (hexplored.trans heq) (haccepted.trans hafter)
        · exact hbefore.recordFailure hfree (hexplored.trans heq) (haccepted.trans hafter)

theorem Reached.books (h : t.Reached w₀ past s w) : t.Books (past.flatMap Turn.inserted) s := by
  induction h with
  | start => exact t.books_start
  | turn h hturn hnext ih =>
    rw [List.flatMap_append, List.flatMap_singleton]
    exact ih.turn (takes_of_turn? hturn).1 hnext

/-- Where a run ends the books are in order. With its rounds used up it stands at the head of
a round, and every head is one at which some number of rounds is used up. -/
theorem Arrives.books (harrives : t.Arrives w₀ rounds turns s result) :
    t.Books (turns.flatMap Turn.inserted) s := by
  cases harrives with
  | unfinished h => exact h.books
  | stopped h _ hstops => exact h.books.of_eq hstops.explored hstops.accepted
  | @broken past s₁ s w u _ h hturn hnext =>
    have htakes := (takes_of_turn? hturn).1
    obtain ⟨hexplored, haccepted⟩ := htakes.explored_of_ended hnext
    have hnone : u.inserted = [] := by
      rw [Turn.inserted, htakes.explored, ← (after_eq_ended hnext).1, hexplored,
        ExploredPaths.inserted_self]
    rw [List.flatMap_append, List.flatMap_singleton, hnone, List.append_nil]
    exact h.books.of_eq hexplored haccepted

/-- In every search that a run comes to, no path is both confirmed and blocked; a path with
failures is neither, and has failed less often than blocks it; there are as many confirmed
paths as accepted attempts; and of the known paths, in the order in which the turns entered
them, no later one opens an earlier one. -/
theorem run_books_in_order (t : Task σ) (w₀ : World σ) (rounds : Nat) :
    let s := ((t.run rounds t.start).run w₀).1.1
    let order := (t.turns rounds t.start w₀).flatMap Turn.inserted
    (∀ path, ExploredPaths.has s.explored.paths path = true →
      ExploredPaths.has s.explored.blocked path = false) ∧
    (∀ entry ∈ s.explored.failures, s.explored.contains entry.1 = false ∧
      1 ≤ entry.2 ∧ entry.2 < t.engine.settings.search.maxFrontierRetries) ∧
    s.explored.paths.length = s.accepted ∧
    order.Perm (s.explored.paths ++ s.explored.blocked) ∧
    order.Pairwise fun earlier later => earlier.startsWith later = false := by
  intro s order
  have hbooks : t.Books order s := (t.run_arrives w₀ rounds).books
  refine ⟨hbooks.kept.disjoint, fun entry hentry => ?_, hbooks.accepted, hbooks.ordered.perm,
    hbooks.ordered.pairwise⟩
  rw [← hbooks.retries]
  exact ⟨hbooks.kept.unknown entry hentry, hbooks.kept.pending entry hentry⟩

end Task
end Concolic
