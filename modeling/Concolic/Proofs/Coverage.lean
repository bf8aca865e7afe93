import Concolic.Coverage
import Mathlib.Data.List.Perm.Basic
import Mathlib.Logic.Relation

/-!
# Coverage under concurrent calls

Several searches record their traces into one coverage. A call adds the blocks of each method
that its trace mentions, method by method, and counts the trace. Each of these updates is atomic;
between two of one call there may be any of others. Updates only add, so what is covered when
all calls are over depends on the calls alone, and what was covered once stays so.

## Main definitions

* `Coverage.Update`, `Coverage.Call.updates` — what a call does, step by step.
* `Coverage.Step` — a call begins, or a call in progress makes its next update.

## Main statements

* `Coverage.Recording.exists_accounts` — the updates made and those to come are those of the calls.
* `Coverage.laws_of_calls` — coverage is the union of what the calls have recorded.
-/

namespace Concolic

namespace Trace

variable {trace : Trace} {method : Method}

theorem mem_visitedBlocks {block : BlockId} :
    block ∈ trace.visitedBlocks method ↔
      ∃ e ∈ trace, e.method? = some method ∧ e.block? = some block := by
  simp [visitedBlocks, List.mem_eraseDups, and_assoc]

theorem mem_methods : method ∈ trace.methods ↔ ∃ e ∈ trace, e.method? = some method := by
  simp [methods, List.mem_eraseDups]

end Trace

namespace Coverage

section

variable {c : Coverage} {method : Method} {block : BlockId} {program : Program}

theorem mem_covered :
    block ∈ c.covered method ↔ ∃ blocks, (method, blocks) ∈ c.blocks ∧ block ∈ blocks := by
  simp [covered, List.mem_eraseDups]

theorem isCovered_iff_forall : c.isCovered program method = true ↔
    program.blocks method ≠ [] ∧ ∀ block ∈ program.blocks method, block ∈ c.covered method := by
  simp [isCovered]

/-! ## Updates -/

/-- A change that is made as a whole. -/
inductive Update where
  /-- Blocks of a method are covered. -/
  | extend (method : Method) (blocks : List BlockId)
  /-- A trace has been recorded for a method. -/
  | count (method : Method)

def apply (c : Coverage) : Update → Coverage
  | .extend method blocks => { c with blocks := c.blocks ++ [(method, blocks)] }
  | .count method => { c with recorded := c.recorded ++ [method] }

def applyAll (c : Coverage) (updates : List Update) : Coverage := updates.foldl apply c

theorem applyAll_append (first second : List Update) :
    c.applyAll (first ++ second) = (c.applyAll first).applyAll second := List.foldl_append

theorem mem_blocks_applyAll {updates : List Update} {entry : Method × List BlockId} :
    entry ∈ (c.applyAll updates).blocks ↔
      entry ∈ c.blocks ∨ .extend entry.1 entry.2 ∈ updates := by
  induction updates generalizing c with
  | nil => simp [applyAll]
  | cons u updates ih =>
    have hrest := ih (c := c.apply u)
    change entry ∈ ((c.apply u).applyAll updates).blocks ↔ _
    rw [hrest]
    cases u with
    | extend method blocks =>
      obtain ⟨m, bs⟩ := entry
      simp [apply, or_assoc]
    | count method => simp [apply]

/-- The method for which an update counts a trace. -/
def Update.counted? : Update → Option Method
  | .count method => some method
  | .extend _ _ => none

theorem recorded_applyAll (updates : List Update) :
    (c.applyAll updates).recorded = c.recorded ++ updates.filterMap Update.counted? := by
  induction updates generalizing c with
  | nil => simp [applyAll]
  | cons u updates ih =>
    change ((c.apply u).applyAll updates).recorded = _
    rw [ih]
    cases u <;> simp [apply, Update.counted?, List.filterMap_cons]

/-- A trace that is recorded for a method. -/
structure Call where
  method : Method
  trace : Trace

namespace Call

/-- An event of the trace leaves the block of the method. -/
def Leaves (call : Call) (method : Method) (block : BlockId) : Prop :=
  ∃ e ∈ call.trace, e.method? = some method ∧ e.block? = some block

/-- The updates of a call; it may make them in any order. -/
def updates (call : Call) : List Update :=
  call.trace.methods.map (fun m => .extend m (call.trace.visitedBlocks m)) ++
    [.count call.method]

variable {call : Call}

theorem leaves_iff_exists_update :
    call.Leaves method block ↔
      ∃ blocks, .extend method blocks ∈ call.updates ∧ block ∈ blocks := by
  constructor
  · rintro ⟨e, he, hmethod, hblock⟩
    refine ⟨call.trace.visitedBlocks method, ?_,
      Trace.mem_visitedBlocks.mpr ⟨e, he, hmethod, hblock⟩⟩
    simp only [updates, List.mem_append, List.mem_map]
    exact .inl ⟨method, Trace.mem_methods.mpr ⟨e, he, hmethod⟩, rfl⟩
  · rintro ⟨blocks, hupdate, hblock⟩
    simp only [updates, List.mem_append, List.mem_map, List.mem_singleton, reduceCtorEq,
      or_false, Update.extend.injEq] at hupdate
    obtain ⟨m, -, rfl, rfl⟩ := hupdate
    exact Trace.mem_visitedBlocks.mp hblock

theorem counted?_updates (call : Call) :
    call.updates.filterMap Update.counted? = [call.method] := by
  have hextend : (call.trace.methods.map fun m =>
      Update.extend m (call.trace.visitedBlocks m)).filterMap Update.counted? = [] := by
    simp [List.filterMap_map, List.filterMap_eq_nil_iff, Update.counted?]
  rw [updates, List.filterMap_append, hextend]
  rfl

/-- Recording a trace is making the updates of the call, one after the other. -/
theorem record_eq_applyAll (c : Coverage) (call : Call) :
    c.record call.method call.trace = c.applyAll call.updates := by
  have hextend (methods : List Method) (c : Coverage) :
      c.applyAll (methods.map fun m => .extend m (call.trace.visitedBlocks m)) =
        { c with blocks := c.blocks ++ methods.map fun m => (m, call.trace.visitedBlocks m) } := by
    induction methods generalizing c with
    | nil => simp [applyAll]
    | cons m methods ih =>
      change (c.apply _).applyAll _ = _
      rw [ih]
      simp [apply]
  rw [updates, applyAll_append, hextend]
  rfl

end Call

/-! ## Calls in progress -/

/-- Where concurrent calls stand. -/
structure Recording where
  /-- Calls that have not begun. -/
  waiting : List Call
  /-- For each call that has begun the updates that it has yet to make. -/
  running : List (List Update)
  coverage : Coverage

inductive Step : Recording → Recording → Prop
  /-- Any of the calls begins, and settles on an order of its updates. -/
  | start (before after : List Call) {call : Call} {running : List (List Update)}
      {c : Coverage} {updates : List Update} : updates.Perm call.updates →
      Step ⟨before ++ call :: after, running, c⟩ ⟨before ++ after, running ++ [updates], c⟩
  /-- Any of the calls in progress makes its next update. -/
  | update {waiting : List Call} (before after : List (List Update)) {u : Update}
      {rest : List Update} {c : Coverage} :
      Step ⟨waiting, before ++ (u :: rest) :: after, c⟩
        ⟨waiting, before ++ rest :: after, c.apply u⟩

/-- What any number of steps lead to. -/
abbrev Reaches : Recording → Recording → Prop := Relation.ReflTransGen Step

namespace Recording

/-- None of the calls has begun, and nothing is covered. -/
def initial (calls : List Call) : Recording := ⟨calls, [], {}⟩

/-- All calls are over. -/
structure IsDone (r : Recording) : Prop where
  waiting : r.waiting = []
  running : ∀ updates ∈ r.running, updates = []

/-- The updates that are yet to be made. -/
def outstanding (r : Recording) : List Update :=
  r.running.flatten ++ r.waiting.flatMap Call.updates

/-- The coverage is that of the updates made, and no update of the calls is lost or made twice. -/
structure Accounts (r : Recording) (calls : List Call) (made : List Update) : Prop where
  coverage : r.coverage = applyAll {} made
  perm : (made ++ r.outstanding).Perm (calls.flatMap Call.updates)

variable {calls : List Call} {made : List Update} {r r' : Recording}

theorem accounts_initial (calls : List Call) : (initial calls).Accounts calls [] :=
  ⟨rfl, by simp [initial, outstanding]⟩

theorem Accounts.step (h : r.Accounts calls made) (hstep : Step r r') :
    ∃ made', r'.Accounts calls made' := by
  cases hstep with
  | @start before after call running c updates hupdates =>
    refine ⟨made, h.coverage, List.Perm.trans (.append_left made ?_) h.perm⟩
    -- The updates move from the calls that wait to those in progress.
    simp only [outstanding, List.flatten_append, List.flatten_singleton, List.flatMap_append,
      List.flatMap_cons, List.append_assoc]
    refine .append_left _ ?_
    calc updates ++ (before.flatMap Call.updates ++ after.flatMap Call.updates)
        _ |>.Perm (call.updates ++ (before.flatMap Call.updates ++ after.flatMap Call.updates)) :=
          hupdates.append_right _
        _ |>.Perm (before.flatMap Call.updates ++ (call.updates ++ after.flatMap Call.updates)) :=
          List.perm_append_comm_assoc ..
  | @update waiting before after u rest c =>
    refine ⟨made ++ [u], ?_, List.Perm.trans ?_ h.perm⟩
    · rw [applyAll_append, ← h.coverage]
      rfl
    · simp only [outstanding, List.flatten_append, List.flatten_cons, List.append_assoc,
        List.cons_append, List.nil_append]
      exact .append_left made List.perm_middle.symm

/-- Whatever the steps, the updates made and those outstanding are those of the calls. -/
theorem exists_accounts (h : Reaches (initial calls) r) : ∃ made, r.Accounts calls made := by
  induction h with
  | refl => exact ⟨[], accounts_initial calls⟩
  | tail _ hstep ih =>
    obtain ⟨made, hmade⟩ := ih
    exact hmade.step hstep

theorem IsDone.outstanding_eq (h : r.IsDone) : r.outstanding = [] := by
  rw [outstanding, h.waiting, List.flatMap_nil, List.append_nil, List.flatten_eq_nil_iff]
  exact h.running

/-- When all calls are over, all their updates have been made. -/
theorem perm_of_isDone (h : Reaches (initial calls) r) (hdone : r.IsDone) :
    ∃ made, r.coverage = applyAll {} made ∧ made.Perm (calls.flatMap Call.updates) := by
  obtain ⟨made, hcoverage, hperm⟩ := exists_accounts h
  rw [hdone.outstanding_eq, List.append_nil] at hperm
  exact ⟨made, hcoverage, hperm⟩

theorem mem_covered_of_isDone (h : Reaches (initial calls) r) (hdone : r.IsDone) :
    block ∈ r.coverage.covered method ↔ ∃ call ∈ calls, call.Leaves method block := by
  obtain ⟨made, hcoverage, hperm⟩ := perm_of_isDone h hdone
  simp only [mem_covered, hcoverage, mem_blocks_applyAll, List.not_mem_nil, false_or,
    hperm.mem_iff, List.mem_flatMap, Call.leaves_iff_exists_update]
  constructor
  · rintro ⟨blocks, ⟨call, hcall, hupdate⟩, hblock⟩
    exact ⟨call, hcall, blocks, hupdate, hblock⟩
  · rintro ⟨call, hcall, blocks, hupdate, hblock⟩
    exact ⟨blocks, ⟨call, hcall, hupdate⟩, hblock⟩

theorem traceCount_of_isDone (h : Reaches (initial calls) r) (hdone : r.IsDone) :
    r.coverage.traceCount method = calls.countP fun call => call.method == method := by
  obtain ⟨made, hcoverage, hperm⟩ := perm_of_isDone h hdone
  have hcounted : (calls.flatMap Call.updates).filterMap Update.counted? =
      calls.map Call.method := by
    simp [List.filterMap_flatMap, Call.counted?_updates, List.map_eq_flatMap]
  have hrecorded : (made.filterMap Update.counted?).Perm (calls.map Call.method) :=
    hcounted ▸ hperm.filterMap _
  rw [traceCount, hcoverage, recorded_applyAll, List.nil_append, hrecorded.count_eq,
    List.count, List.countP_map]
  rfl

/-! ## Coverage grows -/

theorem covered_subset_step (h : Step r r') :
    r.coverage.covered method ⊆ r'.coverage.covered method := by
  intro block hblock
  cases h with
  | start => exact hblock
  | @update _ _ _ u _ c =>
    obtain ⟨blocks, hentry, hmem⟩ := mem_covered.mp hblock
    have hkept : (method, blocks) ∈ (c.applyAll [u]).blocks :=
      mem_blocks_applyAll.mpr (.inl hentry)
    exact mem_covered.mpr ⟨blocks, hkept, hmem⟩

theorem covered_subset (h : Reaches r r') :
    r.coverage.covered method ⊆ r'.coverage.covered method := by
  induction h with
  | refl => exact List.Subset.refl _
  | tail _ hstep ih => exact List.Subset.trans ih (covered_subset_step hstep)

/-! ## One call after the other -/

/-- A call can go on to its end while the others stand still. -/
theorem reaches_applyAll {waiting : List Call} (before after : List (List Update))
    (updates : List Update) (c : Coverage) :
    Reaches ⟨waiting, before ++ updates :: after, c⟩
      ⟨waiting, before ++ [] :: after, c.applyAll updates⟩ := by
  induction updates generalizing c with
  | nil => exact .refl
  | cons u updates ih => exact .head (.update before after) (ih (c.apply u))

theorem reaches_foldl_record (calls : List Call) {running : List (List Update)} {c : Coverage}
    (hrunning : ∀ updates ∈ running, updates = []) :
    ∃ r, Reaches ⟨calls, running, c⟩ r ∧ r.IsDone ∧
      r.coverage = calls.foldl (fun c call => c.record call.method call.trace) c := by
  induction calls generalizing running c with
  | nil => exact ⟨_, .refl, ⟨rfl, hrunning⟩, rfl⟩
  | cons call calls ih =>
    have hnext : ∀ updates ∈ running ++ [[]], updates = [] := by
      simpa [or_imp, forall_and] using hrunning
    obtain ⟨r, hreaches, hdone, hcoverage⟩ := ih (c := c.record call.method call.trace) hnext
    refine ⟨r, .head (.start [] calls (.refl _)) (.trans ?_ hreaches), hdone, hcoverage⟩
    rw [Call.record_eq_applyAll]
    exact reaches_applyAll running [] call.updates c

end Recording

end

open Recording

/-- **Coverage is a union.** Take any calls, in any order and with their updates interleaved in any
way. Making the calls one after the other is one such run. At the end of every run, the blocks
covered of a method are those that an event of some recorded trace leaves, each call counts one
trace of its method, and a method is covered when it has blocks and all of them have been left. A
method that is covered at one time is covered at any later time. -/
theorem laws_of_calls (calls : List Call) :
    (∃ r, Reaches (initial calls) r ∧ r.IsDone ∧
      r.coverage = calls.foldl (fun c call => c.record call.method call.trace) {}) ∧
    (∀ r, Reaches (initial calls) r → r.IsDone →
      (∀ method block, block ∈ r.coverage.covered method ↔
        ∃ call ∈ calls, call.Leaves method block) ∧
      (∀ method, r.coverage.traceCount method =
        calls.countP fun call => call.method == method) ∧
      ∀ program method, r.coverage.isCovered program method = true ↔
        program.blocks method ≠ [] ∧ ∀ block ∈ program.blocks method,
          ∃ call ∈ calls, call.Leaves method block) ∧
    ∀ r r', Reaches (initial calls) r → Reaches r r' → ∀ program method,
      r.coverage.isCovered program method = true →
        r'.coverage.isCovered program method = true := by
  refine ⟨reaches_foldl_record calls (by simp), fun r hreaches hdone => ⟨fun method block => ?_,
    fun method => traceCount_of_isDone hreaches hdone, fun program method => ?_⟩,
    fun r r' _ hlater program method hcovered => ?_⟩
  · exact mem_covered_of_isDone hreaches hdone
  · simp only [isCovered_iff_forall, mem_covered_of_isDone hreaches hdone]
  · obtain ⟨hblocks, hall⟩ := isCovered_iff_forall.mp hcovered
    exact isCovered_iff_forall.mpr ⟨hblocks, fun block hblock =>
      covered_subset hlater (hall block hblock)⟩

/-!
## Two searches

A call of `max` runs into `abs`, and `max` is run while the class is initialized for a call of
`abs`.
-/

namespace TwoSearches

def max : Method := ⟨"Calc", "max", "(II)I"⟩

def abs : Method := ⟨"Calc", "abs", "(I)I"⟩

def first : Call := ⟨max, [.entered max, .passed max ⟨0⟩, .entered abs, .returned abs ⟨4⟩,
  .returned max ⟨2⟩]⟩

def second : Call := ⟨abs, [.initializing "Calc", .entered max, .returned max ⟨1⟩,
  .initialized "Calc", .entered abs, .returned abs ⟨3⟩]⟩

def program : Program :=
  Program.Table.toProgram { methods := [{
    info := ⟨max, [.int, .int], .int, true, false, false⟩
    blocks := [⟨⟨0⟩, [], [], .unreachable⟩, ⟨⟨1⟩, [], [], .unreachable⟩,
      ⟨⟨2⟩, [], [], .unreachable⟩]
    body := .absent }] }

/-- The second call begins last, covers a block of `max` between the updates of the first call, and
ends first. -/
theorem reaches_interleaved : Reaches (initial [first, second]) ⟨[], [[], []], applyAll {}
    [.extend abs [⟨4⟩], .extend max [⟨1⟩], .count abs, .extend abs [⟨3⟩], .extend max [⟨0⟩, ⟨2⟩],
      .count max]⟩ := by
  have hfirst : List.Perm [.extend abs [⟨4⟩], .extend max [⟨0⟩, ⟨2⟩], .count max]
      first.updates := .swap ..
  have hsecond : List.Perm [.extend max [⟨1⟩], .count abs, .extend abs [⟨3⟩]] second.updates :=
    .cons _ (.swap ..)
  refine .head (.start [] [second] hfirst) ?_
  refine .head (.start [] [] hsecond) ?_
  refine .head (.update [] _) ?_
  refine .head (.update [_] _) ?_
  refine .head (.update [_] _) ?_
  refine .head (.update [_] _) ?_
  refine .head (.update [] _) ?_
  exact .head (.update [] _) .refl

/-- After both calls `max` is covered, though neither trace covers it alone. -/
theorem covers_max : ∃ r, Reaches (initial [first, second]) r ∧ r.IsDone ∧
    (⟨1⟩ ∈ r.coverage.covered max ↔ ∃ call ∈ [first, second], call.Leaves max ⟨1⟩) ∧
    r.coverage.traceCount max = 1 ∧ r.coverage.isCovered program max = true := by
  have hdone : IsDone ⟨[], [[], []], applyAll {} [.extend abs [⟨4⟩], .extend max [⟨1⟩],
      .count abs, .extend abs [⟨3⟩], .extend max [⟨0⟩, ⟨2⟩], .count max]⟩ := ⟨rfl, by simp⟩
  obtain ⟨hcovered, hcount, hiff⟩ :=
    (laws_of_calls [first, second]).2.1 _ reaches_interleaved hdone
  refine ⟨_, reaches_interleaved, hdone, hcovered max ⟨1⟩, (hcount max).trans (by decide),
    (hiff program max).mpr ⟨by decide, fun block hblock => ?_⟩⟩
  have hcases : block = ⟨0⟩ ∨ block = ⟨1⟩ ∨ block = ⟨2⟩ := by
    simpa [program, Program.Table.toProgram, Program.Table.entry?] using hblock
  rcases hcases with rfl | rfl | rfl
  · exact ⟨first, by simp, .passed max ⟨0⟩, by simp [first], rfl, rfl⟩
  · exact ⟨second, by simp, .returned max ⟨1⟩, by simp [second], rfl, rfl⟩
  · exact ⟨first, by simp, .returned max ⟨2⟩, by simp [first], rfl, rfl⟩

end TwoSearches
end Coverage
end Concolic
