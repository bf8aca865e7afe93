import Concolic.Proofs.Search.Run
import Mathlib.Data.List.Perm.Subperm

/-!
# Paths accepted more than once

An accepted attempt enters the path it set out for, which opens the path its trace took but
may be shorter. No later attempt sets out for a path that an earlier one has entered, nor for
one that opens it. Two traces may take the same path nevertheless: `run_confirmations` says
exactly when, and a path of `n` branches is accepted at most `n` times.

## Main statements

* `run_confirmations` — when two accepted traces of a run take the same path.
* `gate_revisits` — a run in which two of them do.
* `accepted_at_most_branches` — how often one path is accepted at most.
-/

namespace Concolic

variable {σ : Type}

/-- What an accepted attempt confirms. -/
structure Confirmation where
  trace : Trace
  /-- The path that the attempt set out for. -/
  target : SymbolicState
  /-- The path that the trace took. -/
  replayed : SymbolicState

namespace Confirmation

variable {a b : Confirmation}

/-- The later attempt set out for a path that goes on from the earlier one's target, the
earlier trace had taken it, and the two traces go on alike behind it. -/
structure Repeats (later earlier : Confirmation) : Prop where
  extends_target : later.target.startsWith earlier.target = true
  strict : earlier.target.startsWith later.target = false
  taken : earlier.replayed.startsWith later.target = true
  alike : State.Item.sameRuns (earlier.replayed.items.drop later.target.items.length)
    (later.replayed.items.drop later.target.items.length) = true

theorem map_toClass_drop (s : SymbolicState) (n : Nat) :
    (s.items.drop n).map State.Item.toClass = s.key.drop n := by
  rw [State.key, List.map_drop]

/-- When the later target does not open the earlier one, the traces take the same path
exactly when the later attempt repeats the earlier. -/
theorem replayed_beq_iff (ha : a.replayed.startsWith a.target = true)
    (hb : b.replayed.startsWith b.target = true)
    (hab : a.target.startsWith b.target = false) :
    (a.replayed == b.replayed) = true ↔ b.Repeats a := by
  constructor
  · intro hsame
    have hkey := State.beq_iff_key.mp hsame
    have htaken : b.target.key <+: a.replayed.key := hkey ▸ State.startsWith_iff_key.mp hb
    refine ⟨?_, hab, State.startsWith_iff_key.mpr htaken, ?_⟩
    · rcases List.prefix_or_prefix_of_prefix (State.startsWith_iff_key.mp ha) htaken with h | h
      · exact State.startsWith_iff_key.mpr h
      · rw [State.startsWith_iff_key.mpr h] at hab
        exact absurd hab (by simp)
    · rw [State.sameRuns_iff, map_toClass_drop, map_toClass_drop, hkey]
  · intro h
    obtain ⟨resta, hresta⟩ := State.startsWith_iff_key.mp h.taken
    obtain ⟨restb, hrestb⟩ := State.startsWith_iff_key.mp hb
    have halike := State.sameRuns_iff.mp h.alike
    rw [map_toClass_drop, map_toClass_drop, ← State.length_key, ← hresta, ← hrestb,
      List.drop_left, List.drop_left] at halike
    rw [State.beq_iff_key, ← hresta, ← hrestb, halike]

theorem Repeats.length_lt (h : b.Repeats a) : a.target.items.length < b.target.items.length := by
  have hprefix := State.startsWith_iff_key.mp h.extends_target
  have hle := hprefix.length_le
  rw [State.length_key, State.length_key] at hle
  refine Nat.lt_of_le_of_ne hle fun heq => ?_
  have hkey := hprefix.eq_of_length (by rw [State.length_key, State.length_key, heq])
  have hopens : a.target.startsWith b.target = true := by
    rw [State.startsWith_iff_key]
    exact hkey ▸ List.prefix_refl _
  rw [h.strict] at hopens
  exact Bool.false_ne_true hopens

end Confirmation

namespace Task

variable {t : Task σ} {s s' : Search} {w w₀ : World σ} {u : Turn σ} {past : List (Turn σ)}
  {rounds : Nat} {turns : List (Turn σ)} {result : Except Failure Outcome}

/-- What a turn confirms, if it accepts a trace. -/
def confirmation? (t : Task σ) (u : Turn σ) : Option Confirmation := do
  let trace ← u.accepted?
  let mutated ← t.flip? u.before u.candidate
  let replayed ← (t.pathOf trace).toOption
  return { trace, target := mutated.path, replayed }

/-- A turn confirms nothing and enters no path as confirmed, or it confirms a path that was
not covered. -/
theorem Takes.confirmation?_cases (h : t.Takes s w u) :
    (u.accepted? = none ∧ t.confirmation? u = none ∧ u.after.explored.paths = s.explored.paths) ∨
    ∃ c, u.accepted? = some c.trace ∧ t.confirmation? u = some c ∧
      t.pathOf c.trace = .ok c.replayed ∧ c.replayed.startsWith c.target = true ∧
      c.target.items ≠ [] ∧ s.explored.isCovered c.target = false ∧
      u.after.explored.paths = s.explored.paths ++ [c.target] := by
  have hbefore := h.explored
  have htries := h.tries
  generalize hafter : u.after = after at htries ⊢
  generalize houtcome : u.outcome = outcome at htries
  have hnone : u.accepted? = none → t.confirmation? u = none := by
    intro hnone
    simp [confirmation?, hnone]
  cases htries with
  | unreplayable | duplicate | cancelled | ended =>
    have haccepted : u.accepted? = none := by simp [Turn.accepted?, houtcome]
    exact .inl ⟨haccepted, hnone haccepted, by rw [hbefore]⟩
  | infeasible =>
    have haccepted : u.accepted? = none := by simp [Turn.accepted?, houtcome]
    exact .inl ⟨haccepted, hnone haccepted, by rw [hbefore]; rfl⟩
  | failed =>
    have haccepted : u.accepted? = none := by simp [Turn.accepted?, houtcome]
    exact .inl ⟨haccepted, hnone haccepted, by rw [hbefore, ExploredPaths.paths_recordFailure]⟩
  | @accepted mutated replayed trace hflip hreplayed hstarts =>
    have haccepted : u.accepted? = some trace := by simp [Turn.accepted?, houtcome]
    obtain ⟨_, before, p, _, -, -, hpath, hfree⟩ := flip?_eq_some hflip
    rw [hbefore] at hfree
    have hnew := ExploredPaths.contains_of_not_isCovered hfree
    refine .inr ⟨⟨trace, mutated.path, replayed⟩, haccepted, ?_, hreplayed, hstarts, ?_, hfree, ?_⟩
    · simp [confirmation?, haccepted, hflip, hreplayed, Except.toOption]
    · simp [hpath]
    · rw [hbefore]
      exact ExploredPaths.add_of_not_has (ExploredPaths.not_contains_iff.mp hnew).1

/-- The confirmations of a run and the paths they have entered. -/
structure Confirmed (t : Task σ) (past : List (Turn σ)) (s : Search) : Prop where
  traces : (past.filterMap t.confirmation?).map (·.trace) = past.filterMap Turn.accepted?
  targets : (past.filterMap t.confirmation?).map (·.target) = s.explored.paths
  sound : ∀ c ∈ past.filterMap t.confirmation?,
    t.pathOf c.trace = .ok c.replayed ∧ c.replayed.startsWith c.target = true
  nonempty : ∀ c ∈ past.filterMap t.confirmation?, c.target.items ≠ []
  apart : (past.filterMap t.confirmation?).Pairwise fun earlier later =>
    earlier.target.startsWith later.target = false

theorem Confirmed.of_paths_eq (h : t.Confirmed past s)
    (hpaths : s'.explored.paths = s.explored.paths) : t.Confirmed past s' :=
  ⟨h.traces, by rw [h.targets, hpaths], h.sound, h.nonempty, h.apart⟩

/-- A turn adds what it confirms. -/
theorem Confirmed.turn (h : t.Confirmed past s) (htakes : t.Takes s w u) :
    t.Confirmed (past ++ [u]) u.after := by
  rcases htakes.confirmation?_cases with
    ⟨haccepted, hnone, hpaths⟩ | ⟨c, haccepted, hsome, hreplayed, hstarts, hnonempty, hfree, hpaths⟩
  · have hkept := h.of_paths_eq hpaths
    constructor <;> simp only [List.filterMap_append, List.filterMap_cons, List.filterMap_nil,
      haccepted, hnone, List.append_nil]
    exacts [hkept.traces, hkept.targets, hkept.sound, hkept.nonempty, hkept.apart]
  · constructor <;> simp only [List.filterMap_append, List.filterMap_cons, List.filterMap_nil,
      haccepted, hsome, List.map_append, List.map_cons, List.map_nil]
    · rw [h.traces]
    · rw [h.targets, hpaths]
    · intro c' hc'
      rcases List.mem_append.mp hc' with hold | hnew
      · exact h.sound c' hold
      · rw [List.mem_singleton.mp hnew]
        exact ⟨hreplayed, hstarts⟩
    · intro c' hc'
      rcases List.mem_append.mp hc' with hold | hnew
      · exact h.nonempty c' hold
      · rw [List.mem_singleton.mp hnew]
        exact hnonempty
    · refine List.pairwise_append.mpr ⟨h.apart, List.pairwise_singleton .., ?_⟩
      intro earlier hearlier later hlater
      rw [List.mem_singleton.mp hlater, ← Bool.not_eq_true]
      intro hopens
      -- An earlier target that goes on from this one would have covered it.
      have hmem : earlier.target ∈ s.explored.paths := by
        rw [← h.targets]
        exact List.mem_map_of_mem hearlier
      have hcovered := ExploredPaths.isCovered_iff.mpr
        ⟨earlier.target, List.mem_append_left _ hmem, hopens⟩
      rw [hfree] at hcovered
      exact Bool.false_ne_true hcovered

theorem Reached.confirmed (h : t.Reached w₀ past s w) : t.Confirmed past s := by
  induction h with
  | start => exact ⟨rfl, rfl, by simp, by simp, List.Pairwise.nil⟩
  | turn h hturn hnext ih =>
    have hturn' := ih.turn (takes_of_turn? hturn).1
    exact hturn'.of_paths_eq (by rw [(after_eq_going hnext).1])

theorem Arrives.confirmed (harrives : t.Arrives w₀ rounds turns s result) :
    t.Confirmed turns s := by
  cases harrives with
  | unfinished h => exact h.confirmed
  | stopped h _ hstops => exact h.confirmed.of_paths_eq (by rw [hstops.explored])
  | broken h hturn hnext =>
    have hturn' := h.confirmed.turn (takes_of_turn? hturn).1
    exact hturn'.of_paths_eq (by rw [(after_eq_ended hnext).1])

/-- Every trace that a run accepts takes the path its attempt set out for, and of two of them
the target of the later does not open that of the earlier. The two paths are the same exactly
when the later attempt repeats the earlier: its target goes on from the earlier target along
the path that was taken then, and the traces go on alike behind it. -/
theorem run_confirmations (t : Task σ) (w₀ : World σ) (rounds : Nat) :
    let turns := t.turns rounds t.start w₀
    let confirmations := turns.filterMap t.confirmation?
    confirmations.map (·.trace) = turns.filterMap Turn.accepted? ∧
    (∀ c ∈ confirmations, t.pathOf c.trace = .ok c.replayed ∧
      c.replayed.startsWith c.target = true) ∧
    confirmations.Pairwise fun earlier later =>
      earlier.target.startsWith later.target = false ∧
        ((earlier.replayed == later.replayed) = true ↔ later.Repeats earlier) := by
  intro turns confirmations
  have h : t.Confirmed turns _ := (t.run_arrives w₀ rounds).confirmed
  refine ⟨h.traces, h.sound, h.apart.imp_of_mem fun {a b} ha hb hab => ⟨hab, ?_⟩⟩
  exact Confirmation.replayed_beq_iff (h.sound a ha).2 (h.sound b hb).2 hab

end Task

/-- What a run of given arguments comes to depends on nothing else. -/
def Collaborators.IsDeterministic (c : Collaborators σ) : Prop :=
  ∀ m arena parameters o o', ((c.runConcrete m arena parameters).run o).1 =
    ((c.runConcrete m arena parameters).run o').1

/-- In the search through the gate, whose runs depend on their arguments alone, two accepted
traces take the same path. -/
theorem gate_revisits : Gate.task.engine.collaborators.IsDeterministic ∧
    ¬((Gate.task.turns 20 Gate.task.start Gate.world).filterMap
      Gate.task.confirmation?).Pairwise fun earlier later =>
        (earlier.replayed == later.replayed) = false :=
  ⟨fun _ _ _ _ _ => rfl, by decide +kernel⟩

namespace Task

/-- A strictly increasing list of positive numbers is no longer than its bound. -/
theorem length_le_of_increasing {numbers : List Nat} {n : Nat} (h : numbers.Pairwise (· < ·))
    (hbounds : ∀ k ∈ numbers, 0 < k ∧ k ≤ n) : numbers.length ≤ n := by
  have hnodup : numbers.Nodup := h.imp Nat.ne_of_lt
  have hsubset : numbers ⊆ List.range' 1 n := by
    intro k hk
    obtain ⟨hpos, hle⟩ := hbounds k hk
    rw [List.mem_range'_1]
    omega
  have hlength := (List.subperm_of_subset hnodup hsubset).length_le
  rwa [List.length_range'] at hlength

/-- No path is accepted more often than it has branches. -/
theorem accepted_at_most_branches (t : Task σ) (w₀ : World σ) (rounds : Nat)
    (path : SymbolicState) :
    (((t.turns rounds t.start w₀).filterMap t.confirmation?).filter
      fun c => c.replayed == path).length ≤ path.items.length := by
  obtain ⟨-, -, hsound, hnonempty, hapart⟩ := (t.run_arrives w₀ rounds).confirmed
  generalize (t.turns rounds t.start w₀).filterMap t.confirmation? = confirmations at *
  have hmem : ∀ c ∈ confirmations.filter fun c => c.replayed == path,
      c ∈ confirmations ∧ (c.replayed == path) = true := fun c hc => by
    simpa using List.mem_filter.mp hc
  -- Along the accepted attempts that take the path, the targets get longer.
  have hincreasing : ((confirmations.filter fun c => c.replayed == path).map
      fun c => c.target.items.length).Pairwise (· < ·) := by
    rw [List.pairwise_map]
    refine (hapart.filter _).imp_of_mem fun {a b} ha hb hab => ?_
    have hsame : (a.replayed == b.replayed) = true :=
      BEq.trans (hmem a ha).2 (BEq.symm (hmem b hb).2)
    exact ((Confirmation.replayed_beq_iff (hsound a (hmem a ha).1).2
      (hsound b (hmem b hb).1).2 hab).mp hsame).length_lt
  rw [← List.length_map fun c : Confirmation => c.target.items.length]
  refine length_le_of_increasing hincreasing fun k hk => ?_
  obtain ⟨c, hc, rfl⟩ := List.mem_map.mp hk
  obtain ⟨hcmem, hsame⟩ := hmem c hc
  refine ⟨List.length_pos_of_ne_nil (hnonempty c hcmem), ?_⟩
  have hprefix := State.startsWith_iff_key.mp (hsound c hcmem).2
  rw [State.beq_iff_key.mp hsame] at hprefix
  have hle := hprefix.length_le
  rwa [State.length_key, State.length_key] at hle

end Task
end Concolic
