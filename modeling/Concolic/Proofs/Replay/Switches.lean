import Concolic.Proofs.Folding.Words
import Concolic.Proofs.Replay.Flattening
import Mathlib.Data.Fintype.EquivFin

/-!
# Switches

A trace tells the block that a switch has jumped to, not the case that was taken. Replay takes
the first case that leads to the block for it, and the default only for a block to which no case
leads. What is added holds for a key exactly when that guess gives the key back.

What terms mean is left open, but that the key and the cases are whole numbers.

## Main statements

* `Frame.addPassage_switch_holds_iff` — what a switch adds holds exactly when its guess is right.
* `forall_recovers_iff` — the tables for which the guess is right whatever the key is.
-/

namespace Concolic

/-- The relation holds between the values of the terms. -/
inductive Clause.HoldsAt (value : Term → Option Int) : Predicate → Prop
  | equal {role : Role} {a b : Term} {location : Location} {x : Int} :
      value a = some x → value b = some x → HoldsAt value ⟨role, .equal a b, location⟩
  | unequal {role : Role} {a b : Term} {location : Location} {x y : Int} :
      value a = some x → value b = some y → x ≠ y → HoldsAt value ⟨role, .unequal a b, location⟩

namespace Replay

section

variable {value : Term → Option Int} {key case : Term} {table : List (Term × BlockId)}
  {default : BlockId} {k : Int}

theorem holdsAt_equal_iff {role : Role} {location : Location} (hkey : value key = some k) :
    Clause.HoldsAt value ⟨role, .equal key case, location⟩ ↔ value case = some k := by
  refine ⟨fun h => ?_, fun h => .equal hkey h⟩
  cases h with
  | equal ha hb => exact hb.trans (ha.symm.trans hkey)

/-! ## The block that a switch jumps to -/

/-- The block of the first case that has the value of the key, otherwise the default. -/
def switchTarget (value : Term → Option Int) (table : List (Term × BlockId)) (default : BlockId)
    (k : Int) : BlockId :=
  ((table.find? fun entry => value entry.1 == some k).map (·.2)).getD default

/-- The first case that leads to the block of a key, if there is one, is a case of the key. -/
def Recovers (value : Term → Option Int) (table : List (Term × BlockId)) (default : BlockId)
    (k : Int) : Prop :=
  ∀ entry, table.find? (fun entry => entry.2 == switchTarget value table default k) = some entry →
    value entry.1 = some k

theorem switchTarget_of_case {entry : Term × BlockId}
    (h : table.find? (fun entry => value entry.1 == some k) = some entry) :
    switchTarget value table default k = entry.2 := by
  rw [switchTarget, h]
  rfl

theorem switchTarget_of_no_case (h : ∀ entry ∈ table, value entry.1 ≠ some k) :
    switchTarget value table default k = default := by
  have hnone : table.find? (fun entry => value entry.1 == some k) = none :=
    List.find?_eq_none.mpr fun entry hentry => by simpa using h entry hentry
  rw [switchTarget, hnone]
  rfl

/-- A block to which no case leads is the default, and no case has the value of the key. -/
theorem no_case_of_target
    (h : ∀ entry ∈ table, entry.2 ≠ switchTarget value table default k) :
    switchTarget value table default k = default ∧ ∀ entry ∈ table, value entry.1 ≠ some k := by
  cases hcase : table.find? fun entry => value entry.1 == some k with
  | some entry =>
    exact absurd (switchTarget_of_case hcase).symm (h entry (List.mem_of_find?_eq_some hcase))
  | none =>
    have hdiffer : ∀ entry ∈ table, value entry.1 ≠ some k := fun entry hentry => by
      simpa using List.find?_eq_none.mp hcase entry hentry
    exact ⟨switchTarget_of_no_case hdiffer, hdiffer⟩

/-! ## What a switch adds -/

theorem passage_switch_holds_iff {names : Names} (hkey : value (names.term key) = some k)
    (hcases : ∀ entry ∈ table, (value entry.1).isSome) :
    (∀ p ∈ passage names (switchTarget value table default k) (.switch key table default),
        p.HoldsAt value) ↔ Recovers value table default k := by
  unfold Recovers
  cases hfound : table.find? fun entry => entry.2 == switchTarget value table default k with
  | some entry => simp [passage, hfound, holdsAt_equal_iff hkey]
  | none =>
    -- The keys that no case has are told apart from the value of every case.
    have hleads : ∀ entry ∈ table, entry.2 ≠ switchTarget value table default k :=
      fun entry hentry => by simpa using List.find?_eq_none.mp hfound entry hentry
    obtain ⟨hdefault, hdiffer⟩ := no_case_of_target hleads
    refine ⟨fun _ entry hentry => absurd hentry (by simp), fun _ p hp => ?_⟩
    rw [passage, hfound] at hp
    dsimp only at hp
    rw [if_pos hdefault] at hp
    obtain ⟨entry, hentry, rfl⟩ := List.mem_map.mp hp
    obtain ⟨y, hy⟩ := Option.isSome_iff_exists.mp (hcases entry hentry)
    exact .unequal hkey hy fun hsame => hdiffer entry hentry (hsame ▸ hy)

theorem role_passage {names : Names} {next : BlockId} {terminator : Terminator} {p : Predicate}
    (hp : p ∈ passage names next terminator) : p.role = .path := by
  unfold passage at hp
  grind

/-- **Replay of a switch.** For a key of any value, what a frame adds for the block that the
switch jumps to holds exactly when the first case that leads to this block, if there is one, is a
case of the key. -/
theorem Frame.addPassage_switch_holds_iff (f : Frame) (hkey : value (f.rename key) = some k)
    (hcases : ∀ entry ∈ table, (value entry.1).isSome) :
    ∃ added, f.addPassage (.switch key table default)
        (some (switchTarget value table default k)) = f.pushAll added ∧
      (∀ p ∈ added, p.role = .path) ∧
      ((∀ p ∈ added, p.HoldsAt value) ↔ Recovers value table default k) :=
  ⟨_, f.addPassage_eq _ _, fun _ => role_passage, passage_switch_holds_iff hkey hcases⟩

/-- A key is recovered, whatever it is, from tables in which no case leads to the default and
each case that can be taken is the first, by its value, that leads to its block. -/
theorem forall_recovers_iff : (∀ k, Recovers value table default k) ↔
    (∀ entry ∈ table, entry.2 ≠ default) ∧
      ∀ k taken first, table.find? (fun entry => value entry.1 == some k) = some taken →
        table.find? (fun entry => entry.2 == taken.2) = some first → value first.1 = some k := by
  constructor
  · refine fun h => ⟨fun entry hentry hdefault => ?_, fun k taken first htaken hfirst => ?_⟩
    · obtain ⟨k, hk⟩ := Infinite.exists_notMem_finset (table.filterMap (value ·.1)).toFinset
      have hfresh : ∀ entry ∈ table, value entry.1 ≠ some k := fun entry hentry hvalue =>
        hk (List.mem_toFinset.mpr (List.mem_filterMap.mpr ⟨entry, hentry, hvalue⟩))
      cases hfound : table.find? fun entry => entry.2 == default with
      | some first =>
        refine hfresh first (List.mem_of_find?_eq_some hfound) (h k first ?_)
        rw [switchTarget_of_no_case hfresh, hfound]
      | none =>
        exact List.find?_eq_none.mp hfound entry hentry (beq_iff_eq.mpr hdefault)
    · refine h k first ?_
      rw [switchTarget_of_case htaken, hfirst]
  · rintro ⟨hdefault, htaken⟩ k first hfirst
    cases hcase : table.find? fun entry => value entry.1 == some k with
    | some taken =>
      rw [switchTarget_of_case hcase] at hfirst
      exact htaken k taken first hcase hfirst
    | none =>
      have hfresh : ∀ entry ∈ table, value entry.1 ≠ some k := fun entry hentry => by
        simpa using List.find?_eq_none.mp hcase entry hentry
      rw [switchTarget_of_no_case hfresh] at hfirst
      have hleads : first.2 = default := by simpa using List.find?_some hfirst
      exact absurd hleads (hdefault first (List.mem_of_find?_eq_some hfirst))

end

end Replay

/-!
## Cases that share a block

Two switches on an argument. In the first each case has a block of its own. In the second both
cases and the default go on at one block.
-/

namespace Picking

open Replay

def picked : Term := .argument .int 0

def frame : Frame := { method := ⟨"Shared", "pick", "(I)I"⟩ }

/-- The values of terms for a value of the argument. -/
def given (k : Int32) (t : Term) : Option Int :=
  (t.eval fun _ _ => .int k.toBitVec).map Word.toInt

def apart : List (Term × BlockId) := [(.int 1, ⟨1⟩), (.int 2, ⟨2⟩)]

def shared : List (Term × BlockId) := [(.int 1, ⟨1⟩), (.int 2, ⟨1⟩)]

/-- The key two leads to the block of the second case, and what is added for it holds. -/
theorem addPassage_apart_two :
    given 2 (frame.rename picked) = some 2 ∧
    (∀ entry ∈ apart, (given 2 entry.1).isSome) ∧
    Recovers (given 2) apart ⟨0⟩ 2 ∧
    ∃ added, frame.addPassage (.switch picked apart ⟨0⟩)
        (some (switchTarget (given 2) apart ⟨0⟩ 2)) = frame.pushAll added ∧
      (∀ p ∈ added, p.role = .path) ∧
      ((∀ p ∈ added, p.HoldsAt (given 2)) ↔ Recovers (given 2) apart ⟨0⟩ 2) := by
  have hcases : ∀ entry ∈ apart, (given 2 entry.1).isSome := by decide
  refine ⟨rfl, hcases, ?_, frame.addPassage_switch_holds_iff rfl hcases⟩
  intro entry hfound
  obtain rfl : (.int 2, ⟨2⟩) = entry := Option.some.inj hfound
  rfl

/-- The key five goes to the shared block by default. What is added says that it is one. -/
theorem addPassage_shared_five :
    given 5 (frame.rename picked) = some 5 ∧
    (∀ entry ∈ shared, (given 5 entry.1).isSome) ∧
    switchTarget (given 5) shared ⟨1⟩ 5 = ⟨1⟩ ∧
    frame.addPassage (.switch picked shared ⟨1⟩) (some ⟨1⟩) =
      frame.pushAll [⟨.path, .equal picked (.int 1), {}⟩] ∧
    ¬ Clause.HoldsAt (given 5) ⟨.path, .equal picked (.int 1), {}⟩ := by
  refine ⟨rfl, by decide, rfl, rfl, fun h => ?_⟩
  have hone : given 5 (.int 1) = some 5 := (holdsAt_equal_iff rfl).mp h
  exact absurd hone (by decide)

end Picking
end Concolic
