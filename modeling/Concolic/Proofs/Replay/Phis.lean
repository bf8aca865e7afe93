import Concolic.Proofs.Replay.Execution
import Concolic.Proofs.Replay.Flattening
import Mathlib.Data.List.Induction

/-!
# Phis

The phis of a block take their values together, from the store that the previous block leaves.
Replay binds them one after the other, so a phi that reads another one of the block may read what
has just been assigned to it. What is replayed makes the assignments of the block exactly when no
phi reads what the ones before it change.

## Main definitions

* `Meaning.together` — the store after assignments that are made together.
* `Meaning.ReadsBefore` — no assignment reads what the ones before it change.

## Main statements

* `Meaning.execute_assignments_iff` — when assignments one by one are assignments made together.
* `Meaning.enterBlock_iff` — the same of the phis of a block, as a frame replays them.
-/

namespace Concolic

namespace Replay

/-- What the phis of a block take from a block, in the names of a frame. -/
def bindings (names : Names) (id : BlockId) (phis : List Phi) : List (Term × Term) :=
  phis.filterMap fun phi => (phi.from? id).map fun value =>
    (names.term phi.target, names.term value)

theorem phiBindings_eq (names : Names) (id : BlockId) (phis : List Phi) :
    phiBindings names (some id) phis =
      (bindings names id phis).map fun b => assignment b.1 b.2 := by
  rw [phiBindings, Option.toList_some, List.flatMap_singleton, bindings, List.map_filterMap]
  induction phis with
  | nil => rfl
  | cons phi phis ih =>
    rw [List.flatMap_cons, ih]
    cases hfrom : phi.from? id <;> simp [hfrom]

/-- The frame has a name of its own for a name: the frame of the target for any, a nested one for
values in whose place no actual of the call is put. -/
def Names.Keeps (names : Names) (t : Term) : Prop :=
  t.isNamed = true ∧
    ∀ r, names = some r → r.find? t = none ∧ ∃ type name, t = .value type name

namespace Names

variable {names : Names} {a b : Term}

theorem keeps_none (h : a.isNamed = true) : Keeps none a :=
  ⟨h, fun _ hr => absurd hr (by simp)⟩

theorem onTerm_value {r : Renaming} {type : ValueType} {name : String}
    (h : r.find? (.value type name) = none) :
    r.onTerm (.value type name) = .value type (name ++ "." ++ r.suffix) := by
  have hshortcut : r.rules.shortcut (.leaf type (.value name)) = none := h
  rw [Renaming.onTerm, Rules.reviseTerm, Term.value, Rules.onTerm, Rules.around, hshortcut]
  rfl

theorem Keeps.isNamed (h : names.Keeps a) : (names.term a).isNamed = true := by
  cases names with
  | none => exact h.1
  | some r =>
    obtain ⟨hfind, type, name, rfl⟩ := h.2 r rfl
    rw [term, Option.elim_some, onTerm_value hfind]
    rfl

theorem Keeps.term_beq (ha : names.Keeps a) (hb : names.Keeps b) :
    (names.term a == names.term b) = (a == b) := by
  cases names with
  | none => rfl
  | some r =>
    obtain ⟨hfind, type, name, rfl⟩ := ha.2 r rfl
    obtain ⟨hfind', type', name', rfl⟩ := hb.2 r rfl
    rw [term, term, Option.elim_some, Option.elim_some, onTerm_value hfind, onTerm_value hfind']
    change (type == type' && name ++ "." ++ r.suffix == name' ++ "." ++ r.suffix) =
      (type == type' && name == name')
    congr 1
    rw [Bool.eq_iff_iff, beq_iff_eq, beq_iff_eq, String.append_left_inj, String.append_left_inj]

end Names

end Replay

open Replay

namespace Store

variable {V : Type} {s : Store V} {target : Term} {v : V}

theorem set_eq_set_iff {r : Store V} {w : V} (h : ∀ t, (t == target) = true → r t = s t) :
    r.set target w = s.set target v ↔ r = s ∧ w = v := by
  refine ⟨fun heq => ⟨funext fun t => ?_, ?_⟩, fun ⟨hr, hw⟩ => by rw [hr, hw]⟩
  · have ht := congrFun heq t
    unfold set at ht
    by_cases hsame : (t == target) = true
    · exact h t hsame
    · rwa [if_neg hsame, if_neg hsame] at ht
  · have ht := congrFun heq target
    simpa [set] using ht

end Store

namespace Meaning

variable {V : Type} (M : Meaning V)

/-! ## Assignments made together -/

/-- The store in which every target has the value that its source has in the given store. -/
def together (s : Store V) (bs : List (Term × Term)) : Store V := fun t =>
  ((bs.find? fun b => t == b.1).map fun b => M.eval s b.2).getD (s t)

/-- Every source has the same value after the assignments that come before its own. -/
def ReadsBefore (s : Store V) (bs : List (Term × Term)) : Prop :=
  ∀ before b after, bs = before ++ b :: after → M.eval (M.together s before) b.2 = M.eval s b.2

variable {M} {s : Store V} {bs : List (Term × Term)} {b : Term × Term} {t : Term}

theorem together_of_unbound (h : ∀ b ∈ bs, (t == b.1) = false) : M.together s bs t = s t := by
  have hnone : bs.find? (fun b => t == b.1) = none :=
    List.find?_eq_none.mpr fun b hb => by simp [h b hb]
  rw [together, hnone]
  rfl

theorem unbound_of_fresh (hfresh : ∀ a ∈ bs, (a.1 == b.1) = false) (ht : (t == b.1) = true) :
    ∀ a ∈ bs, (t == a.1) = false := fun a ha =>
  Bool.eq_false_iff.mpr fun hta => absurd (hfresh a ha) (by simp [BEq.trans (BEq.symm hta) ht])

/-- An assignment to a new target is one more assignment. -/
theorem together_concat {v : V} (hv : M.eval s b.2 = some v)
    (hfresh : ∀ a ∈ bs, (a.1 == b.1) = false) :
    M.together s (bs ++ [b]) = (M.together s bs).set b.1 v := by
  funext t
  by_cases hsame : (t == b.1) = true
  · have hnone : bs.find? (fun a => t == a.1) = none :=
      List.find?_eq_none.mpr fun a ha => by simp [unbound_of_fresh hfresh hsame a ha]
    simp [together, Store.set, List.find?_append, hnone, hsame, hv]
  · simp [together, Store.set, List.find?_append, hsame]

/-- Names are read before they change if no target comes before a source that reads it. -/
theorem readsBefore_of_unread (hsources : ∀ b ∈ bs, b.2.isNamed = true)
    (hunread : bs.Pairwise fun a b => (b.2 == a.1) = false) : M.ReadsBefore s bs := by
  rintro before b after rfl
  have hnamed : b.2.isNamed = true := hsources b (by simp)
  rw [M.eval_named _ hnamed, M.eval_named _ hnamed]
  exact together_of_unbound fun a ha =>
    (List.pairwise_append.mp hunread).2.2 a ha b List.mem_cons_self

/-! ## Assignments made one by one -/

variable [DecidableEq V] {moves : Moves V}

theorem execute_append_iff {first second : List Predicate} :
    M.execute s (first ++ second) = some moves ↔
      ∃ own later, M.execute s first = some own ∧ M.execute (s.update own) second = some later ∧
        moves = own ++ later := by
  constructor
  · intro h
    induction first generalizing s moves with
    | nil => exact ⟨[], moves, rfl, h, rfl⟩
    | cons p first ih =>
      rw [List.cons_append, execute, Option.bind_eq_some_iff] at h
      obtain ⟨head, hhead, h⟩ := h
      obtain ⟨rest, hrest, rfl⟩ := Option.map_eq_some_iff.mp h
      obtain ⟨own, later, hown, hlater, rfl⟩ := ih hrest
      refine ⟨head ++ own, later, ?_, ?_, (List.append_assoc ..).symm⟩
      · rw [execute, hhead, Option.bind_some, hown, Option.map_some]
      · rwa [Store.update_append]
  · rintro ⟨own, later, hown, hlater, rfl⟩
    exact execute_append hown hlater

theorem execute_assignment_iff (hnamed : b.1.isNamed = true) :
    M.execute s [assignment b.1 b.2] = some moves ↔
      ∃ v, M.eval s b.2 = some v ∧ moves = [(b.1, v)] := by
  cases heval : M.eval s b.2 <;>
    simp [execute, perform, assignment, assign?, hnamed, heval, eq_comm]

/-- Assignments change their targets only. -/
theorem update_of_unbound (hnamed : ∀ b ∈ bs, b.1.isNamed = true)
    (h : M.execute s (bs.map fun b => assignment b.1 b.2) = some moves)
    (hunbound : ∀ b ∈ bs, (t == b.1) = false) : s.update moves t = s t := by
  induction bs using List.reverseRecOn generalizing moves with
  | nil =>
    obtain rfl : [] = moves := Option.some.inj h
    rfl
  | append_singleton bs b ih =>
    rw [List.forall_mem_append, List.forall_mem_singleton] at hnamed hunbound
    rw [List.map_append, List.map_singleton, execute_append_iff] at h
    obtain ⟨own, later, hown, hlater, rfl⟩ := h
    obtain ⟨v, -, rfl⟩ := (execute_assignment_iff hnamed.2).mp hlater
    rw [Store.update_append, ← ih hnamed.1 hown hunbound.1]
    simp [Store.update, Store.set, hunbound.2]

/-- What holds wherever a list with one more element is split. -/
theorem forall_split_concat {α : Type} {xs : List α} {x : α} {P : List α → α → Prop} :
    (∀ before a after, xs ++ [x] = before ++ a :: after → P before a) ↔
      (∀ before a after, xs = before ++ a :: after → P before a) ∧ P xs x := by
  refine ⟨fun h => ⟨fun before a after hsplit => ?_, h xs x [] rfl⟩, fun ⟨h, hlast⟩ => ?_⟩
  · exact h before a (after ++ [x]) (by rw [hsplit, List.append_assoc, List.cons_append])
  · intro before a after hsplit
    rcases List.eq_nil_or_concat after with rfl | ⟨after, c, rfl⟩
    · obtain ⟨rfl, hx⟩ := List.append_inj' hsplit rfl
      obtain rfl := List.singleton_inj.mp hx
      exact hlast
    · rw [List.concat_eq_append, ← List.cons_append, ← List.append_assoc] at hsplit
      exact h before a after (List.append_inj' hsplit rfl).1

/-- **One by one and together.** Assignments to different names, made one by one, give the store
of the assignments made together exactly when none of them reads what those before it change. -/
theorem execute_assignments_iff (hnamed : ∀ b ∈ bs, b.1.isNamed = true)
    (hdistinct : bs.Pairwise fun a b => (a.1 == b.1) = false)
    (hvalues : ∀ b ∈ bs, (M.eval s b.2).isSome) :
    (∃ moves, M.execute s (bs.map fun b => assignment b.1 b.2) = some moves ∧
        s.update moves = M.together s bs) ↔ M.ReadsBefore s bs := by
  unfold ReadsBefore
  -- Only the last assignment can still set its target, so the others leave what they leave
  -- together, and the last one reads there what it reads at the start.
  induction bs using List.reverseRecOn with
  | nil => exact iff_of_true ⟨[], rfl, rfl⟩ (by simp)
  | append_singleton bs b ih =>
    rw [List.forall_mem_append, List.forall_mem_singleton] at hnamed hvalues
    obtain ⟨hbs, -, hfresh⟩ := List.pairwise_append.mp hdistinct
    have hfresh : ∀ a ∈ bs, (a.1 == b.1) = false := fun a ha =>
      hfresh a ha b (List.mem_singleton_self b)
    obtain ⟨w, hw⟩ := Option.isSome_iff_exists.mp hvalues.2
    rw [forall_split_concat, ← ih hnamed.1 hbs hvalues.1, together_concat hw hfresh, hw]
    simp only [List.map_append, List.map_singleton, execute_append_iff,
      execute_assignment_iff hnamed.2]
    constructor
    · rintro ⟨-, ⟨own, -, hown, ⟨v, hv, rfl⟩, rfl⟩, hupdate⟩
      rw [Store.update_append] at hupdate
      have hbefore : ∀ t, (t == b.1) = true → s.update own t = M.together s bs t := by
        intro t ht
        have hunbound := unbound_of_fresh hfresh ht
        rw [update_of_unbound hnamed.1 hown hunbound, together_of_unbound hunbound]
      obtain ⟨hrest, rfl⟩ := (Store.set_eq_set_iff hbefore).mp hupdate
      rw [← hrest]
      exact ⟨⟨own, hown, rfl⟩, hv⟩
    · rintro ⟨⟨own, hown, hupdate⟩, hv⟩
      refine ⟨_, ⟨own, _, hown, ⟨w, ?_, rfl⟩, rfl⟩, ?_⟩
      · rw [hupdate, hv]
      · rw [Store.update_append, hupdate]
        rfl

/-! ## The phis of a block -/

/-- **Phis one by one.** Take phis with different left sides in a frame that comes from a block,
and a store in which what comes from there has values. Executing what the frame adds for the phis
gives the store in which each left side has the value of its incoming term exactly when no
incoming term is changed by the phis before its own. -/
theorem enterBlock_iff (f : Frame) {id : BlockId} {phis : List Phi}
    (hprevious : f.previous = some id) (hkept : ∀ phi ∈ phis, Names.Keeps f.names phi.target)
    (hdistinct : phis.Pairwise fun a b => (a.target == b.target) = false)
    (hvalues : ∀ b ∈ bindings f.names id phis, (M.eval s b.2).isSome) :
    ∃ added, f.enterBlock phis = f.pushAll added ∧
      ((∃ moves, M.execute s added = some moves ∧
          s.update moves = M.together s (bindings f.names id phis)) ↔
        M.ReadsBefore s (bindings f.names id phis)) := by
  refine ⟨_, f.enterBlock_eq phis, ?_⟩
  rw [hprevious, phiBindings_eq]
  refine execute_assignments_iff (fun b hb => ?_) ?_ hvalues
  · obtain ⟨phi, hphi, hb⟩ := List.mem_filterMap.mp hb
    obtain ⟨value, -, rfl⟩ := Option.map_eq_some_iff.mp hb
    exact (hkept phi hphi).isNamed
  · refine (List.Pairwise.and_mem.mp hdistinct).filterMap _ ?_
    rintro phi phi' ⟨hphi, hphi', hdiffer⟩ b hb b' hb'
    obtain ⟨value, -, rfl⟩ := Option.map_eq_some_iff.mp hb
    obtain ⟨value', -, rfl⟩ := Option.map_eq_some_iff.mp hb'
    exact ((hkept phi hphi).term_beq (hkept phi' hphi')).trans hdiffer

end Meaning

/-!
## Two numbers handed on

A loop that keeps the number of the round and that of the one before.
-/

namespace Handing

open Replay

def hand : Method := ⟨"Shift", "previous", "(IIZ)I"⟩

def next : Term := .argument .int 1

def current : Term := .value .int "cur"

def last : Term := .value .int "prev"

def frame : Frame := { method := hand, previous := some ⟨1⟩ }

/-- The current number becomes the next one. -/
def advance : Phi := ⟨current, [(⟨0⟩, .argument .int 0), (⟨1⟩, next)]⟩

/-- The last number becomes the current one. -/
def keep : Phi := ⟨last, [(⟨0⟩, .argument .int 0), (⟨1⟩, current)]⟩

def given : Store Int := fun t =>
  if t == next then some 2 else if t == current then some 1 else none

theorem keeps_target {phi : Phi} (h : phi ∈ [keep, advance]) :
    Names.Keeps frame.names phi.target := by
  simp only [List.mem_cons, List.not_mem_nil, or_false] at h
  rcases h with rfl | rfl <;> exact Names.keeps_none rfl

/-- Kept first and advanced then, the two have the values of the loop. -/
theorem enterBlock_keep_advance :
    frame.previous = some ⟨1⟩ ∧
    (∀ phi ∈ [keep, advance], Names.Keeps frame.names phi.target) ∧
    ([keep, advance].Pairwise fun a b => (a.target == b.target) = false) ∧
    (∀ b ∈ bindings frame.names ⟨1⟩ [keep, advance], (Summing.meaning.eval given b.2).isSome) ∧
    Summing.meaning.ReadsBefore given (bindings frame.names ⟨1⟩ [keep, advance]) ∧
    ∃ added, frame.enterBlock [keep, advance] = frame.pushAll added ∧
      ((∃ moves, Summing.meaning.execute given added = some moves ∧
          given.update moves =
            Summing.meaning.together given (bindings frame.names ⟨1⟩ [keep, advance])) ↔
        Summing.meaning.ReadsBefore given (bindings frame.names ⟨1⟩ [keep, advance])) := by
  have hdistinct : [keep, advance].Pairwise fun a b => (a.target == b.target) = false := by
    decide
  have hvalues : ∀ b ∈ bindings frame.names ⟨1⟩ [keep, advance],
      (Summing.meaning.eval given b.2).isSome := by
    decide
  refine ⟨rfl, fun _ => keeps_target, hdistinct, hvalues, ?_,
    Meaning.enterBlock_iff frame rfl (fun _ => keeps_target) hdistinct hvalues⟩
  exact Meaning.readsBefore_of_unread (by decide) (by decide)

/-- Advanced first, the current number is lost before it is kept. -/
theorem enterBlock_advance_keep :
    ([advance, keep].Pairwise fun a b => (a.target == b.target) = false) ∧
    (∀ phi ∈ [advance, keep], (phi.from? ⟨1⟩).isSome) ∧
    frame.enterBlock [advance, keep] =
      frame.pushAll [assignment current next, assignment last current] ∧
    Summing.meaning.execute given [assignment current next, assignment last current] =
      some [(current, 2), (last, 2)] ∧
    given.update [(current, 2), (last, 2)] last = some 2 ∧
    Summing.meaning.together given (bindings frame.names ⟨1⟩ [advance, keep]) last = some 1 :=
  ⟨by decide, by decide, rfl, rfl, rfl, rfl⟩

end Handing
end Concolic
