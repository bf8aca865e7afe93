import Concolic.Proofs.Folding.Stability
import Concolic.Proofs.Inlining.Origins
import Concolic.Proofs.Search.ConstantBranches
import Concolic.Proofs.State.Runs

/-!
# The condition of a query

A state goes through rounds of inlining, folding, simplification and filtering before its path
condition is handed to the solver, and each of them keeps items in their places. So every branch of
a state is found in the condition of its query, in order, with nothing but its operands folded.
Whatever else is found there has come from the bodies of calls.

## Main definitions

* `Query.Leaves` — what a predicate of a state leaves in the condition.

## Main statements

* `Folding.items_foldState` — folding a state folds its parts.
* `Query.condition_of_prepare` — the condition of a query for a state.
-/

namespace Concolic

open State

/-! ## Folded items -/

namespace Folding

theorem foldState_eq_of_beq {s : SymbolicState} (h : (foldState s == s) = true) :
    foldState s = s := foldState_eq (foldState_beq_iff.mp h)

/-- What is put back where folding changes nothing is what folding gives. -/
theorem settle_map_foldPredicate (parts : List Predicate) :
    settle parts (parts.map foldPredicate) = parts.map foldPredicate := by
  rw [settle]
  split
  · next h =>
    have hstable := map_foldPredicate_beq_iff.mp h
    exact ((List.map_congr_left fun p hp => (hstable p hp).foldPredicate_eq).trans
      (List.map_id' _)).symm
  · rfl

theorem settle_map_foldState (alternatives : List SymbolicState) :
    settle alternatives (alternatives.map foldState) = alternatives.map foldState := by
  rw [settle]
  split
  · next h =>
    have hall := map_beq_iff.mp h
    exact ((List.map_congr_left fun s hs => foldState_eq_of_beq (hall s hs)).trans
      (List.map_id' _)).symm
  · rfl

theorem foldState_chain_eq (s t : SymbolicState) :
    foldState (.chain s t) = .chain (foldState s) (foldState t) := by
  rw [foldState_chain]
  split
  · next h =>
    rw [Bool.and_eq_true] at h
    rw [foldState_eq_of_beq h.1, foldState_eq_of_beq h.2]
  · rfl

/-- Folding a state folds each part of its items, in its place. -/
theorem items_foldState (s : SymbolicState) :
    (foldState s).items = Item.mapRun foldPredicate s.items := by
  cases s with
  | basic parts =>
    rw [foldState_basic, settle_map_foldPredicate, items_basic, items_basic, Item.mapRun_map_part]
  | chain s t =>
    rw [foldState_chain_eq, items_chain, items_chain, Item.mapRun_append, items_foldState s,
      items_foldState t]
  | choice alternatives =>
    have hbranches : itemsOfAll (alternatives.map foldState) =
        Item.mapBranches foldPredicate (itemsOfAll alternatives) := by
      rw [itemsOfAll_eq_map, itemsOfAll_eq_map, Item.mapBranches_eq_map, List.map_map,
        List.map_map]
      exact List.map_congr_left fun s _ => items_foldState s
    -- Folding empties no alternative, so it makes no choice hollow.
    have hempty : (Item.mapBranches foldPredicate (itemsOfAll alternatives)).all List.isEmpty =
        (itemsOfAll alternatives).all List.isEmpty := by
      rw [Item.mapBranches_eq_map, List.all_map]
      exact congrArg (itemsOfAll alternatives).all
        (funext fun run => Item.isEmpty_mapRun foldPredicate run)
    rw [foldState_choice, settle_map_foldState, items_choice, items_choice, hbranches, hempty]
    split <;> rfl

end Folding

open Folding Inlining

namespace Query

section

variable {program : Program} {policy : Policy} {settings : Config.Settings} {S : Setting}
  {names : NameSupply} {m s : SymbolicState} {q : Query} {p : Predicate} {parts : List Predicate}
  {xs ys between : List (Item Predicate)}

/-! ## After inlining -/

/-- What is left of items in the condition of a query. -/
def conditionItems (xs : List (Item Predicate)) : List (Item Predicate) :=
  Item.siftRun Clause.isPath (Item.siftRun (fun _ => true) (Item.mapRun foldPredicate xs))

theorem conditionItems_append (xs ys : List (Item Predicate)) :
    conditionItems (xs ++ ys) = conditionItems xs ++ conditionItems ys := by
  rw [conditionItems, Item.mapRun_append, Item.siftRun_append, Item.siftRun_append,
    conditionItems, conditionItems]

theorem conditionItems_map_part (parts : List Predicate) :
    conditionItems (parts.map .part) =
      ((parts.filter Clause.isPath).map foldPredicate).map .part := by
  have hfilter : (parts.map foldPredicate).filter Clause.isPath =
      (parts.filter Clause.isPath).map foldPredicate := List.filter_map
  rw [conditionItems, Item.mapRun_map_part, Item.siftRun_map_part, Item.siftRun_map_part,
    List.filter_true, hfilter]

/-- What stands in the condition is a branch among the items, folded. -/
theorem exists_of_inRun_conditionItems {c : Predicate} (h : Item.InRun c (conditionItems xs)) :
    ∃ d, Item.InRun d xs ∧ d.isPath = true ∧ c = foldPredicate d := by
  obtain ⟨h, hpath⟩ := Item.inRun_of_siftRun h
  obtain ⟨d, hd, rfl⟩ := Item.exists_of_inRun_mapRun (Item.inRun_of_siftRun h).1
  exact ⟨d, hd, hpath, rfl⟩

/-- The condition of a query is the path condition of its state, whose items are those of the
inlined state, folded. -/
theorem condition_of_ofInlined (h : ofInlined settings s = .ok q) :
    q.condition = q.state.path ∧ q.condition.items = conditionItems s.items := by
  rw [ofInlined] at h
  cases hfolded : Folding.run s with
  | error failure =>
    rw [hfolded] at h
    cases h
  | ok folded =>
    have hsimple := Folding.simplify_of_run hfolded
    rw [hfolded] at h
    simp only [Bind.bind, Except.bind, pure, Except.pure, hsimple, ite_self] at h
    obtain rfl := Except.ok.inj h
    refine ⟨rfl, ?_⟩
    rw [conditionItems, ← items_foldState, ← items_simplify, ← eq_of_run hfolded]
    exact items_filter _ folded

/-! ## What predicates leave -/

/-- What a predicate leaves in the condition. A branch stays in its place, with its operands folded.
Anything else leaves nothing, unless it makes a call that is inlined: then it leaves what has come
from the body. -/
structure Leaves (S : Setting) (p : Predicate) (share : List (Item Predicate)) : Prop where
  branch : p.isPath = true → share = [.part (foldPredicate p)]
  stems {c : Predicate} : p.isPath = false → Item.InRun c share →
    ∃ d, S.StemsFrom p d ∧ c = foldPredicate d
  calls : p.isPath = false → share ≠ [] → ∃ method, p.Calls method ∧ S.IsInlinable method

theorem leaves_of_remakes (hplain : p.isPath = true → p.IsPlain)
    (h : S.Remakes (.part p) between) : Leaves S p (conditionItems between) where
  branch hpath := by
    -- A plain branch calls nothing and holds no functions, so it is what stays in its place.
    obtain ⟨p', rfl, houtline⟩ := h.kept rfl fun method hcalls =>
      absurd hcalls (hplain hpath).not_calls
    obtain rfl := Clause.eq_of_outline_eq houtline (hplain hpath).firstOrder
    exact (conditionItems_map_part [p']).trans (by rw [List.filter_singleton, hpath]; rfl)
  stems {c} hpath hc := by
    obtain ⟨d, hd, hbranch, rfl⟩ := exists_of_inRun_conditionItems hc
    obtain ⟨p', hp', hdescends⟩ := h.descends hd
    obtain rfl := Item.within_part.mp hp'
    refine ⟨d, ?_, rfl⟩
    -- What stands here is a branch, so it is not what is left of `p` and defines no name.
    rcases hdescends with houtline | hstems | hdefinition
    · cases hbranch.symm.trans ((Clause.isPath_of_outline houtline).trans hpath)
    · exact hstems
    · cases hbranch.symm.trans hdefinition.isPath_eq_false
  calls hpath hne := by
    by_contra hnone
    obtain ⟨p', rfl, houtline⟩ := h.kept rfl fun method hcalls hinlinable =>
      hnone ⟨method, hcalls, hinlinable⟩
    refine hne ((conditionItems_map_part [p']).trans ?_)
    rw [List.filter_singleton, Clause.isPath_of_outline houtline, hpath]
    rfl

/-- Where nothing is inlined there are the branches only. -/
theorem items_of_leaves (h : Piecewise (Leaves S) parts ys)
    (hnot : ∀ p ∈ parts, ∀ method, p.Calls method → ¬S.IsInlinable method) :
    ys = ((parts.filter Clause.isPath).map foldPredicate).map .part := by
  induction parts generalizing ys with
  | nil => exact Piecewise.nil_iff.mp h
  | cons p parts ih =>
    rw [List.forall_mem_cons] at hnot
    obtain ⟨share, rest, hshare, hrest, rfl⟩ := Piecewise.cons_iff.mp h
    rw [ih hrest hnot.2]
    cases hpath : p.isPath with
    | true => rw [hshare.branch hpath, List.filter_cons_of_pos hpath]; rfl
    | false =>
      have hempty : share = [] := by
        by_contra hne
        obtain ⟨method, hcalls, hinlinable⟩ := hshare.calls hpath hne
        exact hnot.1 method hcalls hinlinable
      rw [hempty, List.filter_cons_of_neg (by simp [hpath]), List.nil_append]

/-! ## Prepared states -/

theorem exists_of_prepare (h : ((prepare program policy settings m).run names).1 = .ok q) :
    ∃ s, inlined program policy settings names m = .ok s ∧ ofInlined settings s = .ok q := by
  rw [prepare_run] at h
  cases hinlined : inlined program policy settings names m with
  | error failure =>
    rw [hinlined] at h
    cases h
  | ok s =>
    rw [hinlined] at h
    exact ⟨s, rfl, h⟩

/-- Whether a state is inlined or not, what becomes of its items is where they stood. -/
theorem piecewise_inlined (h : inlined program policy settings names m = .ok s) :
    Piecewise (Setting.Remakes ⟨program, policy, .all⟩) m.items s.items := by
  rw [inlined] at h
  split at h
  · exact run_piecewise (Prod.ext h rfl)
  · obtain rfl := Except.ok.inj h
    exact piecewise_self m.items

/-- **The path condition is kept.** The condition of a query is the path condition of its state.
For a state without choices it is made of what the predicates leave, in order: each branch is there
with its operands folded, and all else comes from the bodies of calls that are inlined. If there is
no such call, the branches are all. -/
theorem condition_of_prepare (hlinear : m.IsLinear)
    (hplain : ∀ p ∈ m.parts, p.isPath = true → p.IsPlain)
    (h : ((prepare program policy settings m).run names).1 = .ok q) :
    q.condition = q.state.path ∧
    Piecewise (Leaves ⟨program, policy, .all⟩) m.parts q.condition.items ∧
    ((settings.inliner.enabled = true → ∀ p ∈ m.parts, ∀ method, p.Calls method →
        ¬Setting.IsInlinable ⟨program, policy, .all⟩ method) →
      q.condition.items = ((m.parts.filter Clause.isPath).map foldPredicate).map .part) := by
  obtain ⟨s, hinlined, hquery⟩ := exists_of_prepare h
  obtain ⟨hcondition, hitems⟩ := condition_of_ofInlined hquery
  have hpieces := piecewise_inlined hinlined
  rw [hlinear.items_eq] at hpieces
  have hleaves : Piecewise (Leaves ⟨program, policy, .all⟩) m.parts q.condition.items := by
    rw [hitems]
    refine (hpieces.of_map.image rfl conditionItems_append).mono ?_
    rintro p hp share ⟨between, hremakes, rfl⟩
    exact leaves_of_remakes (hplain p hp) hremakes
  refine ⟨hcondition, hleaves, fun hnot => ?_⟩
  cases henabled : settings.inliner.enabled with
  | true => exact items_of_leaves hleaves (hnot henabled)
  | false =>
    rw [inlined, if_neg (by simp [henabled])] at hinlined
    obtain rfl := Except.ok.inj hinlined
    rw [hitems, hlinear.items_eq, conditionItems_map_part]

end

/-! Between two branches a sluice is raised, which branches on what it finds. -/

namespace Sluice

def raise : Method := ⟨"Sluice", "raise", "()V"⟩

def branch (name : String) (t : Term) : Predicate := ⟨.path, .equal (.value .int name) t, {}⟩

/-- There is no water, and the sluice may be stuck. -/
def body : SymbolicState :=
  .chain (.basic [branch "water" (.int 0)]) (.choice [.basic [branch "stuck" (.int 1)], .empty])

def program : Program := Program.Table.toProgram
  { methods := [⟨⟨raise, [], .void, true, false, false⟩, [], .known body⟩] }

def raising : Predicate := ⟨.state, .unary .call (.call .void raise .null []), {}⟩

/-- The first branch is on a sum of constants. -/
def state : SymbolicState :=
  .chain (.basic [branch "level" (.arithmetic .add .int (.int 1) (.int 2)), raising])
    (.basic [branch "gates" (.int 4)])

/-- What is asked of the solver if the sluice is raised. -/
def raised : List (Item Predicate) :=
  [.part (branch "level" (.int 3)), .part (branch "water.inlined0" (.int 0)),
    .branch [[.part (branch "stuck.inlined0" (.int 1))], []], .part (branch "gates" (.int 4))]

theorem isLinear_state : state.IsLinear :=
  isLinear_chain.mpr ⟨isLinear_basic _, isLinear_basic _⟩

theorem isPlain_state : ∀ p ∈ state.parts, p.isPath = true → p.IsPlain := by decide

/-- What the sluice branches on stands between the branches if it is inlined; otherwise there are
these two only. -/
theorem raised_between :
    state.IsLinear ∧ (∀ p ∈ state.parts, p.isPath = true → p.IsPlain) ∧
    (∃ q, ((prepare program .always {} state).run ⟨0⟩).1 = .ok q ∧ q.condition = q.state.path ∧
      Piecewise (Leaves ⟨program, .always, .all⟩) state.parts q.condition.items ∧
      q.condition.items = raised) ∧
    ∃ q, ((prepare program .never {} state).run ⟨0⟩).1 = .ok q ∧
      q.condition.items = ((state.parts.filter Clause.isPath).map foldPredicate).map .part := by
  refine ⟨isLinear_state, isPlain_state, ⟨_, rfl, ?_⟩, _, rfl, ?_⟩
  · obtain ⟨hcondition, hleaves, -⟩ := condition_of_prepare isLinear_state
      isPlain_state (rfl : ((prepare program .always {} state).run ⟨0⟩).1 = .ok _)
    exact ⟨hcondition, hleaves, rfl⟩
  · obtain ⟨-, -, hbranches⟩ := condition_of_prepare isLinear_state isPlain_state
      (rfl : ((prepare program .never {} state).run ⟨0⟩).1 = .ok _)
    refine hbranches fun _ p _ method _ hinlinable => ?_
    obtain ⟨info, body, hinlines⟩ := hinlinable
    cases hinlines.admitted

end Sluice

end Query
end Concolic
