import Concolic.Proofs.State.Sifting
import Concolic.Query
import Mathlib.Data.Set.NAry

/-!
# Runs of a state

A state stands for the runs through its flattened form: sequences of parts, with one alternative
taken at every choice. Parts that are the same are not told apart, so a run is a list of classes
of parts. What operations do to a state is read off its runs.

## Main statements

* `runs_concat`, `runs_choice` — the runs of a state from those of its sides or alternatives.
* `runs_simplify` — simplifying keeps the runs.
* `runs_filter` — filtering a state filters its runs.
* `Query.prepare_simplifyFormulae` — a query is simplified already when it is asked to be.
-/

namespace Concolic.State

variable {α : Type} [BEq α] [EquivBEq α]

/-- Parts up to sameness. -/
def partSetoid (α : Type) [BEq α] [EquivBEq α] : Setoid α where
  r a b := (a == b) = true
  iseqv := ⟨fun _ => BEq.rfl, BEq.symm, BEq.trans⟩

/-- The class of a part. -/
abbrev PartClass (α : Type) [BEq α] [EquivBEq α] := Quotient (partSetoid α)

abbrev toPartClass (a : α) : PartClass α := Quotient.mk (partSetoid α) a

theorem toPartClass_eq_iff {a b : α} : toPartClass a = toPartClass b ↔ (a == b) = true :=
  ⟨Quotient.exact, fun h => Quotient.sound h⟩

/-- A test on parts that does not tell parts that are the same apart, as a test on classes. -/
def onClass (keep : α → Bool) (hkeep : ∀ a b, (a == b) = true → keep a = keep b) :
    PartClass α → Bool := Quotient.lift keep hkeep

/-! ## Items -/

namespace Item

mutual

/-- The runs through one item. A choice without alternatives is passed by. -/
def runs : Item α → Set (List (PartClass α))
  | .part a => {[toPartClass a]}
  | .branch alternatives => if alternatives.isEmpty then {[]} else runsOfSome alternatives

/-- The runs through a flattened state. -/
def runsOfAll : List (Item α) → Set (List (PartClass α))
  | [] => {[]}
  | x :: xs => Set.image2 (· ++ ·) (runs x) (runsOfAll xs)

/-- The runs through one of several alternatives. -/
def runsOfSome : List (List (Item α)) → Set (List (PartClass α))
  | [] => ∅
  | xs :: rest => runsOfAll xs ∪ runsOfSome rest

end

theorem mem_runsOfSome {alternatives : List (List (Item α))} {run : List (PartClass α)} :
    run ∈ runsOfSome alternatives ↔ ∃ xs ∈ alternatives, run ∈ runsOfAll xs := by
  induction alternatives with
  | nil => simp [runsOfSome]
  | cons xs rest ih => simp [runsOfSome, ih]

theorem image2_append_nil_left (runs : Set (List (PartClass α))) :
    Set.image2 (· ++ ·) {[]} runs = runs := by
  rw [Set.image2_singleton_left]
  simp

theorem image2_append_nil_right (runs : Set (List (PartClass α))) :
    Set.image2 (· ++ ·) runs {[]} = runs := by
  rw [Set.image2_singleton_right]
  simp

theorem runsOfAll_append (xs ys : List (Item α)) :
    runsOfAll (xs ++ ys) = Set.image2 (· ++ ·) (runsOfAll xs) (runsOfAll ys) := by
  induction xs with
  | nil => rw [List.nil_append, runsOfAll, image2_append_nil_left]
  | cons x xs ih =>
    rw [List.cons_append, runsOfAll, runsOfAll, ih]
    exact (Set.image2_assoc List.append_assoc).symm

theorem runsOfAll_singleton (x : Item α) : runsOfAll [x] = runs x := by
  rw [runsOfAll, runsOfAll, image2_append_nil_right]

mutual

theorem runs_of_same : ∀ {x y : Item α}, Item.same x y = true → runs x = runs y
  | .part a, .part b, h => by
    rw [runs, runs, toPartClass_eq_iff.mpr (by simpa [Item.same] using h)]
  | .branch xs, .branch ys, h => by
    have hsame : sameBranches xs ys = true := by simpa [Item.same] using h
    have hempty : xs.isEmpty = ys.isEmpty := by
      cases xs <;> cases ys <;> simp_all [sameBranches]
    rw [runs, runs, hempty, runsOfSome_of_same hsame]
  | .part _, .branch _, h => by simp [Item.same] at h
  | .branch _, .part _, h => by simp [Item.same] at h

/-- Runs of items that are the same are the same runs. -/
theorem runsOfAll_of_same : ∀ {xs ys : List (Item α)}, sameRuns xs ys = true →
    runsOfAll xs = runsOfAll ys
  | [], [], _ => rfl
  | x :: xs, y :: ys, h => by
    rw [sameRuns, Bool.and_eq_true] at h
    rw [runsOfAll, runsOfAll, runs_of_same h.1, runsOfAll_of_same h.2]
  | [], _ :: _, h => by simp [sameRuns] at h
  | _ :: _, [], h => by simp [sameRuns] at h

theorem runsOfSome_of_same : ∀ {xs ys : List (List (Item α))}, sameBranches xs ys = true →
    runsOfSome xs = runsOfSome ys
  | [], [], _ => rfl
  | xs :: rest, ys :: rest', h => by
    rw [sameBranches, Bool.and_eq_true] at h
    rw [runsOfSome, runsOfSome, runsOfAll_of_same h.1, runsOfSome_of_same h.2]
  | [], _ :: _, h => by simp [sameBranches] at h
  | _ :: _, [], h => by simp [sameBranches] at h

end

/-- Alternatives that are merged as they are the same have the same runs. -/
theorem runsOfAll_collapse (first : List (Item α)) (rest : List (List (Item α))) :
    runsOfAll (collapse (first :: rest)) = runsOfSome (first :: rest) := by
  rw [collapse]
  split
  · next hsame =>
    have hrest : ∀ run, run ∈ runsOfSome rest → run ∈ runsOfAll first := by
      intro run hrun
      obtain ⟨xs, hxs, hrun⟩ := mem_runsOfSome.mp hrun
      rw [← runsOfAll_of_same (List.all_eq_true.mp hsame xs hxs)]
      exact hrun
    rw [runsOfSome, Set.union_eq_left.mpr hrest]
  · rw [runsOfAll_singleton, runs]
    rfl

variable {keep : α → Bool}

mutual

theorem runsOfAll_sift (hkeep : ∀ a b, (a == b) = true → keep a = keep b) :
    ∀ x : Item α, runsOfAll (sift keep x) = List.filter (onClass keep hkeep) '' runs x
  | .part a => by
    have hclass : onClass keep hkeep (toPartClass a) = keep a := rfl
    rw [sift, runs, Set.image_singleton]
    by_cases ha : keep a = true
    · rw [if_pos ha, runsOfAll_singleton, runs]
      simp [hclass, ha]
    · rw [if_neg ha, runsOfAll]
      simp [hclass, ha]
  | .branch [] => by
    simp [sift, siftBranches, collapse, runsOfAll, runs]
  | .branch (xs :: rest) => by
    rw [sift, siftBranches, runsOfAll_collapse, runs, if_neg (by simp),
      ← runsOfSome_siftBranches hkeep (xs :: rest), siftBranches]

/-- Sifting a flattened state filters its runs. -/
theorem runsOfAll_siftRun (hkeep : ∀ a b, (a == b) = true → keep a = keep b) :
    ∀ xs : List (Item α),
      runsOfAll (siftRun keep xs) = List.filter (onClass keep hkeep) '' runsOfAll xs
  | [] => by rw [siftRun, runsOfAll, Set.image_singleton, List.filter_nil]
  | x :: xs => by
    rw [siftRun, runsOfAll_append, runsOfAll_sift hkeep x, runsOfAll_siftRun hkeep xs, runsOfAll]
    exact (Set.image_image2_distrib fun run run' => List.filter_append run run').symm

theorem runsOfSome_siftBranches (hkeep : ∀ a b, (a == b) = true → keep a = keep b) :
    ∀ alternatives : List (List (Item α)), runsOfSome (siftBranches keep alternatives) =
      List.filter (onClass keep hkeep) '' runsOfSome alternatives
  | [] => by rw [siftBranches, runsOfSome, Set.image_empty]
  | xs :: rest => by
    rw [siftBranches, runsOfSome, runsOfSome, runsOfAll_siftRun hkeep xs,
      runsOfSome_siftBranches hkeep rest, Set.image_union]

end

end Item

/-! ## States -/

/-- The runs through a state. -/
def runs (s : State α) : Set (List (PartClass α)) := Item.runsOfAll s.items

theorem runs_basic (parts : List α) : (basic parts).runs = {parts.map toPartClass} := by
  rw [runs, items_basic]
  induction parts with
  | nil => rfl
  | cons a parts ih =>
    rw [List.map_cons, Item.runsOfAll, Item.runs, ih, Set.image2_singleton]
    rfl

theorem runs_chain (s t : State α) :
    (chain s t).runs = Set.image2 (· ++ ·) s.runs t.runs := by
  rw [runs, items_chain, Item.runsOfAll_append]
  rfl

theorem runs_concat (s t : State α) :
    (s.concat t).runs = Set.image2 (· ++ ·) s.runs t.runs := by
  rw [runs, items_concat, Item.runsOfAll_append]
  rfl

theorem runs_of_items_eq_nil {s : State α} (h : s.items = []) : s.runs = {[]} := by
  rw [runs, h, Item.runsOfAll]

/-- A choice has the runs of its alternatives; if there are none, it is passed by. -/
theorem runs_choice (alternatives : List (State α)) : (choice alternatives).runs =
    if alternatives.isEmpty then {[]} else {run | ∃ s ∈ alternatives, run ∈ s.runs} := by
  cases alternatives with
  | nil => exact runs_of_items_eq_nil (by simp [items, itemsOfAll])
  | cons first rest =>
    rw [if_neg (by simp)]
    by_cases hempty : ∀ x ∈ itemsOfAll (first :: rest), x = []
    · have halternatives : ∀ s ∈ first :: rest, s.runs = {[]} := fun s hs =>
        runs_of_items_eq_nil (hempty _ (mem_itemsOfAll.mpr ⟨s, hs, rfl⟩))
      rw [runs_of_items_eq_nil (items_choice_of_empty hempty)]
      ext run
      constructor
      · intro hrun
        refine ⟨first, List.mem_cons_self .., ?_⟩
        rwa [halternatives first (List.mem_cons_self ..)]
      · rintro ⟨s, hs, hrun⟩
        rwa [halternatives s hs] at hrun
    · rw [runs, items_choice, if_neg (by simpa using hempty), Item.runsOfAll_singleton, Item.runs,
        if_neg (by simp [itemsOfAll])]
      ext run
      rw [Item.mem_runsOfSome]
      constructor
      · rintro ⟨xs, hxs, hrun⟩
        obtain ⟨s, hs, rfl⟩ := mem_itemsOfAll.mp hxs
        exact ⟨s, hs, hrun⟩
      · rintro ⟨s, hs, hrun⟩
        exact ⟨s.items, mem_itemsOfAll.mpr ⟨s, hs, rfl⟩, hrun⟩

/-- Filtering a state filters its runs. -/
theorem runs_filter {keep : α → Bool} (hkeep : ∀ a b, (a == b) = true → keep a = keep b)
    (s : State α) : (s.filter keep).runs = List.filter (onClass keep hkeep) '' s.runs := by
  rw [runs, items_filter, Item.runsOfAll_siftRun hkeep]
  rfl

/-- Simplifying a state keeps its runs. -/
theorem runs_simplify (s : State α) : s.simplify.runs = s.runs := by
  have hall : List.filter (onClass (fun _ : α => true) fun _ _ _ => rfl) = id := by
    funext run
    refine List.filter_eq_self.mpr fun c _ => ?_
    induction c using Quotient.inductionOn
    rfl
  rw [← filter_true, runs_filter (fun _ _ _ => rfl), hall, Set.image_id]

end Concolic.State

/-! ## Queries -/

namespace Concolic

theorem Rules.simplify_revise {σ : Type} (R : Rules (StateM σ)) (recollecting : Bool)
    (s : SymbolicState) (state : σ) :
    ((R.revise recollecting s).run state).1.simplify = ((R.revise recollecting s).run state).1 :=
  State.simplify_simplify _

/-- Constant folding leaves nothing to simplify. -/
theorem Folding.simplify_of_run {s folded : SymbolicState} (h : Folding.run s = .ok folded) :
    folded.simplify = folded := by
  have hsimple := Rules.simplify_revise Folding.rules false s none
  unfold Folding.run at h
  split at h
  · next hrevise =>
    cases h
    rw [StateT.run, hrevise] at hsimple
    exact hsimple
  · cases h

namespace Query

variable (settings : Config.Settings) (simplifyFormulae : Bool)

theorem ofInlined_simplifyFormulae (s : SymbolicState) :
    ofInlined { settings with solver.simplifyFormulae := simplifyFormulae } s =
      ofInlined settings s := by
  unfold ofInlined
  cases hfolded : Folding.run s with
  | error failure => rfl
  | ok folded =>
    have hsimple := Folding.simplify_of_run hfolded
    simp only [bind, Except.bind, pure, Except.pure, hsimple, ite_self]
    rfl

/-- Whether formulae are to be simplified makes no difference to a query. -/
theorem prepare_simplifyFormulae (program : Program) (policy : Inlining.Policy)
    (s : SymbolicState) :
    prepare program policy { settings with solver.simplifyFormulae := simplifyFormulae } s =
      prepare program policy settings s := by
  unfold prepare
  rw [funext (ofInlined_simplifyFormulae settings simplifyFormulae)]

end Query

/-! ## States of predicates -/

namespace State

/-- **States denote their sets of runs.** A run takes one alternative at every choice. The runs of
one state after another are the runs of the one followed by those of the other; simplifying keeps
the runs, and filtering filters them. Simplifying twice is simplifying once, so a query that is
asked to be simplified is as it was without. -/
theorem laws_of_runs {keep : Predicate → Bool}
    (hkeep : ∀ p q, (p == q) = true → keep p = keep q) :
    (∀ predicates : List Predicate, (basic predicates).runs = {predicates.map toPartClass}) ∧
    (∀ alternatives : List SymbolicState, (choice alternatives).runs =
      if alternatives.isEmpty then {[]} else {run | ∃ s ∈ alternatives, run ∈ s.runs}) ∧
    (∀ s t : SymbolicState, (chain s t).runs = Set.image2 (· ++ ·) s.runs t.runs ∧
      (s.concat t).runs = Set.image2 (· ++ ·) s.runs t.runs) ∧
    (∀ s : SymbolicState, s.simplify.runs = s.runs) ∧
    (∀ s : SymbolicState, (s.filter keep).runs = List.filter (onClass keep hkeep) '' s.runs) ∧
    (∀ s : SymbolicState, s.simplify.simplify = s.simplify) ∧
    (∀ (program : Program) (policy : Inlining.Policy) (settings : Config.Settings)
      (simplifyFormulae : Bool) (s : SymbolicState),
      Query.prepare program policy { settings with solver.simplifyFormulae := simplifyFormulae } s =
        Query.prepare program policy settings s) := by
  refine ⟨runs_basic, runs_choice, ?_, runs_simplify, runs_filter hkeep, simplify_simplify, ?_⟩
  · intro s t
    exact ⟨runs_chain s t, runs_concat s t⟩
  · intro program policy settings simplifyFormulae s
    exact Query.prepare_simplifyFormulae settings simplifyFormulae program policy s

/-! A choice whose alternatives differ in what they assign and agree in their branch: only the
branch is left of it as a path, and it is no choice any more. -/

namespace Merging

def door : Predicate := ⟨.path, .equal (.value .bool "door") (.bool true), {}⟩

def assign (name : String) : Predicate := ⟨.state, .equal (.value .bool name) (.bool false), {}⟩

def state : SymbolicState :=
  .choice [.basic [assign "left", door], .chain (.basic [door]) (.basic [assign "right"])]

/-- Both runs of the choice are filtered to the same run. -/
theorem runs_of_path :
    (∀ p q : Predicate, (p == q) = true → p.isPath = q.isPath) ∧
      state.path.runs =
        List.filter (onClass Clause.isPath fun _ _ => Clause.isPath_congr) '' state.runs ∧
      state.path = .basic [door] ∧ state.path.simplify = state.path := by
  have hkeep : ∀ p q : Predicate, (p == q) = true → p.isPath = q.isPath :=
    fun _ _ => Clause.isPath_congr
  obtain ⟨-, -, -, -, hfilter, hsimplify, -⟩ := laws_of_runs hkeep
  have hpath : state.path = .basic [door] := rfl
  refine ⟨hkeep, hfilter state, hpath, ?_⟩
  rw [hpath]
  exact hsimplify (.basic [door])

end Merging

end State
end Concolic
