import Concolic.Proofs.State.Appending
import Concolic.Proofs.Term.Equality

/-!
# Sifted states

Filtering goes over the shape of a state, drops what fails the test, and collapses choices on the
way; equality sees the flattened form only. Both meet in a function on items: `Item.siftRun` says
what is left of a flattened form, and filtering a state sifts its items. Simplifying is filtering
with a test that everything passes, so it needs no theory of its own.

From this follow the laws that the search relies on: operations take states that are the same to
states that are the same, however these were put together, and the path condition of one state
after another is the one path condition after the other.

## Main statements

* `simplify_simplify` — a simplified state is left as it is.
* `items_filter` — filtering a state sifts its items.
* `filter_congr`, `simplify_congr` — the operations respect equality of states.
-/

namespace Concolic.State

variable {α : Type}

/-! ## Simplifying twice -/

theorem simplifyAll_eq_map [BEq α] (states : List (State α)) :
    simplifyAll states = states.map simplify := by
  induction states with
  | nil => rfl
  | cons s states ih => rw [simplifyAll, ih, List.map_cons]

theorem filterAll_eq_map [BEq α] (keep : α → Bool) (states : List (State α)) :
    filterAll keep states = states.map (filter keep) := by
  induction states with
  | nil => rfl
  | cons s states ih => rw [filterAll, ih, List.map_cons]

theorem itemsOfAll_eq_map (states : List (State α)) : itemsOfAll states = states.map items := by
  induction states with
  | nil => rfl
  | cons s states ih => rw [itemsOfAll, ih, List.map_cons]

/-- States that are simplified stay so when they are put together into a choice. -/
theorem simplify_collapse [BEq α] {states : List (State α)}
    (h : ∀ s ∈ states, s.simplify = s) : (collapse states).simplify = collapse states := by
  cases states with
  | nil => rfl
  | cons first rest =>
    by_cases hsame : rest.all (· == first) = true
    · rw [collapse, if_pos hsame]
      exact h first (List.mem_cons_self ..)
    · have hchoice : collapse (first :: rest) = choice (first :: rest) := by
        rw [collapse, if_neg hsame]
      rw [hchoice, simplify, simplifyAll_eq_map, List.map_congr_left h, List.map_id', hchoice]

/-- A simplified state is left as it is. -/
theorem simplify_simplify [BEq α] [EquivBEq α] : ∀ s : State α, s.simplify.simplify = s.simplify
  | .basic _ => by simp only [simplify]
  | .chain s t => by
    rw [simplify, simplify_concat, simplify_simplify s, simplify_simplify t]
  | .choice alternatives => by
    rw [simplify, simplifyAll_eq_map]
    refine simplify_collapse fun s hs => ?_
    obtain ⟨t, ht, rfl⟩ := List.mem_map.mp hs
    exact simplify_simplify t

/-! ## Filtering without simplifying again -/

section filter
variable [BEq α] [EquivBEq α] (keep : α → Bool)

/-- What has been filtered is simplified. -/
theorem simplify_filter (s : State α) : (s.filter keep).simplify = s.filter keep := by
  cases s with
  | basic parts => rw [State.filter, simplify]
  | chain s t => rw [State.filter, simplify_simplify]
  | choice alternatives => rw [State.filter, simplify_simplify]

theorem filter_chain (s t : State α) :
    (chain s t).filter keep = (s.filter keep).concat (t.filter keep) := by
  rw [State.filter, simplify_concat, simplify_filter, simplify_filter]

theorem filter_choice (alternatives : List (State α)) :
    (choice alternatives).filter keep = collapse (alternatives.map (State.filter keep)) := by
  rw [State.filter, simplify, simplifyAll_eq_map, filterAll_eq_map, List.map_map]
  congr 1
  exact List.map_congr_left fun s _ => simplify_filter keep s

/-- Simplifying is filtering with a test that everything passes. -/
theorem filter_true : ∀ s : State α, s.filter (fun _ => true) = s.simplify
  | .basic parts => by rw [State.filter, simplify, List.filter_eq_self.mpr fun _ _ => rfl]
  | .chain s t => by rw [filter_chain, simplify, filter_true s, filter_true t]
  | .choice alternatives => by
    rw [filter_choice, simplify, simplifyAll_eq_map]
    congr 1
    exact List.map_congr_left fun s _ => filter_true s

end filter

/-! ## Items -/

namespace Item

variable [BEq α]

/-- A choice between runs: nothing of it is left when all are the same. -/
def collapse : List (List (Item α)) → List (Item α)
  | [] => []
  | first :: rest =>
    if rest.all (Item.sameRuns · first) then first else [.branch (first :: rest)]

mutual

/-- What is left of an item when only the parts that pass the test are kept. -/
def sift (keep : α → Bool) : Item α → List (Item α)
  | .part a => if keep a then [.part a] else []
  | .branch alternatives => collapse (siftBranches keep alternatives)

def siftRun (keep : α → Bool) : List (Item α) → List (Item α)
  | [] => []
  | x :: xs => sift keep x ++ siftRun keep xs

def siftBranches (keep : α → Bool) : List (List (Item α)) → List (List (Item α))
  | [] => []
  | xs :: rest => siftRun keep xs :: siftBranches keep rest

end

variable (keep : α → Bool)

@[simp] theorem siftRun_append (xs ys : List (Item α)) :
    siftRun keep (xs ++ ys) = siftRun keep xs ++ siftRun keep ys := by
  induction xs with
  | nil => rfl
  | cons x xs ih => rw [List.cons_append, siftRun, siftRun, ih, List.append_assoc]

@[simp] theorem siftRun_map_part (parts : List α) :
    siftRun keep (parts.map .part) = (parts.filter keep).map .part := by
  induction parts with
  | nil => rfl
  | cons a parts ih =>
    rw [List.map_cons, siftRun, sift, ih, List.filter_cons]
    split <;> rfl

theorem siftBranches_eq_map (alternatives : List (List (Item α))) :
    siftBranches keep alternatives = alternatives.map (siftRun keep) := by
  induction alternatives with
  | nil => rfl
  | cons xs rest ih => rw [siftBranches, ih, List.map_cons]

theorem collapse_of_empty {alternatives : List (List (Item α))}
    (h : ∀ xs ∈ alternatives, xs = []) : collapse alternatives = [] := by
  cases alternatives with
  | nil => rfl
  | cons first rest =>
    rw [List.forall_mem_cons] at h
    have hsame : rest.all (Item.sameRuns · first) = true := by
      rw [List.all_eq_true]
      intro xs hxs
      rw [h.1, h.2 xs hxs]
      rfl
    rw [collapse, if_pos hsame, h.1]

/-- A run that is one of the alternatives, or the choice between them, is sifted as they are. -/
theorem siftRun_collapse {alternatives : List (List (Item α))}
    (h : ∀ xs ∈ alternatives, siftRun keep xs = xs) :
    siftRun keep (collapse alternatives) = collapse alternatives := by
  cases alternatives with
  | nil => rfl
  | cons first rest =>
    by_cases hsame : rest.all (Item.sameRuns · first) = true
    · rw [collapse, if_pos hsame]
      exact h first (List.mem_cons_self ..)
    · have hbranch : collapse (first :: rest) = [.branch (first :: rest)] := by
        rw [collapse, if_neg hsame]
      rw [hbranch, siftRun, sift, siftBranches_eq_map, List.map_congr_left h, List.map_id',
        hbranch]
      rfl

mutual

theorem siftRun_sift : ∀ x : Item α, siftRun keep (sift keep x) = sift keep x
  | .part a => by
    by_cases ha : keep a = true <;> simp [sift, siftRun, ha]
  | .branch alternatives => by
    rw [sift]
    exact siftRun_collapse keep (siftRun_of_mem_siftBranches alternatives)

/-- Sifting twice is sifting once. -/
theorem siftRun_siftRun : ∀ xs : List (Item α), siftRun keep (siftRun keep xs) = siftRun keep xs
  | [] => rfl
  | x :: xs => by rw [siftRun, siftRun_append, siftRun_sift x, siftRun_siftRun xs]

theorem siftRun_of_mem_siftBranches : ∀ alternatives : List (List (Item α)),
    ∀ xs ∈ siftBranches keep alternatives, siftRun keep xs = xs
  | [] => nofun
  | xs :: rest => by
    rw [siftBranches, List.forall_mem_cons]
    exact ⟨siftRun_siftRun xs, siftRun_of_mem_siftBranches rest⟩

end

/-! ### Items that are the same -/

section same
variable [EquivBEq α]

theorem sameRuns_append {xs ys xs' ys' : List (Item α)} (hxs : sameRuns xs xs' = true)
    (hys : sameRuns ys ys' = true) : sameRuns (xs ++ ys) (xs' ++ ys') = true := by
  rw [sameRuns_iff] at hxs hys ⊢
  rw [List.map_append, List.map_append, hxs, hys]

theorem all_sameRuns_congr {first first' : List (Item α)} {rest rest' : List (List (Item α))}
    (hfirst : sameRuns first first' = true) (hrest : sameBranches rest rest' = true) :
    rest.all (sameRuns · first) = rest'.all (sameRuns · first') := by
  induction rest generalizing rest' with
  | nil =>
    cases rest' with
    | nil => rfl
    | cons => simp [sameBranches] at hrest
  | cons xs rest ih =>
    cases rest' with
    | nil => simp [sameBranches] at hrest
    | cons ys rest' =>
      rw [sameBranches, Bool.and_eq_true] at hrest
      have hhead : sameRuns xs first = sameRuns ys first' := by
        rw [Bool.eq_iff_iff, sameRuns_iff, sameRuns_iff, sameRuns_iff.mp hrest.1,
          sameRuns_iff.mp hfirst]
      rw [List.all_cons, List.all_cons, hhead, ih hrest.2]

theorem sameRuns_collapse {alternatives alternatives' : List (List (Item α))}
    (h : sameBranches alternatives alternatives' = true) :
    sameRuns (collapse alternatives) (collapse alternatives') = true := by
  cases alternatives with
  | nil =>
    cases alternatives' with
    | nil => rfl
    | cons => simp [sameBranches] at h
  | cons first rest =>
    cases alternatives' with
    | nil => simp [sameBranches] at h
    | cons first' rest' =>
      have hparts := h
      rw [sameBranches, Bool.and_eq_true] at hparts
      rw [collapse, collapse, all_sameRuns_congr hparts.1 hparts.2]
      split
      · exact hparts.1
      · simpa [sameRuns, Item.same] using h

end same

variable {keep}

mutual

theorem sameRuns_sift [EquivBEq α] (hkeep : ∀ a b, (a == b) = true → keep a = keep b) :
    ∀ {x y : Item α}, Item.same x y = true → sameRuns (sift keep x) (sift keep y) = true
  | .part a, .part b, h => by
    have hab : (a == b) = true := by simpa [Item.same] using h
    rw [sift, sift, hkeep a b hab]
    split
    · simpa [sameRuns, Item.same] using hab
    · rfl
  | .branch _, .branch _, h => by
    rw [sift, sift]
    exact sameRuns_collapse (sameBranches_siftBranches hkeep (by simpa [Item.same] using h))
  | .part _, .branch _, h => by simp [Item.same] at h
  | .branch _, .part _, h => by simp [Item.same] at h

/-- Sifting takes runs that are the same to runs that are the same. -/
theorem sameRuns_siftRun [EquivBEq α] (hkeep : ∀ a b, (a == b) = true → keep a = keep b) :
    ∀ {xs ys : List (Item α)}, sameRuns xs ys = true →
      sameRuns (siftRun keep xs) (siftRun keep ys) = true
  | [], [], _ => rfl
  | x :: xs, y :: ys, h => by
    rw [sameRuns, Bool.and_eq_true] at h
    rw [siftRun, siftRun]
    exact sameRuns_append (sameRuns_sift hkeep h.1) (sameRuns_siftRun hkeep h.2)
  | [], _ :: _, h => by simp [sameRuns] at h
  | _ :: _, [], h => by simp [sameRuns] at h

theorem sameBranches_siftBranches [EquivBEq α] (hkeep : ∀ a b, (a == b) = true → keep a = keep b) :
    ∀ {xs ys : List (List (Item α))}, sameBranches xs ys = true →
      sameBranches (siftBranches keep xs) (siftBranches keep ys) = true
  | [], [], _ => rfl
  | xs :: _, ys :: _, h => by
    rw [sameBranches, Bool.and_eq_true] at h
    rw [siftBranches, siftBranches, sameBranches, Bool.and_eq_true]
    exact ⟨sameRuns_siftRun hkeep h.1, sameBranches_siftBranches hkeep h.2⟩
  | [], _ :: _, h => by simp [sameBranches] at h
  | _ :: _, [], h => by simp [sameBranches] at h

end

end Item

/-! ## States -/

section states
variable [BEq α]

/-- The items of a collapsed choice. -/
theorem items_collapse (states : List (State α)) :
    (collapse states).items = Item.collapse (states.map items) := by
  cases states with
  | nil => exact items_empty
  | cons first rest =>
    have hall : (rest.map items).all (Item.sameRuns · first.items) = rest.all (· == first) := by
      rw [List.all_map]
      rfl
    rw [collapse, List.map_cons, Item.collapse, hall]
    by_cases hsame : rest.all (· == first) = true
    · rw [if_pos hsame, if_pos hsame]
    · -- Alternatives that are all empty are all the same, so this choice is not hollow.
      have hfull : ¬(itemsOfAll (first :: rest)).all List.isEmpty = true := by
        intro hempty
        refine hsame (List.all_eq_true.mpr fun s hs => ?_)
        rw [itemsOfAll_eq_map, List.all_map, List.all_eq_true] at hempty
        have hs := hempty s (List.mem_cons_of_mem _ hs)
        have hfirst := hempty first (List.mem_cons_self ..)
        simp only [Function.comp_apply, List.isEmpty_iff] at hs hfirst
        change Item.sameRuns s.items first.items = true
        rw [hs, hfirst]
        rfl
      rw [if_neg hsame, if_neg hsame, items_choice, if_neg hfull, itemsOfAll_eq_map, List.map_cons]

variable [EquivBEq α] (keep : α → Bool)

/-- Filtering a state sifts its items. -/
theorem items_filter : ∀ s : State α, (s.filter keep).items = Item.siftRun keep s.items
  | .basic parts => by rw [State.filter, items_basic, items_basic, Item.siftRun_map_part]
  | .chain s t => by
    rw [filter_chain, items_concat, items_chain, Item.siftRun_append, items_filter s,
      items_filter t]
  | .choice alternatives => by
    have hsifted : (alternatives.map (State.filter keep)).map items =
        (alternatives.map items).map (Item.siftRun keep) := by
      rw [List.map_map, List.map_map]
      exact List.map_congr_left fun s _ => items_filter s
    rw [filter_choice, items_collapse, hsifted, items_choice, itemsOfAll_eq_map]
    split
    · next hempty =>
      refine Item.collapse_of_empty fun xs hxs => ?_
      obtain ⟨ys, hys, rfl⟩ := List.mem_map.mp hxs
      rw [List.isEmpty_iff.mp (List.all_eq_true.mp hempty ys hys)]
      rfl
    · rw [Item.siftRun, Item.sift, Item.siftBranches_eq_map, Item.siftRun, List.append_nil]

theorem items_simplify (s : State α) :
    s.simplify.items = Item.siftRun (fun _ => true) s.items := by
  rw [← filter_true, items_filter]

theorem items_filter_filter (s : State α) :
    ((s.filter keep).filter keep).items = (s.filter keep).items := by
  rw [items_filter, items_filter, Item.siftRun_siftRun]

theorem items_filter_concat (s t : State α) :
    ((s.concat t).filter keep).items = ((s.filter keep).concat (t.filter keep)).items := by
  rw [items_filter, items_concat, Item.siftRun_append, items_concat, items_filter, items_filter]

variable {keep} {s s' t t' : State α}

theorem beq_of_items_eq (h : s.items = t.items) : (s == t) = true := by
  rw [beq_iff_key, key, key, h]

omit [EquivBEq α] in
theorem basic_congr {parts parts' : List α} (h : (parts == parts') = true) :
    (basic parts == basic parts') = true := by
  change Item.sameRuns _ _ = true
  rw [items_basic, items_basic]
  induction parts generalizing parts' with
  | nil => cases parts' <;> simp_all [Item.sameRuns]
  | cons a parts ih =>
    cases parts' with
    | nil => cases h
    | cons a' parts' =>
      rw [List.cons_beq_cons, Bool.and_eq_true] at h
      rw [List.map_cons, List.map_cons, Item.sameRuns, Item.same, h.1, ih h.2, Bool.and_self]

theorem chain_congr (hs : (s == s') = true) (ht : (t == t') = true) :
    (chain s t == chain s' t') = true := by
  change Item.sameRuns _ _ = true
  rw [items_chain, items_chain]
  exact Item.sameRuns_append hs ht

omit [EquivBEq α] in
theorem sameBranches_itemsOfAll {states states' : List (State α)} (h : (states == states') = true) :
    Item.sameBranches (itemsOfAll states) (itemsOfAll states') = true := by
  induction states generalizing states' with
  | nil => cases states' <;> simp_all [itemsOfAll, Item.sameBranches]
  | cons s states ih =>
    cases states' with
    | nil => cases h
    | cons s' states' =>
      rw [List.cons_beq_cons, Bool.and_eq_true] at h
      rw [itemsOfAll, itemsOfAll, Item.sameBranches, ih h.2, Bool.and_true]
      exact h.1

theorem choice_congr {states states' : List (State α)} (h : (states == states') = true) :
    (choice states == choice states') = true := by
  have hbranches := sameBranches_itemsOfAll h
  have hhollow := Item.all_sameRuns_congr (Item.sameRuns_refl []) hbranches
  have hisEmpty : ∀ xs : List (Item α), Item.sameRuns xs [] = xs.isEmpty := by
    intro xs
    cases xs <;> rfl
  change Item.sameRuns _ _ = true
  rw [items_choice, items_choice]
  simp only [hisEmpty] at hhollow
  change (itemsOfAll states).all List.isEmpty = (itemsOfAll states').all List.isEmpty at hhollow
  rw [hhollow]
  split
  · rfl
  · rw [Item.sameRuns, Item.same, hbranches]
    rfl

theorem concat_congr (hs : (s == s') = true) (ht : (t == t') = true) :
    (s.concat t == s'.concat t') = true := by
  change Item.sameRuns _ _ = true
  rw [items_concat, items_concat]
  exact Item.sameRuns_append hs ht

/-- Filtering takes states that are the same to states that are the same. -/
theorem filter_congr (hkeep : ∀ a b, (a == b) = true → keep a = keep b) (h : (s == t) = true) :
    (s.filter keep == t.filter keep) = true := by
  change Item.sameRuns _ _ = true
  rw [items_filter, items_filter]
  exact Item.sameRuns_siftRun hkeep h

/-- Simplifying takes states that are the same to states that are the same. -/
theorem simplify_congr (h : (s == t) = true) : (s.simplify == t.simplify) = true := by
  rw [← filter_true, ← filter_true]
  exact filter_congr (fun _ _ _ => rfl) h

theorem startsWith_congr (hs : (s == s') = true) (ht : (t == t') = true) :
    s.startsWith t = s'.startsWith t' := by
  rw [Bool.eq_iff_iff, startsWith_iff_key, startsWith_iff_key, beq_iff_key.mp hs,
    beq_iff_key.mp ht]

theorem startsWith_concat (s t : State α) : (s.concat t).startsWith s = true := by
  rw [startsWith_iff_key, key, key, items_concat, List.map_append]
  exact List.prefix_append ..

end states

/-! ## States of predicates -/

/-- Predicates that are the same are of one role. -/
theorem role_congr (role : Role) (p q : Predicate) (h : (p == q) = true) :
    (p.role == role) = (q.role == role) := by
  rw [(Clause.beq_iff.mp h).1]

/-- **The laws of equality of states.** Operations take states that are the same to states that
are the same, however these are chained. The path condition of one state after another is one path
condition after the other, and a path condition is its own. Starting with a state is reflexive and
transitive, two states that start with each other are the same, and a state with another one after
it starts with the first. -/
theorem laws_of_sameness :
    (∀ {a a' b b' : SymbolicState}, (a == a') = true → (b == b') = true →
      (a.concat b == a'.concat b') = true ∧ (a.simplify == a'.simplify) = true ∧
        (∀ role, (a.ofRole role == a'.ofRole role) = true) ∧
        (a.startsWith b = true ↔ a'.startsWith b' = true)) ∧
    (∀ a b : SymbolicState, ((a.concat b).path == a.path.concat b.path) = true) ∧
    (∀ a : SymbolicState, (a.path.path == a.path) = true) ∧
    (∀ a : SymbolicState, a.startsWith a = true) ∧
    (∀ a b c : SymbolicState,
      a.startsWith b = true → b.startsWith c = true → a.startsWith c = true) ∧
    (∀ a b : SymbolicState, (a.startsWith b = true ∧ b.startsWith a = true) ↔ (a == b) = true) ∧
    (∀ a b : SymbolicState, (a.concat b).startsWith a = true) := by
  refine ⟨?_, ?_, ?_, startsWith_refl, ?_, ?_, startsWith_concat⟩
  · intro a a' b b' ha hb
    refine ⟨concat_congr ha hb, simplify_congr ha, ?_, ?_⟩
    · intro role
      exact filter_congr (role_congr role) ha
    · rw [startsWith_congr ha hb]
  · intro a b
    exact beq_of_items_eq (items_filter_concat _ a b)
  · intro a
    exact beq_of_items_eq (items_filter_filter _ a)
  · intro a b c hab hbc
    exact startsWith_trans hab hbc
  · intro a b
    exact beq_iff_startsWith.symm

/-! Two states, each chained in two ways; one of the chains ends in a hollow choice. -/

namespace Chained

def lit (on : Bool) : Predicate := ⟨.path, .equal (.value .bool "lit") (.bool on), {}⟩

def assign : Predicate := ⟨.state, .equal (.value .bool "seen") (.bool true), {}⟩

def first : SymbolicState := .basic [assign, lit true]

def first' : SymbolicState :=
  .chain (.chain (.basic [assign]) (.basic [lit true])) (.choice [.empty, .choice []])

def second : SymbolicState := .choice [.basic [lit true, assign], .basic [lit false]]

def second' : SymbolicState :=
  .chain .empty (.choice [.chain (.basic [lit true]) (.basic [assign]), .basic [lit false]])

/-- What is made of the states does not depend on how they are chained. -/
theorem laws_of_chained :
    (first == first') = true ∧ (second == second') = true ∧
      (first.concat second == first'.concat second') = true ∧
      (first.simplify == first'.simplify) = true ∧ (first.path == first'.path) = true ∧
      (first.startsWith second = true ↔ first'.startsWith second' = true) ∧
      (first.concat second).path.startsWith (.basic [lit true]) = true := by
  obtain ⟨hrespects, hpath, -⟩ := laws_of_sameness
  have hfirst : (first == first') = true := by decide
  have hsecond : (second == second') = true := by decide
  obtain ⟨hconcat, hsimplify, hrole, hstarts⟩ := hrespects hfirst hsecond
  refine ⟨hfirst, hsecond, hconcat, hsimplify, hrole .path, hstarts, ?_⟩
  -- The path of the whole is the path of `first` with that of `second` after it.
  rw [startsWith_congr (hpath first second) BEq.rfl]
  exact startsWith_concat first.path second.path

end Chained

end Concolic.State
