import Concolic.Proofs.State.Sifting
import Concolic.Proofs.State.Ways
import Mathlib.Data.List.Basic
import Mathlib.Data.List.Forall2

/-!
# Runs made piece by piece

Filtering, simplifying and rewriting a state all go through its items one after another, and what
becomes of an item is put where the item stood. So a run that has gone through several of them is
still cut into pieces, one for each item at the start.

## Main definitions

* `Piecewise` — a run made of what becomes of the elements of another one, in order.
* `State.Item.InRun` — a part stands somewhere in a run, in whichever alternatives.
* `State.Item.mapRun` — a run with all its parts replaced.

## Main statements

* `Piecewise.comp` — pieces of pieces.
* `State.occurs_iff_inRun` — what stands in a state stands in its items.
* `State.Item.inRun_of_siftRun` — sifting brings in no part.
-/

namespace Concolic

/-- The run `ys` is made of what becomes of the elements of `xs`, in order. -/
def Piecewise {α β : Type} (becomes : α → List β → Prop) (xs : List α) (ys : List β) : Prop :=
  ∃ pieces, List.Forall₂ becomes xs pieces ∧ ys = pieces.flatten

namespace Piecewise

variable {α β γ : Type} {R Q : α → List β → Prop} {S : β → List γ → Prop} {x : α}
  {xs xs' : List α} {piece ys ys' : List β} {zs : List γ}

theorem nil : Piecewise R [] [] := ⟨[], .nil, rfl⟩

theorem cons (h : R x piece) (hs : Piecewise R xs ys) : Piecewise R (x :: xs) (piece ++ ys) := by
  obtain ⟨pieces, hpieces, rfl⟩ := hs
  exact ⟨piece :: pieces, .cons h hpieces, rfl⟩

theorem nil_iff : Piecewise R [] ys ↔ ys = [] := by
  refine ⟨?_, fun h => h ▸ nil⟩
  rintro ⟨pieces, hpieces, rfl⟩
  cases hpieces
  rfl

theorem cons_iff : Piecewise R (x :: xs) ys ↔
    ∃ piece rest, R x piece ∧ Piecewise R xs rest ∧ ys = piece ++ rest := by
  constructor
  · rintro ⟨pieces, hpieces, rfl⟩
    cases hpieces with
    | @cons _ piece _ rest h hrest => exact ⟨piece, _, h, ⟨rest, hrest, rfl⟩, rfl⟩
  · rintro ⟨piece, rest, h, hrest, rfl⟩
    exact hrest.cons h

theorem singleton_iff : Piecewise R [x] ys ↔ R x ys := by
  rw [cons_iff]
  constructor
  · rintro ⟨piece, rest, h, hrest, rfl⟩
    rwa [nil_iff.mp hrest, List.append_nil]
  · intro h
    exact ⟨ys, [], h, nil, (List.append_nil _).symm⟩

theorem append (h : Piecewise R xs ys) (h' : Piecewise R xs' ys') :
    Piecewise R (xs ++ xs') (ys ++ ys') := by
  induction xs generalizing ys with
  | nil => rwa [nil_iff.mp h]
  | cons x xs ih =>
    obtain ⟨piece, rest, hx, hrest, rfl⟩ := cons_iff.mp h
    rw [List.append_assoc]
    exact (ih hrest).cons hx

theorem exists_split (h : Piecewise R (xs ++ xs') ys) :
    ∃ first second, Piecewise R xs first ∧ Piecewise R xs' second ∧ ys = first ++ second := by
  induction xs generalizing ys with
  | nil => exact ⟨[], ys, nil, h, rfl⟩
  | cons x xs ih =>
    obtain ⟨piece, rest, hx, hrest, rfl⟩ := cons_iff.mp h
    obtain ⟨first, second, hfirst, hsecond, rfl⟩ := ih hrest
    exact ⟨piece ++ first, second, hfirst.cons hx, hsecond, (List.append_assoc ..).symm⟩

theorem mono (h : Piecewise R xs ys) (himp : ∀ x ∈ xs, ∀ piece, R x piece → Q x piece) :
    Piecewise Q xs ys := by
  induction xs generalizing ys with
  | nil =>
    rw [nil_iff.mp h]
    exact nil
  | cons x xs ih =>
    obtain ⟨piece, rest, hx, hrest, rfl⟩ := cons_iff.mp h
    rw [List.forall_mem_cons] at himp
    exact (ih hrest himp.2).cons (himp.1 piece hx)

theorem of_map {δ : Type} {f : δ → α} {ds : List δ} (h : Piecewise R (ds.map f) ys) :
    Piecewise (fun d => R (f d)) ds ys := by
  obtain ⟨pieces, hpieces, rfl⟩ := h
  exact ⟨pieces, List.forall₂_map_left_iff.mp hpieces, rfl⟩

/-- Everything in the run is in one of the pieces. -/
theorem exists_of_mem {y : β} (h : Piecewise R xs ys) (hy : y ∈ ys) :
    ∃ x ∈ xs, ∃ piece, R x piece ∧ y ∈ piece := by
  induction xs generalizing ys with
  | nil =>
    rw [nil_iff.mp h] at hy
    cases hy
  | cons x xs ih =>
    obtain ⟨piece, rest, hx, hrest, rfl⟩ := cons_iff.mp h
    rcases List.mem_append.mp hy with hy | hy
    · exact ⟨x, List.mem_cons_self .., piece, hx, hy⟩
    · obtain ⟨x', hx', piece', h', hy⟩ := ih hrest hy
      exact ⟨x', List.mem_cons_of_mem _ hx', piece', h', hy⟩

/-- A run that is changed piece by piece is cut as it was. -/
theorem image {change : List β → List γ} (hnil : change [] = [])
    (happend : ∀ ys ys', change (ys ++ ys') = change ys ++ change ys') (h : Piecewise R xs ys) :
    Piecewise (fun x piece => ∃ between, R x between ∧ piece = change between) xs (change ys) := by
  induction xs generalizing ys with
  | nil =>
    rw [nil_iff.mp h, hnil]
    exact nil
  | cons x xs ih =>
    obtain ⟨piece, rest, hx, hrest, rfl⟩ := cons_iff.mp h
    rw [happend]
    exact (ih hrest).cons ⟨piece, hx, rfl⟩

/-- What becomes of a piece is a piece again. -/
theorem comp (h : Piecewise R xs ys) (h' : Piecewise S ys zs) :
    Piecewise (fun x piece => ∃ between, R x between ∧ Piecewise S between piece) xs zs := by
  induction xs generalizing ys zs with
  | nil =>
    rw [nil_iff.mp h, nil_iff] at h'
    exact nil_iff.mpr h'
  | cons x xs ih =>
    obtain ⟨piece, rest, hx, hrest, rfl⟩ := cons_iff.mp h
    obtain ⟨first, second, hfirst, hsecond, rfl⟩ := h'.exists_split
    exact (ih hrest hsecond).cons ⟨piece, hx, hfirst⟩

end Piecewise

namespace State

variable {α β : Type} {a : α} {s : State α}

namespace Item

/-- The part stands somewhere in the item. -/
inductive Within (a : α) : Item α → Prop
  | part : Within a (.part a)
  | branch {alternatives : List (List (Item α))} {run : List (Item α)} {x : Item α} :
      run ∈ alternatives → x ∈ run → Within a x → Within a (.branch alternatives)

/-- The part stands somewhere in the run. -/
def InRun (a : α) (xs : List (Item α)) : Prop := ∃ x ∈ xs, x.Within a

variable {x : Item α} {xs ys : List (Item α)} {alternatives : List (List (Item α))}

theorem within_part {b : α} : (part b).Within a ↔ a = b := by
  constructor
  · intro h
    cases h with
    | part => rfl
  · rintro rfl
    exact .part

theorem within_branch : (branch alternatives).Within a ↔ ∃ run ∈ alternatives, InRun a run := by
  constructor
  · intro h
    cases h with
    | branch hrun hx ha => exact ⟨_, hrun, _, hx, ha⟩
  · rintro ⟨run, hrun, x, hx, ha⟩
    exact .branch hrun hx ha

theorem not_inRun_nil : ¬InRun a [] := fun ⟨_, hx, _⟩ => nomatch hx

theorem inRun_cons : InRun a (x :: xs) ↔ x.Within a ∨ InRun a xs := List.exists_mem_cons_iff ..

theorem inRun_singleton : InRun a [x] ↔ x.Within a := by
  rw [inRun_cons, or_iff_left not_inRun_nil]

theorem inRun_append : InRun a (xs ++ ys) ↔ InRun a xs ∨ InRun a ys := by
  simp only [InRun, List.mem_append, or_and_right, exists_or]

theorem inRun_map_part {parts : List α} : InRun a (parts.map part) ↔ a ∈ parts := by
  simp only [InRun, List.mem_map, exists_exists_and_eq_and, within_part, exists_eq_right']

/-! ## Sifted items -/

section sift
variable [BEq α] {keep : α → Bool}

theorem exists_of_inRun_collapse (h : InRun a (collapse alternatives)) :
    ∃ run ∈ alternatives, InRun a run := by
  cases alternatives with
  | nil => exact absurd h not_inRun_nil
  | cons first rest =>
    rw [collapse] at h
    split at h
    · exact ⟨first, List.mem_cons_self .., h⟩
    · exact within_branch.mp (inRun_singleton.mp h)

mutual

theorem within_of_sift : ∀ {x : Item α}, InRun a (sift keep x) → x.Within a ∧ keep a = true
  | .part b, h => by
    rw [sift] at h
    split at h
    · next hb =>
      obtain rfl := within_part.mp (inRun_singleton.mp h)
      exact ⟨.part, hb⟩
    · exact absurd h not_inRun_nil
  | .branch alternatives, h => by
    rw [sift] at h
    obtain ⟨hbranches, ha⟩ := exists_of_siftBranches (exists_of_inRun_collapse h)
    exact ⟨within_branch.mpr hbranches, ha⟩

/-- Sifting brings in no part, and leaves none that fails the test. -/
theorem inRun_of_siftRun : ∀ {xs : List (Item α)}, InRun a (siftRun keep xs) →
    InRun a xs ∧ keep a = true
  | [], h => absurd h not_inRun_nil
  | x :: xs, h => by
    rw [siftRun, inRun_append] at h
    rw [inRun_cons]
    rcases h with h | h
    · obtain ⟨hx, ha⟩ := within_of_sift h
      exact ⟨.inl hx, ha⟩
    · obtain ⟨hxs, ha⟩ := inRun_of_siftRun h
      exact ⟨.inr hxs, ha⟩

theorem exists_of_siftBranches : ∀ {alternatives : List (List (Item α))},
    (∃ run ∈ siftBranches keep alternatives, InRun a run) →
    (∃ run ∈ alternatives, InRun a run) ∧ keep a = true
  | [], ⟨_, hrun, _⟩ => nomatch hrun
  | xs :: rest, h => by
    rw [siftBranches, List.exists_mem_cons_iff] at h
    rw [List.exists_mem_cons_iff]
    rcases h with h | h
    · obtain ⟨hxs, ha⟩ := inRun_of_siftRun h
      exact ⟨.inl hxs, ha⟩
    · obtain ⟨hrest, ha⟩ := exists_of_siftBranches h
      exact ⟨.inr hrest, ha⟩

end

end sift

/-! ## Replaced parts -/

mutual

/-- The item with all its parts replaced. -/
def map (f : α → β) : Item α → Item β
  | .part a => .part (f a)
  | .branch alternatives => .branch (mapBranches f alternatives)

def mapRun (f : α → β) : List (Item α) → List (Item β)
  | [] => []
  | x :: xs => map f x :: mapRun f xs

def mapBranches (f : α → β) : List (List (Item α)) → List (List (Item β))
  | [] => []
  | xs :: rest => mapRun f xs :: mapBranches f rest

end

theorem mapRun_append (f : α → β) (xs ys : List (Item α)) :
    mapRun f (xs ++ ys) = mapRun f xs ++ mapRun f ys := by
  induction xs with
  | nil => rfl
  | cons x xs ih => rw [List.cons_append, mapRun, mapRun, ih, List.cons_append]

theorem mapRun_map_part (f : α → β) (parts : List α) :
    mapRun f (parts.map part) = (parts.map f).map part := by
  induction parts with
  | nil => rfl
  | cons a parts ih => rw [List.map_cons, mapRun, map, ih, List.map_cons, List.map_cons]

theorem mapBranches_eq_map (f : α → β) (alternatives : List (List (Item α))) :
    mapBranches f alternatives = alternatives.map (mapRun f) := by
  induction alternatives with
  | nil => rfl
  | cons xs rest ih => rw [mapBranches, ih, List.map_cons]

theorem isEmpty_mapRun (f : α → β) (xs : List (Item α)) :
    (mapRun f xs).isEmpty = xs.isEmpty := by
  cases xs <;> rfl

section map
variable {f : α → β} {b : β}

mutual

theorem exists_of_within_map : ∀ {x : Item α}, (map f x).Within b → ∃ a, x.Within a ∧ b = f a
  | .part a, h => by
    rw [map] at h
    exact ⟨a, .part, within_part.mp h⟩
  | .branch alternatives, h => by
    rw [map] at h
    obtain ⟨a, hbranches, hb⟩ := exists_of_mapBranches (within_branch.mp h)
    exact ⟨a, within_branch.mpr hbranches, hb⟩

/-- What stands in a run with its parts replaced replaces a part of the run. -/
theorem exists_of_inRun_mapRun : ∀ {xs : List (Item α)}, InRun b (mapRun f xs) →
    ∃ a, InRun a xs ∧ b = f a
  | [], h => absurd h not_inRun_nil
  | x :: xs, h => by
    rw [mapRun, inRun_cons] at h
    rcases h with h | h
    · obtain ⟨a, hx, hb⟩ := exists_of_within_map h
      exact ⟨a, inRun_cons.mpr (.inl hx), hb⟩
    · obtain ⟨a, hxs, hb⟩ := exists_of_inRun_mapRun h
      exact ⟨a, inRun_cons.mpr (.inr hxs), hb⟩

theorem exists_of_mapBranches : ∀ {alternatives : List (List (Item α))},
    (∃ run ∈ mapBranches f alternatives, InRun b run) →
    ∃ a, (∃ run ∈ alternatives, InRun a run) ∧ b = f a
  | [], ⟨_, hrun, _⟩ => nomatch hrun
  | xs :: rest, h => by
    rw [mapBranches, List.exists_mem_cons_iff] at h
    rcases h with h | h
    · obtain ⟨a, hxs, hb⟩ := exists_of_inRun_mapRun h
      exact ⟨a, (List.exists_mem_cons_iff ..).mpr (.inl hxs), hb⟩
    · obtain ⟨a, hrest, hb⟩ := exists_of_mapBranches h
      exact ⟨a, (List.exists_mem_cons_iff ..).mpr (.inr hrest), hb⟩

end

end map
end Item

/-- What stands in a state stands in its items. -/
theorem occurs_iff_inRun : ∀ {s : State α}, s.Occurs a ↔ Item.InRun a s.items
  | .basic parts => by rw [occurs_basic, items_basic, Item.inRun_map_part]
  | .chain s t => by
    rw [occurs_chain, items_chain, Item.inRun_append, occurs_iff_inRun (s := s), occurs_iff_inRun]
  | .choice alternatives => by
    have hall : (∃ t ∈ alternatives, t.Occurs a) ↔
        ∃ run ∈ itemsOfAll alternatives, Item.InRun a run := by
      simp only [mem_itemsOfAll]
      constructor
      · rintro ⟨t, ht, ha⟩
        exact ⟨t.items, ⟨t, ht, rfl⟩, occurs_iff_inRun.mp ha⟩
      · rintro ⟨_, ⟨t, ht, rfl⟩, ha⟩
        exact ⟨t, ht, occurs_iff_inRun.mpr ha⟩
    rw [occurs_choice, hall, items_choice]
    split
    · next hempty =>
      refine iff_of_false ?_ Item.not_inRun_nil
      rintro ⟨run, hrun, ha⟩
      rw [List.isEmpty_iff.mp (List.all_eq_true.mp hempty run hrun)] at ha
      exact Item.not_inRun_nil ha
    · rw [Item.inRun_singleton, Item.within_branch]

end State
end Concolic
