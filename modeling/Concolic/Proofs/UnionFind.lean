import Concolic.UnionFind
import Mathlib.Data.Finset.Card
import Mathlib.Logic.Relation
import Mathlib.Order.Interval.Finset.Nat

/-!
# Disjoint sets are merged and nothing else

Every element leads to one root, and two elements are in one set when they lead to the same.
Ranks grow along the links, so a search reaches its root within as many steps as there are
elements. Redirecting links to a root that they led to anyway changes no root; hanging one
root below another changes the roots of exactly the two sets that are merged.

## Main statements

* `Ranked.find`, `Ranked.root_find` — a search keeps the ranks growing and changes no root.
* `Ranked.merges_union`, `Merges.root_eq_iff` — a union merges two sets.
-/

namespace Concolic

/-- One more pair relates what was related to either side of it. -/
theorem eqvGen_or_pair_iff {α : Type} {r : α → α → Prop} {x y p q : α} :
    Relation.EqvGen (fun a b => r a b ∨ a = x ∧ b = y) p q ↔
      Relation.EqvGen r p q ∨ (Relation.EqvGen r p x ∨ Relation.EqvGen r p y) ∧
        (Relation.EqvGen r q x ∨ Relation.EqvGen r q y) := by
  constructor
  · intro h
    induction h with
    | rel p q h =>
      rcases h with h | ⟨rfl, rfl⟩
      · exact .inl (.rel _ _ h)
      · exact .inr ⟨.inl (.refl _), .inr (.refl _)⟩
    | refl p => exact .inl (.refl p)
    | symm p q _ ih => exact ih.imp (.symm _ _) And.symm
    | trans p q s _ _ ih ih' =>
      rcases ih with hpq | ⟨hp, hq⟩
      · rcases ih' with hqs | ⟨hq, hs⟩
        · exact .inl (.trans _ _ _ hpq hqs)
        · exact .inr ⟨hq.imp (.trans _ _ _ hpq) (.trans _ _ _ hpq), hs⟩
      · rcases ih' with hqs | ⟨-, hs⟩
        · have hsq := Relation.EqvGen.symm _ _ hqs
          exact .inr ⟨hp, hq.imp (.trans _ _ _ hsq) (.trans _ _ _ hsq)⟩
        · exact .inr ⟨hp, hs⟩
  · have hmono {a b : α} (h : Relation.EqvGen r a b) :
        Relation.EqvGen (fun a b => r a b ∨ a = x ∧ b = y) a b :=
      Relation.EqvGen.mono (fun _ _ => .inl) _ _ h
    have hyx : Relation.EqvGen (fun a b => r a b ∨ a = x ∧ b = y) y x :=
      .symm _ _ (.rel _ _ (.inr ⟨rfl, rfl⟩))
    rintro (h | ⟨hp, hq⟩)
    · exact hmono h
    · have hpx := hp.elim hmono fun hp => .trans _ _ _ (hmono hp) hyx
      have hqx := hq.elim hmono fun hq => .trans _ _ _ (hmono hq) hyx
      exact .trans _ _ _ hpx (.symm _ _ hqx)

namespace UnionFind

/-! ## Roots -/

/-- Following the links up from an element ends at the root `r`. -/
inductive EndsAt (parents : Array Nat) (r : Nat) : Nat → Prop
  | root : parents.getD r r = r → EndsAt parents r r
  | step {x : Nat} : parents.getD x x ≠ x → EndsAt parents r (parents.getD x x) →
      EndsAt parents r x

namespace EndsAt

variable {parents : Array Nat} {r s x z : Nat}

theorem isRoot (h : EndsAt parents r x) : parents.getD r r = r := by
  induction h with
  | root hr => exact hr
  | step _ _ ih => exact ih

theorem eq_of_isRoot (h : EndsAt parents r x) (hx : parents.getD x x = x) : r = x := by
  cases h with
  | root => rfl
  | step hne _ => exact absurd hx hne

theorem unique (h : EndsAt parents r x) (h' : EndsAt parents s x) : r = s := by
  induction h with
  | root hr => exact (h'.eq_of_isRoot hr).symm
  | step hne _ ih =>
    cases h' with
    | root hs => exact absurd hs hne
    | step _ h' => exact ih h'

/-- An element whose parent is not the root has the root above its parent. -/
theorem parent (h : EndsAt parents r x) (hparent : parents.getD x x ≠ r) :
    parents.getD x x ≠ x ∧ EndsAt parents r (parents.getD x x) := by
  cases h with
  | root hr => exact absurd hr hparent
  | step hne hup => exact ⟨hne, hup⟩

end EndsAt

theorem getD_setIfInBounds {xs : Array Nat} {i v j d : Nat} (hi : i < xs.size) :
    (xs.setIfInBounds i v).getD j d = if j = i then v else xs.getD j d := by
  by_cases hj : j = i
  · subst hj
    simp [Array.getD_eq_getD_getElem?, hi]
  · simp [Array.getD_eq_getD_getElem?, Ne.symm hj, hj]

theorem getD_of_size_le {xs : Array Nat} {j d : Nat} (hj : xs.size ≤ j) : xs.getD j d = d := by
  simp [Array.getD_eq_getD_getElem?, hj]

/-- A link may be redirected to the root that it leads to. -/
theorem EndsAt.redirect {parents : Array Nat} {r s x z : Nat} (hx : EndsAt parents r x)
    (hz : EndsAt parents s z) : EndsAt (parents.setIfInBounds x r) s z := by
  rcases Nat.lt_or_ge x parents.size with hlt | hge
  · induction hz with
    | root hs =>
      refine .root ?_
      rw [getD_setIfInBounds hlt]
      split
      · next heq =>
        subst heq
        exact hx.eq_of_isRoot hs
      · exact hs
    | @step z hne hparent ih =>
      by_cases heq : z = x
      · subst heq
        obtain rfl : r = s := hx.unique (.step hne hparent)
        have hrz : r ≠ z := fun h => hne (h ▸ hx.isRoot)
        refine .step ?_ ?_
        · rwa [getD_setIfInBounds hlt, if_pos rfl]
        · rw [getD_setIfInBounds hlt, if_pos rfl]
          refine .root ?_
          rw [getD_setIfInBounds hlt, if_neg hrz]
          exact hx.isRoot
      · have hsame : (parents.setIfInBounds x r).getD z z = parents.getD z z := by
          rw [getD_setIfInBounds hlt, if_neg heq]
        exact .step (by rwa [hsame]) (by rwa [hsame])
  · rwa [Array.setIfInBounds_eq_of_size_le hge]

/-- Hanging one root below another moves what led to the first. -/
theorem EndsAt.link {parents : Array Nat} {low high s z : Nat} (hlt : low < parents.size)
    (hlow : parents.getD low low = low) (hhigh : parents.getD high high = high)
    (hne : low ≠ high) (hz : EndsAt parents s z) :
    EndsAt (parents.setIfInBounds low high) (if s = low then high else s) z := by
  have hlink : (parents.setIfInBounds low high).getD low low = high := by
    rw [getD_setIfInBounds hlt, if_pos rfl]
  have hother {x : Nat} (hx : x ≠ low) :
      (parents.setIfInBounds low high).getD x x = parents.getD x x := by
    rw [getD_setIfInBounds hlt, if_neg hx]
  induction hz with
  | root hs =>
    split
    · next heq =>
      subst heq
      refine .step (by rw [hlink]; exact hne.symm) ?_
      rw [hlink]
      exact .root (by rwa [hother hne.symm])
    · next hs' => exact .root (by rwa [hother hs'])
  | @step x hx hparent ih =>
    have hx' : x ≠ low := fun h => hx (h ▸ hlow)
    exact .step (by rwa [hother hx']) (by rwa [hother hx'])

/-! ## Ranks -/

/-- Links stay among the elements, and ranks grow along them. -/
structure Ranked (u : UnionFind) : Prop where
  size_ranks : u.ranks.size = u.parents.size
  parent_lt : ∀ x < u.size, u.parents.getD x x < u.size
  rank_lt : ∀ x, u.parents.getD x x ≠ x → u.ranks.getD x 0 < u.ranks.getD (u.parents.getD x x) 0

/-- The elements of higher rank: there are fewer of them with every link. -/
def above (u : UnionFind) (x : Nat) : Finset Nat :=
  (Finset.range u.size).filter fun y => u.ranks.getD x 0 < u.ranks.getD y 0

/-- The representative of the set of an element. -/
def root (u : UnionFind) (x : Nat) : Nat := climb u.parents u.size x

variable {u : UnionFind}

/-- What is no element is a set of its own. -/
theorem root_of_size_le {x : Nat} (hx : u.size ≤ x) : u.root x = x := by
  have hparent : u.parents.getD x x = x := getD_of_size_le hx
  unfold root
  cases u.size with
  | zero => rfl
  | succ n => simp only [climb, hparent, if_true]

theorem lt_size_of_parent_ne {x : Nat} (hx : u.parents.getD x x ≠ x) : x < u.size := by
  by_contra hge
  exact hx (getD_of_size_le (Nat.le_of_not_lt hge))

theorem card_above_lt {x : Nat} (hx : x < u.size) : (u.above x).card < u.size := by
  have hsub : u.above x ⊂ Finset.range u.size := by
    refine Finset.filter_ssubset.mpr ⟨x, Finset.mem_range.mpr hx, ?_⟩
    exact Nat.lt_irrefl _
  simpa using Finset.card_lt_card hsub

namespace Ranked

theorem card_above_parent_lt (hu : u.Ranked) {x : Nat} (hx : u.parents.getD x x ≠ x) :
    (u.above (u.parents.getD x x)).card < (u.above x).card := by
  have hrank := hu.rank_lt x hx
  have hlt : u.parents.getD x x < u.size := hu.parent_lt x (lt_size_of_parent_ne hx)
  refine Finset.card_lt_card ⟨fun y hy => ?_, fun hsub => ?_⟩
  · simp only [above, Finset.mem_filter] at hy ⊢
    exact ⟨hy.1, hrank.trans hy.2⟩
  · -- The parent is above `x`, but not above itself.
    have hmem : u.parents.getD x x ∈ u.above x := by
      simp only [above, Finset.mem_filter, Finset.mem_range]
      exact ⟨hlt, hrank⟩
    have hself := hsub hmem
    simp [above] at hself

/-- Climbing reaches a root within as many steps as there are elements above. -/
theorem endsAt_climb (hu : u.Ranked) {steps x : Nat} (h : (u.above x).card < steps) :
    EndsAt u.parents (climb u.parents steps x) x := by
  induction steps generalizing x with
  | zero => omega
  | succ steps ih =>
    simp only [climb]
    split
    · next hroot => exact .root hroot
    · next hne =>
      have hfewer := hu.card_above_parent_lt hne
      exact .step hne (ih (by omega))

theorem endsAt_root (hu : u.Ranked) (x : Nat) : EndsAt u.parents (u.root x) x := by
  by_cases hx : x < u.size
  · exact hu.endsAt_climb (card_above_lt hx)
  · rw [root_of_size_le (Nat.le_of_not_lt hx)]
    exact .root (getD_of_size_le (Nat.le_of_not_lt hx))

theorem root_eq (hu : u.Ranked) {r x : Nat} (h : EndsAt u.parents r x) : u.root x = r :=
  (hu.endsAt_root x).unique h

theorem lt_size_of_endsAt (hu : u.Ranked) {r x : Nat} (h : EndsAt u.parents r x)
    (hx : x < u.size) : r < u.size := by
  induction h with
  | root => exact hx
  | step _ _ ih => exact ih (hu.parent_lt _ hx)

theorem rank_lt_of_endsAt (hu : u.Ranked) {r x : Nat} (h : EndsAt u.parents r x) (hne : x ≠ r) :
    u.ranks.getD x 0 < u.ranks.getD r 0 := by
  induction h with
  | root => exact absurd rfl hne
  | @step x hx hparent ih =>
    have hrank := hu.rank_lt x hx
    by_cases heq : u.parents.getD x x = r
    · rwa [heq] at hrank
    · exact hrank.trans (ih heq)

end Ranked

/-! ## New elements -/

theorem size_insert (u : UnionFind) (x : Nat) : (u.insert x).size = max u.size (x + 1) := by
  unfold insert
  split
  · omega
  · simp only [size, Array.size_append, Array.size_map, Array.size_range] at *
    omega

theorem getD_parents_insert (u : UnionFind) (x y : Nat) :
    (u.insert x).parents.getD y y = u.parents.getD y y := by
  unfold insert
  split
  · rfl
  · simp only [size, Array.getD_eq_getD_getElem?, Array.getElem?_append, Array.getElem?_map,
      Array.getElem?_range]
    split
    · rfl
    · next hy =>
      rw [Array.getElem?_eq_none (Nat.le_of_not_lt hy)]
      split
      · simp
        omega
      · simp

theorem getD_ranks_insert (u : UnionFind) (x y : Nat) :
    (u.insert x).ranks.getD y 0 = u.ranks.getD y 0 := by
  unfold insert
  split
  · rfl
  · simp only [Array.getD_eq_getD_getElem?, Array.getElem?_append]
    split
    · rfl
    · next hy =>
      rw [Array.getElem?_eq_none (Nat.le_of_not_lt hy), Array.getElem?_replicate]
      split <;> rfl

theorem EndsAt.insert {r y : Nat} (x : Nat) (h : EndsAt u.parents r y) :
    EndsAt (u.insert x).parents r y := by
  induction h with
  | root hr => exact .root (by rwa [getD_parents_insert])
  | step hne _ ih => exact .step (by rwa [getD_parents_insert]) (by rwa [getD_parents_insert])

namespace Ranked

theorem insert (hu : u.Ranked) (x : Nat) : (u.insert x).Ranked where
  size_ranks := by
    have hsizes := hu.size_ranks
    unfold UnionFind.insert
    split
    · exact hsizes
    · simp [hsizes]
  parent_lt y hy := by
    rw [getD_parents_insert]
    by_cases hlt : y < u.size
    · have := hu.parent_lt y hlt
      rw [size_insert]
      omega
    · rwa [getD_of_size_le (Nat.le_of_not_lt hlt)]
  rank_lt y hy := by
    rw [getD_parents_insert] at hy ⊢
    rw [getD_ranks_insert, getD_ranks_insert]
    exact hu.rank_lt y hy

theorem root_insert (hu : u.Ranked) (x y : Nat) : (u.insert x).root y = u.root y :=
  (hu.insert x).root_eq ((hu.endsAt_root y).insert x)

/-! ## Searches -/

theorem redirect (hu : u.Ranked) {x r : Nat} (h : EndsAt u.parents r x) (hx : x < u.size)
    (hne : x ≠ r) : Ranked { u with parents := u.parents.setIfInBounds x r } where
  size_ranks := by simpa using hu.size_ranks
  parent_lt y hy := by
    have hy : y < u.size := by simpa [size] using hy
    have hsize : (u.parents.setIfInBounds x r).size = u.size := Array.size_setIfInBounds
    change (u.parents.setIfInBounds x r).getD y y < (u.parents.setIfInBounds x r).size
    rw [getD_setIfInBounds hx, hsize]
    split
    · exact hu.lt_size_of_endsAt h hx
    · exact hu.parent_lt y hy
  rank_lt y hy := by
    simp only [getD_setIfInBounds hx] at hy ⊢
    split
    · next heq =>
      subst heq
      exact hu.rank_lt_of_endsAt h hne
    · next hy' =>
      rw [if_neg hy'] at hy
      exact hu.rank_lt y hy

/-- Compression keeps every root, the ranks along the links and the number of elements. -/
theorem compress (hu : u.Ranked) {r x : Nat} (steps : Nat) (h : EndsAt u.parents r x)
    (hx : x < u.size) :
    Ranked { u with parents := UnionFind.compress r steps u.parents x } ∧
      (∀ s z, EndsAt u.parents s z → EndsAt (UnionFind.compress r steps u.parents x) s z) ∧
      (UnionFind.compress r steps u.parents x).size = u.parents.size := by
  induction steps generalizing u x with
  | zero => exact ⟨hu, fun _ _ hz => hz, rfl⟩
  | succ steps ih =>
    simp only [UnionFind.compress]
    split
    · exact ⟨hu, fun _ _ hz => hz, rfl⟩
    · next hparent =>
      obtain ⟨hne, hup⟩ := h.parent hparent
      have hxr : x ≠ r := fun heq => hne (heq ▸ hup.isRoot)
      have hredirected := hu.redirect h hx hxr
      have hlt : u.parents.getD x x < (u.parents.setIfInBounds x r).size := by
        rw [Array.size_setIfInBounds]
        exact hu.parent_lt x hx
      obtain ⟨hranked, hroots, hsize⟩ := ih hredirected (h.redirect hup) hlt
      refine ⟨hranked, fun s z hz => hroots s z (h.redirect hz), ?_⟩
      rw [hsize, Array.size_setIfInBounds]

end Ranked

theorem find_fst (u : UnionFind) (x : Nat) : (u.find x).1 = u.root x := by
  unfold find
  split
  · rfl
  · next hx => exact (root_of_size_le (Nat.le_of_not_lt hx)).symm

namespace Ranked

theorem find (hu : u.Ranked) (x : Nat) : (u.find x).2.Ranked := by
  unfold UnionFind.find
  split
  · next hx => exact (hu.compress u.size (hu.endsAt_root x) hx).1
  · exact hu.insert x

theorem size_find (hu : u.Ranked) (x : Nat) : (u.find x).2.size = max u.size (x + 1) := by
  unfold UnionFind.find
  split
  · next hx =>
    have hsize := (hu.compress u.size (hu.endsAt_root x) hx).2.2
    simp only [size] at hsize hx ⊢
    change (UnionFind.compress (u.root x) u.parents.size u.parents x).size = _
    omega
  · exact size_insert u x

theorem root_find (hu : u.Ranked) (x y : Nat) : (u.find x).2.root y = u.root y := by
  refine (hu.find x).root_eq ?_
  unfold UnionFind.find
  split
  · next hx => exact (hu.compress u.size (hu.endsAt_root x) hx).2.1 _ _ (hu.endsAt_root y)
  · exact (hu.endsAt_root y).insert x

theorem lt_size_root (hu : u.Ranked) {x : Nat} (hx : x < u.size) : u.root x < u.size :=
  hu.lt_size_of_endsAt (hu.endsAt_root x) hx

/-- A second search finds what it would have found first. -/
theorem find_find_fst (hu : u.Ranked) (x y : Nat) : ((u.find x).2.find y).1 = u.root y := by
  rw [find_fst, hu.root_find]

theorem root_find_find (hu : u.Ranked) (x y z : Nat) :
    ((u.find x).2.find y).2.root z = u.root z := by
  rw [(hu.find x).root_find, hu.root_find]

theorem size_find_find (hu : u.Ranked) (x y : Nat) :
    ((u.find x).2.find y).2.size = max (max u.size (x + 1)) (y + 1) := by
  rw [(hu.find x).size_find, hu.size_find]

/-! ## Unions -/

/-- A root may be hung below another that ranks higher. -/
theorem link (hu : u.Ranked) {low high count : Nat} {ranks : Array Nat} (hlow : low < u.size)
    (hhigh : high < u.size) (hroot : u.parents.getD high high = high)
    (hranks : ranks.size = u.ranks.size)
    (hsame : ∀ x, x ≠ high → ranks.getD x 0 = u.ranks.getD x 0)
    (hgrown : u.ranks.getD high 0 ≤ ranks.getD high 0)
    (hbelow : u.ranks.getD low 0 < ranks.getD high 0) :
    Ranked ⟨u.parents.setIfInBounds low high, ranks, count⟩ where
  size_ranks := by simpa [hranks] using hu.size_ranks
  parent_lt x hx := by
    have hx : x < u.size := by simpa [size] using hx
    have hsize : (u.parents.setIfInBounds low high).size = u.size := Array.size_setIfInBounds
    change (u.parents.setIfInBounds low high).getD x x < (u.parents.setIfInBounds low high).size
    rw [getD_setIfInBounds hlow, hsize]
    split
    · exact hhigh
    · exact hu.parent_lt x hx
  rank_lt x hx := by
    simp only [getD_setIfInBounds hlow] at hx ⊢
    by_cases hxlow : x = low
    · rw [if_pos hxlow] at hx ⊢
      rwa [hsame x (Ne.symm hx), hxlow]
    · rw [if_neg hxlow] at hx ⊢
      have hxhigh : x ≠ high := fun h => hx (by rw [h, hroot])
      have hrank := hu.rank_lt x hx
      rw [hsame x hxhigh]
      by_cases hup : u.parents.getD x x = high
      · rw [hup] at hrank ⊢
        omega
      · rwa [hsame _ hup]

theorem root_link (hu : u.Ranked) {low high count : Nat} {ranks : Array Nat}
    (hlow : low < u.size) (hlowRoot : u.parents.getD low low = low)
    (hhighRoot : u.parents.getD high high = high) (hne : low ≠ high)
    (hranked : Ranked ⟨u.parents.setIfInBounds low high, ranks, count⟩) (z : Nat) :
    root ⟨u.parents.setIfInBounds low high, ranks, count⟩ z =
      if u.root z = low then high else u.root z :=
  hranked.root_eq ((hu.endsAt_root z).link hlow hlowRoot hhighRoot hne)

end Ranked

/-- The elements of two sets are in one set, and the rest is as it was. -/
structure Merges (u : UnionFind) (x y : Nat) (result : Nat × UnionFind) : Prop where
  ranked : result.2.Ranked
  size_eq : result.2.size = max (max u.size (x + 1)) (y + 1)
  root_eq : ∀ z, result.2.root z =
    if u.root z = u.root x ∨ u.root z = u.root y then result.1 else u.root z
  fst_eq : result.1 = u.root x ∨ result.1 = u.root y

namespace Ranked

/-- Hanging the root of one of two different sets below that of the other merges them. -/
theorem merges_link {v : UnionFind} {x y low high count : Nat}
    {ranks : Array Nat} (hv : v.Ranked) (hroot : ∀ z, v.root z = u.root z)
    (hsize : v.size = max (max u.size (x + 1)) (y + 1)) (hne : u.root x ≠ u.root y)
    (hends : low = u.root x ∧ high = u.root y ∨ low = u.root y ∧ high = u.root x)
    (hranks : ranks.size = v.ranks.size)
    (hsame : ∀ z, z ≠ high → ranks.getD z 0 = v.ranks.getD z 0)
    (hgrown : v.ranks.getD high 0 ≤ ranks.getD high 0)
    (hbelow : v.ranks.getD low 0 < ranks.getD high 0) :
    u.Merges x y (high, ⟨v.parents.setIfInBounds low high, ranks, count⟩) := by
  have hisRoot (z : Nat) : v.parents.getD (u.root z) (u.root z) = u.root z := by
    rw [← hroot]
    exact (hv.endsAt_root z).isRoot
  have hlt {z : Nat} (hz : z < v.size) : u.root z < v.size := by
    rw [← hroot]
    exact hv.lt_size_root hz
  have hx : u.root x < v.size := hlt (by omega)
  have hy : u.root y < v.size := hlt (by omega)
  have hlow : low < v.size := by rcases hends with ⟨rfl, -⟩ | ⟨rfl, -⟩ <;> assumption
  have hhigh : high < v.size := by rcases hends with ⟨-, rfl⟩ | ⟨-, rfl⟩ <;> assumption
  have hlowRoot : v.parents.getD low low = low := by
    rcases hends with ⟨rfl, -⟩ | ⟨rfl, -⟩ <;> exact hisRoot _
  have hhighRoot : v.parents.getD high high = high := by
    rcases hends with ⟨-, rfl⟩ | ⟨-, rfl⟩ <;> exact hisRoot _
  have hne' : low ≠ high := by
    rcases hends with ⟨rfl, rfl⟩ | ⟨rfl, rfl⟩
    · exact hne
    · exact hne.symm
  have hranked : Ranked ⟨v.parents.setIfInBounds low high, ranks, count⟩ :=
    hv.link hlow hhigh hhighRoot hranks hsame hgrown hbelow
  refine ⟨hranked, ?_, fun z => ?_, ?_⟩
  · rw [← hsize]
    exact Array.size_setIfInBounds
  · change root ⟨v.parents.setIfInBounds low high, ranks, count⟩ z = _
    rw [hv.root_link hlow hlowRoot hhighRoot hne' hranked, hroot]
    rcases hends with ⟨rfl, rfl⟩ | ⟨rfl, rfl⟩ <;> grind
  · rcases hends with ⟨-, rfl⟩ | ⟨-, rfl⟩
    · exact .inr rfl
    · exact .inl rfl

theorem merges_union (hu : u.Ranked) (x y : Nat) : u.Merges x y (u.union x y) := by
  have hv := (hu.find x).find y
  have hroot := hu.root_find_find x y
  have hsize := hu.size_find_find x y
  unfold UnionFind.union
  simp only [find_fst u x, hu.find_find_fst]
  generalize ((u.find x).2.find y).2 = v at hv hroot hsize
  by_cases heq : u.root x = u.root y
  · rw [if_pos heq]
    refine ⟨hv, hsize, fun z => ?_, .inl rfl⟩
    rw [hroot]
    grind
  rw [if_neg heq]
  by_cases hlt : v.ranks.getD (u.root x) 0 < v.ranks.getD (u.root y) 0
  · rw [if_pos hlt]
    exact merges_link hv hroot hsize heq (.inl ⟨rfl, rfl⟩) rfl (fun _ _ => rfl) (Nat.le_refl _)
      hlt
  · rw [if_neg hlt]
    have hx : u.root x < v.ranks.size := by
      rw [hv.size_ranks, ← hroot]
      exact hv.lt_size_root (by omega)
    by_cases htie : v.ranks.getD (u.root x) 0 = v.ranks.getD (u.root y) 0
    · rw [if_pos htie]
      have hgrown : (v.ranks.setIfInBounds (u.root x) (v.ranks.getD (u.root x) 0 + 1)).getD
          (u.root x) 0 = v.ranks.getD (u.root x) 0 + 1 := by
        rw [getD_setIfInBounds hx, if_pos rfl]
      refine merges_link hv hroot hsize heq (.inr ⟨rfl, rfl⟩) Array.size_setIfInBounds
        (fun z hz => ?_) ?_ ?_
      · rw [getD_setIfInBounds hx, if_neg hz]
      · omega
      · omega
    · rw [if_neg htie]
      exact merges_link hv hroot hsize heq (.inr ⟨rfl, rfl⟩) rfl (fun _ _ => rfl)
        (Nat.le_refl _) (by omega)

end Ranked

/-- Two elements are in one set behind a union when they were before, or when each was in one
of the two sets. -/
theorem Merges.root_eq_iff {x y z w : Nat} {result : Nat × UnionFind}
    (h : u.Merges x y result) :
    result.2.root z = result.2.root w ↔ u.root z = u.root w ∨
      (u.root z = u.root x ∨ u.root z = u.root y) ∧
        (u.root w = u.root x ∨ u.root w = u.root y) := by
  rw [h.root_eq, h.root_eq]
  have := h.fst_eq
  grind

end UnionFind
end Concolic
