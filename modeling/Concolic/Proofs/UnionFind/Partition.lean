import Concolic.Proofs.UnionFind
import Mathlib.Data.Setoid.Basic
import Mathlib.SetTheory.Cardinal.Finite

/-!
# Disjoint sets after any calls

Whatever has been asked of disjoint sets, they are the classes of the least equivalence that
contains the pairs united so far. Searches and new elements add nothing to it. Two things are
carried along from call to call: the count is the number of roots, and a root of rank `k` stands
for at least `2 ^ k` elements, since ranks grow only where two sets of the same rank meet. So ranks
are small, far below what their storage holds.

## Main definitions

* `UnionFind.Call`, `UnionFind.run` — what may be asked of disjoint sets.
* `UnionFind.related` — the least equivalence containing the pairs of the unions.
* `UnionFind.Tallied` — the count and the ranks against the sets as they are.
* `UnionFind.Follows` — the sets, the count and the ranks against the calls.

## Main statements

* `Tallied.insert`, `Tallied.find`, `Tallied.union` — no call disturbs the tally.
* `Follows.run` — sets follow any calls; `Follows.count_eq_card`, `Follows.lt_size_run` — their
  number and their elements.
-/

namespace Concolic.UnionFind

variable {u v : UnionFind}

/-! ## Representatives -/

namespace Ranked

theorem root_root (hu : u.Ranked) (x : Nat) : u.root (u.root x) = u.root x :=
  hu.root_eq (.root (hu.endsAt_root x).isRoot)

theorem lt_size_ranks (hu : u.Ranked) {x : Nat} (hx : x < u.size) : x < u.ranks.size := by
  rw [hu.size_ranks]
  exact hx

theorem connected_fst (hu : u.Ranked) (x y : Nat) :
    (u.connected x y).1 = true ↔ u.root x = u.root y := by
  simp only [UnionFind.connected, find_fst u x, hu.find_find_fst, beq_iff_eq]

theorem root_connected (hu : u.Ranked) (x y z : Nat) : (u.connected x y).2.root z = u.root z :=
  hu.root_find_find x y z

/-- What is connected is read off the roots. -/
theorem connected_congr (hu : u.Ranked) (hv : v.Ranked) (hroot : ∀ z, v.root z = u.root z)
    (z w : Nat) : (v.connected z w).1 = (u.connected z w).1 := by
  rw [Bool.eq_iff_iff, hv.connected_fst, hu.connected_fst, hroot, hroot]

end Ranked

/-! ## Counts and ranks -/

/-- The elements that represent a set. -/
def roots (u : UnionFind) : Finset Nat := (Finset.range u.size).filter fun z => u.root z = z

/-- The elements that `r` represents. -/
def members (u : UnionFind) (r : Nat) : Finset Nat :=
  (Finset.range u.size).filter fun z => u.root z = r

theorem mem_roots {z : Nat} : z ∈ u.roots ↔ z < u.size ∧ u.root z = z := by simp [roots]

theorem mem_members {r z : Nat} : z ∈ u.members r ↔ z < u.size ∧ u.root z = r := by simp [members]

theorem Ranked.parent_of_mem_roots (hu : u.Ranked) {r : Nat} (hr : r ∈ u.roots) :
    u.parents.getD r r = r := by
  have hroot := (hu.endsAt_root r).isRoot
  rwa [(mem_roots.mp hr).2] at hroot

/-- The count is that of the sets, and a set of rank `k` has at least `2 ^ k` elements. -/
structure Tallied (u : UnionFind) : Prop where
  ranked : u.Ranked
  count_eq : u.count = u.roots.card
  two_pow_rank_le : ∀ r ∈ u.roots, 2 ^ u.ranks.getD r 0 ≤ (u.members r).card

theorem getD_parents_ofSize (n x : Nat) : (ofSize n).parents.getD x x = x := by
  rcases Nat.lt_or_ge x n with hx | hx <;> simp [ofSize, Array.getD_eq_getD_getElem?, hx]

theorem ranked_ofSize (n : Nat) : (ofSize n).Ranked where
  size_ranks := by simp [ofSize]
  parent_lt x hx := by rwa [getD_parents_ofSize]
  rank_lt x hx := absurd (getD_parents_ofSize n x) hx

theorem root_ofSize (n x : Nat) : (ofSize n).root x = x :=
  (ranked_ofSize n).root_eq (.root (getD_parents_ofSize n x))

theorem getD_ranks_ofSize (n x : Nat) : (ofSize n).ranks.getD x 0 = 0 := by
  rcases Nat.lt_or_ge x n with hx | hx <;> simp [ofSize, Array.getD_eq_getD_getElem?, hx]

theorem one_le_card_members {r : Nat} (hr : r ∈ u.roots) : 1 ≤ (u.members r).card :=
  Finset.card_pos.mpr ⟨r, mem_members.mpr (mem_roots.mp hr)⟩

theorem tallied_ofSize (n : Nat) : (ofSize n).Tallied where
  ranked := ranked_ofSize n
  count_eq := by
    have hall : (ofSize n).roots = Finset.range n := by
      ext z
      simp [mem_roots, root_ofSize]
    rw [hall, Finset.card_range]
    rfl
  two_pow_rank_le r hr := by
    rw [getD_ranks_ofSize]
    exact one_le_card_members hr

theorem count_insert (u : UnionFind) (x : Nat) :
    (u.insert x).count = u.count + ((u.insert x).size - u.size) := by
  rw [size_insert]
  unfold UnionFind.insert
  split
  · next hx => omega
  · next hx =>
    change u.count + (x + 1 - u.size) = _
    omega

namespace Tallied

/-- New elements are sets of their own, of rank zero. -/
theorem insert (hu : u.Tallied) (x : Nat) : (u.insert x).Tallied := by
  have hsize : u.size ≤ (u.insert x).size := by
    rw [size_insert]
    omega
  have hroot := hu.ranked.root_insert x
  refine ⟨hu.ranked.insert x, ?_, fun r hr => ?_⟩
  · have hroots : (u.insert x).roots = u.roots ∪ Finset.Ico u.size (u.insert x).size := by
      ext z
      simp only [mem_roots, hroot, Finset.mem_union, Finset.mem_Ico]
      rcases Nat.lt_or_ge z u.size with hz | hz
      · omega
      · have := root_of_size_le hz
        omega
    have hdisjoint : Disjoint u.roots (Finset.Ico u.size (u.insert x).size) := by
      refine Finset.disjoint_left.mpr fun z hz hz' => ?_
      have := (mem_roots.mp hz).1
      have := (Finset.mem_Ico.mp hz').1
      omega
    rw [hroots, Finset.card_union_of_disjoint hdisjoint, Nat.card_Ico, count_insert, hu.count_eq]
  · rw [getD_ranks_insert]
    rcases Nat.lt_or_ge r u.size with hlt | hge
    · have hmem : r ∈ u.roots := mem_roots.mpr ⟨hlt, by rw [← hroot, (mem_roots.mp hr).2]⟩
      have hsub : u.members r ⊆ (u.insert x).members r := by
        intro z hz
        rw [mem_members] at hz ⊢
        exact ⟨by omega, by rw [hroot, hz.2]⟩
      exact (hu.two_pow_rank_le r hmem).trans (Finset.card_le_card hsub)
    · have hrank : u.ranks.getD r 0 = 0 := by
        refine getD_of_size_le ?_
        rw [hu.ranked.size_ranks]
        exact hge
      rw [hrank]
      exact one_le_card_members hr

/-- Links may change as long as the roots do not. -/
theorem relink (hu : u.Tallied) {parents : Array Nat} (hsize : parents.size = u.parents.size)
    (hranked : Ranked { u with parents })
    (hroot : ∀ z, root { u with parents } z = u.root z) : Tallied { u with parents } := by
  have hroots : roots { u with parents } = u.roots := by
    simp only [roots, size, hsize, hroot]
  have hmembers (r : Nat) : members { u with parents } r = u.members r := by
    simp only [members, size, hsize, hroot]
  refine ⟨hranked, ?_, fun r hr => ?_⟩
  · rw [hroots]
    exact hu.count_eq
  · rw [hmembers]
    exact hu.two_pow_rank_le r (hroots ▸ hr)

theorem find (hu : u.Tallied) (x : Nat) : (u.find x).2.Tallied := by
  have hranked := hu.ranked.find x
  have hroot := hu.ranked.root_find x
  rcases Nat.lt_or_ge x u.size with hx | hx
  · have hfind : (u.find x).2 =
        { u with parents := UnionFind.compress (u.root x) u.size u.parents x } := by
      rw [UnionFind.find, if_pos hx]
      rfl
    have hcompress := hu.ranked.compress u.size (hu.ranked.endsAt_root x) hx
    rw [hfind] at hranked hroot ⊢
    exact hu.relink hcompress.2.2 hranked hroot
  · rw [UnionFind.find, if_neg (Nat.not_lt.mpr hx)]
    exact hu.insert x

end Tallied

/-- The root `low` is hung below `high`, which ranks one higher if both ranked the same. -/
inductive Hangs (v : UnionFind) (low high : Nat) : UnionFind → Prop where
  | below : v.ranks.getD low 0 < v.ranks.getD high 0 →
      Hangs v low high ⟨v.parents.setIfInBounds low high, v.ranks, v.count - 1⟩
  | level : v.ranks.getD low 0 = v.ranks.getD high 0 →
      Hangs v low high ⟨v.parents.setIfInBounds low high,
        v.ranks.setIfInBounds high (v.ranks.getD high 0 + 1), v.count - 1⟩

/-- A union searches for both elements, and hangs one representative below the other unless they
are the same. -/
theorem Ranked.union_cases (hu : u.Ranked) (x y : Nat) :
    u.root x = u.root y ∧ (u.union x y).2 = ((u.find x).2.find y).2 ∨
      u.root x ≠ u.root y ∧ ∃ low high,
        (low = u.root x ∧ high = u.root y ∨ low = u.root y ∧ high = u.root x) ∧
        Hangs ((u.find x).2.find y).2 low high (u.union x y).2 := by
  unfold UnionFind.union
  simp only [find_fst u x, hu.find_find_fst]
  generalize ((u.find x).2.find y).2 = v
  by_cases heq : u.root x = u.root y
  · exact .inl ⟨heq, by rw [if_pos heq]⟩
  refine .inr ⟨heq, ?_⟩
  rw [if_neg heq]
  by_cases hlt : v.ranks.getD (u.root x) 0 < v.ranks.getD (u.root y) 0
  · rw [if_pos hlt]
    exact ⟨_, _, .inl ⟨rfl, rfl⟩, .below hlt⟩
  · rw [if_neg hlt]
    refine ⟨_, _, .inr ⟨rfl, rfl⟩, ?_⟩
    by_cases htie : v.ranks.getD (u.root x) 0 = v.ranks.getD (u.root y) 0
    · rw [if_pos htie]
      exact .level htie.symm
    · rw [if_neg htie]
      exact .below (by omega)

namespace Hangs

variable {low high : Nat} {w : UnionFind}

theorem count_eq (h : Hangs v low high w) : w.count = v.count - 1 := by cases h <;> rfl

theorem size_eq (h : Hangs v low high w) : w.size = v.size := by
  cases h <;> exact Array.size_setIfInBounds

theorem getD_ranks_of_ne (h : Hangs v low high w) (hv : v.Ranked) (hhigh : high ∈ v.roots) {z : Nat}
    (hz : z ≠ high) : w.ranks.getD z 0 = v.ranks.getD z 0 := by
  cases h with
  | below => rfl
  | level =>
    rw [getD_setIfInBounds (hv.lt_size_ranks (mem_roots.mp hhigh).1), if_neg hz]

/-- The rank of the one root left is paid for by those of both. -/
theorem two_pow_rank_le (h : Hangs v low high w) (hv : v.Ranked) (hhigh : high ∈ v.roots) :
    2 ^ w.ranks.getD high 0 ≤ 2 ^ v.ranks.getD low 0 + 2 ^ v.ranks.getD high 0 := by
  cases h with
  | below => exact Nat.le_add_left ..
  | level htie =>
    rw [getD_setIfInBounds (hv.lt_size_ranks (mem_roots.mp hhigh).1), if_pos rfl, htie,
      Nat.pow_succ]
    omega

theorem ranked (h : Hangs v low high w) (hv : v.Ranked) (hlow : low ∈ v.roots)
    (hhigh : high ∈ v.roots) : w.Ranked := by
  have hlt := (mem_roots.mp hlow).1
  have hlt' := (mem_roots.mp hhigh).1
  have hroot := hv.parent_of_mem_roots hhigh
  cases h with
  | below hbelow =>
    exact hv.link hlt hlt' hroot rfl (fun _ _ => rfl) (Nat.le_refl _) hbelow
  | level htie =>
    have hgrown : (v.ranks.setIfInBounds high (v.ranks.getD high 0 + 1)).getD high 0 =
        v.ranks.getD high 0 + 1 := by
      rw [getD_setIfInBounds (hv.lt_size_ranks hlt'), if_pos rfl]
    refine hv.link hlt hlt' hroot Array.size_setIfInBounds (fun z hz => ?_) ?_ ?_
    · rw [getD_setIfInBounds (hv.lt_size_ranks hlt'), if_neg hz]
    · omega
    · omega

theorem root_eq (h : Hangs v low high w) (hv : v.Ranked) (hlow : low ∈ v.roots)
    (hhigh : high ∈ v.roots) (hne : low ≠ high) (z : Nat) :
    w.root z = if v.root z = low then high else v.root z := by
  have hw := h.ranked hv hlow hhigh
  have hlt := (mem_roots.mp hlow).1
  have hlowRoot := hv.parent_of_mem_roots hlow
  have hhighRoot := hv.parent_of_mem_roots hhigh
  cases h with
  | below => exact hv.root_link hlt hlowRoot hhighRoot hne hw z
  | level => exact hv.root_link hlt hlowRoot hhighRoot hne hw z

end Hangs

namespace Tallied

/-- Of two roots one is left, and it stands for the elements of both. -/
theorem hang (hv : v.Tallied) {low high : Nat} {w : UnionFind} (h : Hangs v low high w)
    (hlow : low ∈ v.roots) (hhigh : high ∈ v.roots) (hne : low ≠ high) : w.Tallied := by
  have hroot := h.root_eq hv.ranked hlow hhigh hne
  have hlowRoot := (mem_roots.mp hlow).2
  have hhighRoot := (mem_roots.mp hhigh).2
  have hroots : w.roots = v.roots.erase low := by
    ext z
    rw [Finset.mem_erase, mem_roots, mem_roots, h.size_eq, hroot]
    grind
  refine ⟨h.ranked hv.ranked hlow hhigh, ?_, fun r hr => ?_⟩
  · rw [h.count_eq, hroots, Finset.card_erase_of_mem hlow, hv.count_eq]
  · rw [hroots, Finset.mem_erase] at hr
    by_cases hrh : r = high
    · subst hrh
      have hmembers : w.members r = v.members low ∪ v.members r := by
        ext z
        rw [Finset.mem_union, mem_members, mem_members, mem_members, h.size_eq, hroot]
        grind
      have hdisjoint : Disjoint (v.members low) (v.members r) := by
        refine Finset.disjoint_left.mpr fun z hz hz' => hne ?_
        rw [← (mem_members.mp hz).2, (mem_members.mp hz').2]
      calc 2 ^ w.ranks.getD r 0
          ≤ 2 ^ v.ranks.getD low 0 + 2 ^ v.ranks.getD r 0 := h.two_pow_rank_le hv.ranked hhigh
        _ ≤ (v.members low).card + (v.members r).card :=
          Nat.add_le_add (hv.two_pow_rank_le low hlow) (hv.two_pow_rank_le r hhigh)
        _ = (w.members r).card := by rw [hmembers, Finset.card_union_of_disjoint hdisjoint]
    · have hmembers : w.members r = v.members r := by
        ext z
        rw [mem_members, mem_members, h.size_eq, hroot]
        grind
      rw [h.getD_ranks_of_ne hv.ranked hhigh hrh, hmembers]
      exact hv.two_pow_rank_le r hr.2

theorem union (hu : u.Tallied) (x y : Nat) : (u.union x y).2.Tallied := by
  have hv := (hu.find x).find y
  have hroot := hu.ranked.root_find_find x y
  have hsize := hu.ranked.size_find_find x y
  have hmem {z : Nat} (hz : z < ((u.find x).2.find y).2.size) :
      u.root z ∈ ((u.find x).2.find y).2.roots := by
    rw [mem_roots, hroot, hu.ranked.root_root, ← hroot]
    exact ⟨hv.ranked.lt_size_root hz, rfl⟩
  have hx : u.root x ∈ ((u.find x).2.find y).2.roots := hmem (by omega)
  have hy : u.root y ∈ ((u.find x).2.find y).2.roots := hmem (by omega)
  rcases hu.ranked.union_cases x y with ⟨-, h⟩ | ⟨hne, low, high, hends, h⟩
  · rw [h]
    exact hv
  · rcases hends with ⟨rfl, rfl⟩ | ⟨rfl, rfl⟩
    · exact hv.hang h hx hy hne
    · exact hv.hang h hy hx hne.symm

/-- The rank of an element is at most the logarithm of the number of elements. -/
theorem two_pow_le_size (hu : u.Tallied) {x : Nat} (hx : x < u.size) :
    2 ^ u.ranks.getD x 0 ≤ u.size := by
  have hrank : u.ranks.getD x 0 ≤ u.ranks.getD (u.root x) 0 := by
    by_cases heq : x = u.root x
    · rw [← heq]
    · exact (hu.ranked.rank_lt_of_endsAt (hu.ranked.endsAt_root x) heq).le
  have hroot : u.root x ∈ u.roots :=
    mem_roots.mpr ⟨hu.ranked.lt_size_root hx, hu.ranked.root_root x⟩
  calc 2 ^ u.ranks.getD x 0
      ≤ 2 ^ u.ranks.getD (u.root x) 0 := Nat.pow_le_pow_right Nat.two_pos hrank
    _ ≤ (u.members (u.root x)).card := hu.two_pow_rank_le _ hroot
    _ ≤ (Finset.range u.size).card := Finset.card_le_card (Finset.filter_subset _ _)
    _ = u.size := Finset.card_range _

end Tallied

/-! ## Calls -/

/-- What may be asked of disjoint sets. -/
inductive Call (ι : Type) where
  | insert (x : ι)
  | find (x : ι)
  | union (x y : ι)
  | connected (x y : ι)

namespace Call

variable {ι κ : Type}

/-- The elements that a call asks for. -/
def elements : Call ι → List ι
  | insert x | find x => [x]
  | union x y | connected x y => [x, y]

/-- The same call of other elements. -/
def map (f : ι → κ) : Call ι → Call κ
  | insert x => .insert (f x)
  | find x => .find (f x)
  | union x y => .union (f x) (f y)
  | connected x y => .connected (f x) (f y)

theorem elements_map (f : ι → κ) (c : Call ι) : (c.map f).elements = c.elements.map f := by
  cases c <;> rfl

theorem map_eq_union {f : ι → κ} {c : Call ι} {a b : κ} (h : c.map f = .union a b) :
    ∃ x y, c = .union x y ∧ f x = a ∧ f y = b := by
  cases c with
  | union x y =>
    obtain ⟨ha, hb⟩ := Call.union.inj h
    exact ⟨x, y, rfl, ha, hb⟩
  | insert | find | connected => cases h

/-- The sets that a call leaves. -/
def after : Call Nat → UnionFind → UnionFind
  | insert x, u => u.insert x
  | find x, u => (u.find x).2
  | union x y, u => (u.union x y).2
  | connected x y, u => (u.connected x y).2

end Call

theorem Tallied.after (hu : u.Tallied) (c : Call Nat) : (c.after u).Tallied := by
  cases c with
  | insert x => exact hu.insert x
  | find x => exact hu.find x
  | union x y => exact hu.union x y
  | connected x y => exact (hu.find x).find y

/-- Only unions change roots. -/
theorem Ranked.root_after (hu : u.Ranked) {c : Call Nat} (hc : ∀ x y, c ≠ .union x y) (z : Nat) :
    (c.after u).root z = u.root z := by
  cases c with
  | insert x => exact hu.root_insert x z
  | find x => exact hu.root_find x z
  | union x y => exact absurd rfl (hc x y)
  | connected x y => exact hu.root_connected x y z

def run (calls : List (Call Nat)) (u : UnionFind) : UnionFind :=
  calls.foldl (fun u c => c.after u) u

theorem run_concat (calls : List (Call Nat)) (c : Call Nat) (u : UnionFind) :
    run (calls ++ [c]) u = c.after (run calls u) := by
  simp [run]

/-- The least equivalence that contains the pairs united. -/
def related {ι : Type} (calls : List (Call ι)) : Setoid ι :=
  Relation.EqvGen.setoid fun x y => Call.union x y ∈ calls

/-- The sets after some calls are what the calls relate, and are tallied. -/
structure Follows (calls : List (Call Nat)) (u : UnionFind) : Prop where
  tallied : u.Tallied
  root_eq_iff : ∀ z w, u.root z = u.root w ↔ related calls z w

namespace Follows

variable {calls : List (Call Nat)}

theorem ofSize (n : Nat) : Follows [] (ofSize n) where
  tallied := tallied_ofSize n
  root_eq_iff z w := by
    rw [root_ofSize, root_ofSize]
    constructor
    · rintro rfl
      exact .refl z
    · intro h
      induction h with
      | rel _ _ hmem => cases hmem
      | refl => rfl
      | symm _ _ _ ih => exact ih.symm
      | trans _ _ _ _ _ ih ih' => exact ih.trans ih'

/-- A call that is no union relates nothing more, and keeps the roots as well. -/
theorem keep (h : Follows calls u) {c : Call Nat} (hc : ∀ x y, c ≠ .union x y) (hv : v.Tallied)
    (hroot : ∀ z, v.root z = u.root z) : Follows (calls ++ [c]) v := by
  have hrelated : related (calls ++ [c]) = related calls := by
    have hmem (x y : Nat) : Call.union x y ∈ calls ++ [c] ↔ Call.union x y ∈ calls := by
      simp [(hc x y).symm]
    simp only [related, hmem]
  refine ⟨hv, fun z w => ?_⟩
  rw [hroot, hroot, hrelated]
  exact h.root_eq_iff z w

theorem union (h : Follows calls u) (x y : Nat) :
    Follows (calls ++ [.union x y]) (u.union x y).2 := by
  refine ⟨h.tallied.union x y, fun z w => ?_⟩
  have hpair : related (calls ++ [.union x y]) z w ↔ related calls z w ∨
      (related calls z x ∨ related calls z y) ∧ (related calls w x ∨ related calls w y) := by
    have hmem (a b : Nat) : Call.union a b ∈ calls ++ [Call.union x y] ↔
        Call.union a b ∈ calls ∨ a = x ∧ b = y := by
      simp
    have hiff := eqvGen_or_pair_iff (r := fun a b => Call.union a b ∈ calls) (x := x) (y := y)
      (p := z) (q := w)
    simp only [← hmem] at hiff
    exact hiff
  rw [(h.tallied.ranked.merges_union x y).root_eq_iff, hpair]
  simp only [h.root_eq_iff]

theorem step (h : Follows calls u) (c : Call Nat) : Follows (calls ++ [c]) (c.after u) := by
  cases c with
  | union x y => exact h.union x y
  | insert | find | connected =>
    exact h.keep nofun (h.tallied.after _) (h.tallied.ranked.root_after nofun)

theorem run (n : Nat) (calls : List (Call Nat)) : Follows calls (run calls (.ofSize n)) := by
  induction calls using List.reverseRecOn with
  | nil => exact ofSize n
  | append_singleton calls c ih =>
    rw [run_concat]
    exact ih.step c

theorem connected_fst (h : Follows calls u) (x y : Nat) :
    (u.connected x y).1 = true ↔ related calls x y :=
  (h.tallied.ranked.connected_fst x y).trans (h.root_eq_iff x y)

/-- There is an element for every number up to those asked for. -/
theorem lt_size_after (h : Follows calls u) (c : Call Nat) (x : Nat) :
    x < (c.after u).size ↔ x < u.size ∨ ∃ y ∈ c.elements, x ≤ y := by
  have hranked := h.tallied.ranked
  cases c with
  | insert y => simp [Call.after, Call.elements, size_insert]
  | find y => simp [Call.after, Call.elements, hranked.size_find]
  | union y z => simp [Call.after, Call.elements, (hranked.merges_union y z).size_eq]
  | connected y z =>
    have hsize : (u.connected y z).2.size = _ := hranked.size_find_find y z
    simp [Call.after, Call.elements, hsize]

theorem lt_size_run (n : Nat) (calls : List (Call Nat)) (x : Nat) :
    x < (UnionFind.run calls (.ofSize n)).size ↔ x < n ∨ ∃ c ∈ calls, ∃ y ∈ c.elements, x ≤ y := by
  induction calls using List.reverseRecOn with
  | nil => simp [UnionFind.run]
  | append_singleton calls c ih =>
    rw [run_concat, (Follows.run n calls).lt_size_after, ih]
    simp only [List.mem_append, List.mem_singleton, or_and_right, exists_or, exists_eq_left,
      or_assoc]

/-- The count is the number of classes among the elements. -/
theorem count_eq_card (h : Follows calls u) :
    u.count = Nat.card (Quotient ((related calls).comap (Fin.val : Fin u.size → Nat))) := by
  have hker : (related calls).comap (Fin.val : Fin u.size → Nat) =
      Setoid.ker fun z : Fin u.size => u.root z :=
    Setoid.ext fun z w => (h.root_eq_iff z w).symm
  have hrange : Set.range (fun z : Fin u.size => u.root z) = ↑u.roots := by
    ext r
    simp only [Set.mem_range, Finset.mem_coe, mem_roots]
    constructor
    · rintro ⟨z, rfl⟩
      exact ⟨h.tallied.ranked.lt_size_root z.isLt, h.tallied.ranked.root_root z⟩
    · rintro ⟨hlt, hroot⟩
      exact ⟨⟨r, hlt⟩, hroot⟩
  rw [hker, Nat.card_congr (Setoid.quotientKerEquivRange _), hrange, h.tallied.count_eq]
  simp

end Follows

end Concolic.UnionFind
