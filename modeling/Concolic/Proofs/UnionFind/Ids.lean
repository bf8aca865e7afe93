import Concolic.IdSets
import Concolic.Proofs.UnionFind.Partition

/-!
# Disjoint sets of ids are disjoint sets of numbers

As long as the greatest id is not asked for, every length fits into an id, and stored sets do what
sets of numbers do: no index is outside its array, both loops of a search end, and no byte
overflows. So they are the classes that the unions generate. The greatest id is another matter: to
insert it counts sets that no element is in.

## Main definitions

* `IdSets.Represents` — stored sets, and the sets of numbers that they stand for.
* `IdSets.Computes` — what stored sets answer, against the calls that have led to them.

## Main statements

* `Represents.insert`, `Represents.find`, `Represents.union`, `Represents.connected` — one call.
* `Represents.run` — any calls.
* `classes_of_ids` — the sets, the count and the ranks after any calls, and when they are wrong.
-/

namespace Concolic.IdSets

open UnionFind (Call Ranked Tallied EndsAt Follows related)

variable {s s' : IdSets} {u : UnionFind} {x y root : UInt32}

/-! ## Ids and ranks -/

theorem toNat_maxId : maxId.toNat = 2 ^ 32 - 1 := rfl

theorem toNat_lt_of_ne (h : x ≠ maxId) : x.toNat + 1 < 2 ^ 32 := by
  have hlt := x.toNat_lt
  have hne : x.toNat ≠ 2 ^ 32 - 1 := fun heq => h (UInt32.toNat_inj.mp heq)
  omega

theorem toNat_ofNat {n : Nat} (h : n < 2 ^ 32) : (UInt32.ofNat n).toNat = n := by
  rw [UInt32.toNat_ofNat']
  exact Nat.mod_eq_of_lt h

theorem size_idsFrom (first stop : UInt32) :
    (idsFrom first stop).size = stop.toNat - first.toNat := by simp [idsFrom]

theorem map_idsFrom {first stop : Nat} (hfirst : first < 2 ^ 32) (hstop : stop < 2 ^ 32) :
    (idsFrom (.ofNat first) (.ofNat stop)).map UInt32.toNat =
      (Array.range (stop - first)).map (· + first) := by
  rw [idsFrom, toNat_ofNat hfirst, toNat_ofNat hstop, Array.map_map]
  refine Array.map_congr_left fun i hi => ?_
  have hlt := Array.mem_range.mp hi
  rw [Function.comp_apply, toNat_ofNat (by omega), Nat.add_comm]

/-- Small numbers do not change when they are turned into bytes. -/
theorem ofNat_lt_ofNat_iff {m n : Nat} (hm : m < 32) (hn : n < 32) :
    UInt8.ofNat m < UInt8.ofNat n ↔ m < n := by
  rw [UInt8.lt_iff_toNat_lt, UInt8.toNat_ofNat', UInt8.toNat_ofNat']
  omega

theorem ofNat_inj {m n : Nat} (hm : m < 32) (hn : n < 32) :
    UInt8.ofNat m = UInt8.ofNat n ↔ m = n := by
  rw [← UInt8.toNat_inj, UInt8.toNat_ofNat', UInt8.toNat_ofNat']
  omega

theorem times_raise (r : Ranks) (i j : Nat) :
    (r.raise i).times j = r.times j + if i = j then 1 else 0 := by
  simp [Ranks.raise, Ranks.times, List.count_cons]

theorem times_resize (r : Ranks) (n i : Nat) :
    (r.resize n).times i = if i < n then r.times i else 0 := by
  unfold Ranks.resize Ranks.times
  split
  · next h => exact List.count_filter (by simpa using h)
  · next h => exact List.count_eq_zero.mpr fun hmem => h (by simpa using List.of_mem_filter hmem)

/-! ## Stored sets -/

/-- The stored sets are those of the numbers that the ids are. -/
structure Represents (s : IdSets) (u : UnionFind) : Prop where
  parents : s.parents.map UInt32.toNat = u.parents
  size_ranks : s.ranks.size = u.size
  times_eq : ∀ x, s.ranks.times x = u.ranks.getD x 0
  count_eq : s.count = u.count
  size_lt : u.size < 2 ^ 32

namespace Represents

theorem size_eq (h : s.Represents u) : s.size = u.size := by
  rw [UnionFind.size, ← h.parents, Array.size_map]
  rfl

/-- The parent of an element is there. -/
theorem exists_parent (h : s.Represents u) (hx : x.toNat < u.size) :
    ∃ parent, s.parents[x.toNat]? = some parent ∧
      parent.toNat = u.parents.getD x.toNat x.toNat := by
  have hlt : x.toNat < s.parents.size := hx.trans_eq h.size_eq.symm
  refine ⟨s.parents[x.toNat], Array.getElem?_eq_getElem hlt, ?_⟩
  rw [← h.parents]
  simp [Array.getD_eq_getD_getElem?, hlt]

/-- The byte of an element is its rank. -/
theorem get?_ranks (h : s.Represents u) (hx : x.toNat < u.size) :
    s.ranks.get? x.toNat = some (.ofNat (u.ranks.getD x.toNat 0)) := by
  rw [Ranks.get?, if_pos (h.size_ranks ▸ hx), h.times_eq]

theorem ofSize {n : Nat} (hn : n < 2 ^ 32) : (IdSets.ofSize n).Represents (.ofSize n) where
  parents := by
    have hmap := map_idsFrom (show 0 < 2 ^ 32 by decide) hn
    simpa [IdSets.ofSize, UnionFind.ofSize] using hmap
  size_ranks := (UnionFind.size_ofSize n).symm
  times_eq x := (UnionFind.getD_ranks_ofSize n x).symm
  count_eq := rfl
  size_lt := by rwa [UnionFind.size_ofSize]

/-- The links may change together. -/
theorem relink (h : s.Represents u) {parents : Array UInt32} {links : Array Nat}
    (hlinks : parents.map UInt32.toNat = links) (hsize : links.size = u.size) :
    Represents { s with parents } { u with parents := links } :=
  ⟨hlinks, h.size_ranks.trans hsize.symm, h.times_eq, h.count_eq, hsize.trans_lt h.size_lt⟩

theorem redirect (h : s.Represents u) (x root : UInt32) : Represents
    { s with parents := s.parents.setIfInBounds x.toNat root }
    { u with parents := u.parents.setIfInBounds x.toNat root.toNat } := by
  refine h.relink ?_ Array.size_setIfInBounds
  rw [Array.map_setIfInBounds, h.parents]

/-! ## New elements -/

theorem insert (h : s.Represents u) (hu : u.Ranked) (hx : x ≠ maxId) :
    (s.insert x).Represents (u.insert x.toNat) := by
  have hlt := toNat_lt_of_ne hx
  have hsize := h.size_eq
  have hsmall := h.size_lt
  by_cases hin : x.toNat < u.size
  · rwa [IdSets.insert, if_neg (by omega), UnionFind.insert, if_pos hin]
  have hinsert : s.insert x = ⟨s.parents ++ idsFrom (.ofNat s.size) (.ofNat (x.toNat + 1)),
      s.ranks.resize (x.toNat + 1), s.count + (x.toNat + 1 - s.size)⟩ := if_pos (by omega)
  have hinsert' : u.insert x.toNat = ⟨u.parents ++ (Array.range (x.toNat + 1 - u.size)).map
      (· + u.size), u.ranks ++ Array.replicate (x.toNat + 1 - u.size) 0,
      u.count + (x.toNat + 1 - u.size)⟩ := if_neg hin
  refine ⟨?_, ?_, fun z => ?_, ?_, ?_⟩
  · rw [hinsert, hinsert', Array.map_append, h.parents, map_idsFrom (by omega) hlt, hsize]
  · rw [hinsert, UnionFind.size_insert]
    change x.toNat + 1 = max u.size (x.toNat + 1)
    omega
  · rw [UnionFind.getD_ranks_insert, hinsert, times_resize, h.times_eq]
    split
    · rfl
    · next hz =>
      refine (UnionFind.getD_of_size_le ?_).symm
      rw [hu.size_ranks]
      change u.size ≤ z
      omega
  · rw [hinsert, hinsert', h.count_eq, hsize]
  · rw [UnionFind.size_insert]
    omega

/-! ## Searches -/

/-- The first loop of a search ends at the root. -/
theorem climb_eq (h : s.Represents u) (hu : u.Ranked) {steps : Nat} (hx : x.toNat < u.size)
    (hsteps : (u.above x.toNat).card < steps) :
    ∃ root, climb s.parents steps x = some root ∧ EndsAt u.parents root.toNat x.toNat := by
  induction steps generalizing x with
  | zero => omega
  | succ steps ih =>
    obtain ⟨parent, hget, hparent⟩ := h.exists_parent hx
    simp only [climb, hget, Option.bind_eq_bind, Option.bind_some]
    by_cases heq : parent = x
    · subst heq
      exact ⟨parent, if_pos rfl, .root hparent.symm⟩
    · have hne : u.parents.getD x.toNat x.toNat ≠ x.toNat := fun hroot =>
        heq (UInt32.toNat_inj.mp (hparent.trans hroot))
      have hfewer := hu.card_above_parent_lt hne
      have hlt := hu.parent_lt x.toNat hx
      rw [← hparent] at hfewer hlt
      obtain ⟨root, hclimb, hends⟩ := ih hlt (by omega)
      refine ⟨root, by rw [if_neg heq, hclimb], .step hne ?_⟩
      rwa [← hparent]

/-- The second loop of a search ends, with the links redirected. -/
theorem compress_eq (h : s.Represents u) (hu : u.Ranked) {steps : Nat} (hx : x.toNat < u.size)
    (hends : EndsAt u.parents root.toNat x.toNat) (hsteps : (u.above x.toNat).card < steps) :
    ∃ parents, compress root steps s.parents x = some parents ∧ parents.map UInt32.toNat =
      UnionFind.compress root.toNat steps u.parents x.toNat := by
  induction steps generalizing s u x with
  | zero => omega
  | succ steps ih =>
    obtain ⟨parent, hget, hparent⟩ := h.exists_parent hx
    simp only [compress, UnionFind.compress, hget, Option.bind_eq_bind, Option.bind_some]
    by_cases heq : parent = root
    · subst heq
      exact ⟨s.parents, if_pos rfl, by rw [if_pos hparent.symm, h.parents]⟩
    · have hne : u.parents.getD x.toNat x.toNat ≠ root.toNat := fun hroot =>
        heq (UInt32.toNat_inj.mp (hparent.trans hroot))
      rw [if_neg heq, if_neg hne, ← hparent]
      obtain ⟨hlink, hup⟩ := hends.parent hne
      have hxroot : x.toNat ≠ root.toNat := fun hroot => hlink (hroot ▸ hup.isRoot)
      have hfewer := hu.card_above_parent_lt hlink
      have hlt : u.parents.getD x.toNat x.toNat <
          (u.parents.setIfInBounds x.toNat root.toNat).size := by
        rw [Array.size_setIfInBounds]
        exact hu.parent_lt x.toNat hx
      -- redirecting changes neither the elements nor their ranks
      have hsame (z : Nat) : UnionFind.above
          { u with parents := u.parents.setIfInBounds x.toNat root.toNat } z = u.above z := by
        simp [UnionFind.above, UnionFind.size]
      have hup := hends.redirect hup
      rw [← hparent] at hfewer hlt hup
      exact ih (h.redirect x root) (hu.redirect hends hx hxroot) hlt hup (by rw [hsame]; omega)

/-- A search has a result, and it is that among the numbers. -/
theorem find (h : s.Represents u) (hu : u.Ranked) (hx : x ≠ maxId) :
    ∃ a s', s.find x = some (a, s') ∧ a.toNat = u.root x.toNat ∧
      s'.Represents (u.find x.toNat).2 := by
  have hsize := h.size_eq
  by_cases hin : x.toNat < u.size
  · have hcard := UnionFind.card_above_lt hin
    obtain ⟨root, hclimb, hends⟩ := h.climb_eq hu hin hcard
    obtain ⟨parents, hcompress, hmap⟩ := h.compress_eq hu hin hends hcard
    have hroot := hu.root_eq hends
    refine ⟨root, { s with parents }, ?_, hroot.symm, ?_⟩
    · rw [IdSets.find, if_neg (by omega), hsize, hclimb, Option.bind_eq_bind, Option.bind_some,
        hcompress]
      rfl
    · rw [UnionFind.find, if_pos hin]
      have hcompressed := hu.compress u.size (hu.endsAt_root x.toNat) hin
      rw [← hroot] at hmap
      exact h.relink hmap hcompressed.2.2
  · refine ⟨x, s.insert x, ?_, (UnionFind.root_of_size_le (by omega)).symm, ?_⟩
    · rw [IdSets.find, if_pos (by omega)]
    · rw [UnionFind.find, if_neg hin]
      exact h.insert hu hx

/-- What is connected is what is connected among the numbers. -/
theorem connected (h : s.Represents u) (hu : u.Ranked) (hx : x ≠ maxId) (hy : y ≠ maxId) :
    ∃ s', s.connected x y = some ((u.connected x.toNat y.toNat).1, s') ∧
      s'.Represents (u.connected x.toNat y.toNat).2 := by
  obtain ⟨a, s₁, hfind, ha, h₁⟩ := h.find hu hx
  obtain ⟨b, s₂, hfind', hb, h₂⟩ := h₁.find (hu.find x.toNat) hy
  refine ⟨s₂, ?_, h₂⟩
  have hanswer : (a == b) = (u.connected x.toNat y.toNat).1 := by
    rw [Bool.eq_iff_iff, hu.connected_fst, beq_iff_eq, ← UInt32.toNat_inj, ha, hb, hu.root_find]
  rw [IdSets.connected, hfind, Option.bind_eq_bind, Option.bind_some, ← hanswer]
  dsimp only
  rw [hfind']
  rfl

/-! ## Unions -/

theorem rank_lt (h : s.Represents u) (hu : u.Tallied) {z : Nat} (hz : z < u.size) :
    u.ranks.getD z 0 < 32 :=
  (Nat.pow_lt_pow_iff_right Nat.one_lt_two).mp ((hu.two_pow_le_size hz).trans_lt h.size_lt)

theorem hang (h : s.Represents u) (hx : x.toNat < u.size) (y : UInt32) :
    ∃ s', s.hang x y = some s' ∧ s'.Represents
      ⟨u.parents.setIfInBounds x.toNat y.toNat, u.ranks, u.count - 1⟩ := by
  have hlinked := h.redirect x y
  refine ⟨_, if_pos (hx.trans_eq h.size_eq.symm), hlinked.parents, hlinked.size_ranks,
    hlinked.times_eq, ?_, hlinked.size_lt⟩
  rw [h.count_eq]

theorem raise (h : s.Represents u) (hx : x.toNat < u.ranks.size) :
    Represents { s with ranks := s.ranks.raise x.toNat }
      { u with ranks := u.ranks.setIfInBounds x.toNat (u.ranks.getD x.toNat 0 + 1) } := by
  refine ⟨h.parents, h.size_ranks, fun z => ?_, h.count_eq, h.size_lt⟩
  rw [times_raise, h.times_eq, UnionFind.getD_setIfInBounds hx]
  grind

/-- A union has a result, and merges what it merges among the numbers. -/
theorem union (h : s.Represents u) (hu : u.Tallied) (hx : x ≠ maxId) (hy : y ≠ maxId) :
    ∃ a s', s.union x y = some (a, s') ∧ s'.Represents (u.union x.toNat y.toNat).2 := by
  obtain ⟨a, s₁, hfind, ha, h₁⟩ := h.find hu.ranked hx
  obtain ⟨b, s₂, hfind', hb, h₂⟩ := h₁.find (hu.find x.toNat).ranked hy
  have hv := (hu.find x.toNat).find y.toNat
  have hsize := hu.ranked.size_find_find x.toNat y.toNat
  have hroot := hu.ranked.root_find_find x.toNat y.toNat
  rw [hu.ranked.root_find] at hb
  simp only [IdSets.union, hfind, hfind', Option.bind_eq_bind, Option.bind_some]
  simp only [UnionFind.union, UnionFind.find_fst, hu.ranked.root_find, ← ha, ← hb]
  generalize ((u.find x.toNat).2.find y.toNat).2 = v at h₂ hv hsize hroot ⊢
  have hwithin {z : Nat} (hz : z < v.size) : u.root z < v.size :=
    hroot z ▸ hv.ranked.lt_size_root hz
  have hltA : a.toNat < v.size := ha ▸ hwithin (by omega)
  have hltB : b.toNat < v.size := hb ▸ hwithin (by omega)
  have hrankA := h₂.rank_lt hv hltA
  have hrankB := h₂.rank_lt hv hltB
  rw [h₂.get?_ranks hltA, h₂.get?_ranks hltB]
  by_cases heq : a = b
  · subst heq
    exact ⟨a, s₂, if_pos rfl, by rwa [if_pos rfl]⟩
  rw [if_neg heq, if_neg fun h => heq (UInt32.toNat_inj.mp h)]
  simp only [Option.bind_some, ofNat_lt_ofNat_iff hrankA hrankB, ofNat_inj hrankA hrankB]
  by_cases hlt : v.ranks.getD a.toNat 0 < v.ranks.getD b.toNat 0
  · obtain ⟨s', hhang, h'⟩ := h₂.hang hltA b
    rw [if_pos hlt, if_pos hlt, hhang]
    exact ⟨b, s', rfl, h'⟩
  · obtain ⟨s', hhang, h'⟩ := h₂.hang hltB a
    rw [if_neg hlt, if_neg hlt, hhang]
    by_cases htie : v.ranks.getD a.toNat 0 = v.ranks.getD b.toNat 0
    · simp only [if_pos htie, Option.bind_some]
      exact ⟨a, _, rfl, h'.raise (hv.ranked.lt_size_ranks hltA)⟩
    · simp only [if_neg htie, Option.bind_some]
      exact ⟨a, s', rfl, h'⟩

end Represents

/-! ## Calls -/

/-- The sets that a call leaves, if it has a result. -/
def after (s : IdSets) : Call UInt32 → Option IdSets
  | .insert x => some (s.insert x)
  | .find x => (s.find x).map Prod.snd
  | .union x y => (s.union x y).map Prod.snd
  | .connected x y => (s.connected x y).map Prod.snd

def run (calls : List (Call UInt32)) (s : IdSets) : Option IdSets := calls.foldlM after s

theorem run_concat (calls : List (Call UInt32)) (c : Call UInt32) (s : IdSets) :
    run (calls ++ [c]) s = (run calls s).bind (after · c) := by
  simp [run]

namespace Represents

theorem after (h : s.Represents u) (hu : u.Tallied) {c : Call UInt32} (hc : maxId ∉ c.elements) :
    ∃ s', s.after c = some s' ∧ s'.Represents ((c.map UInt32.toNat).after u) := by
  cases c with
  | insert x => exact ⟨_, rfl, h.insert hu.ranked (by simpa [Call.elements, eq_comm] using hc)⟩
  | find x =>
    obtain ⟨a, s', hfind, -, h'⟩ := h.find hu.ranked (by simpa [Call.elements, eq_comm] using hc)
    exact ⟨s', congrArg (Option.map Prod.snd) hfind, h'⟩
  | union x y =>
    obtain ⟨hx, hy⟩ : x ≠ maxId ∧ y ≠ maxId := by simpa [Call.elements, eq_comm] using hc
    obtain ⟨a, s', hunion, h'⟩ := h.union hu hx hy
    exact ⟨s', congrArg (Option.map Prod.snd) hunion, h'⟩
  | connected x y =>
    obtain ⟨hx, hy⟩ : x ≠ maxId ∧ y ≠ maxId := by simpa [Call.elements, eq_comm] using hc
    obtain ⟨s', hconnected, h'⟩ := h.connected hu.ranked hx hy
    exact ⟨s', congrArg (Option.map Prod.snd) hconnected, h'⟩

/-- Calls that do not ask for the greatest id have results, and leave the sets that they leave
among the numbers. -/
theorem run {n : Nat} (hn : n < 2 ^ 32) {calls : List (Call UInt32)}
    (hcalls : ∀ c ∈ calls, maxId ∉ c.elements) : ∃ s, IdSets.run calls (.ofSize n) = some s ∧
      s.Represents (UnionFind.run (calls.map (Call.map UInt32.toNat)) (.ofSize n)) := by
  induction calls using List.reverseRecOn with
  | nil => exact ⟨_, rfl, ofSize hn⟩
  | append_singleton calls c ih =>
    obtain ⟨s, hrun, h⟩ := ih fun c hc => hcalls c (List.mem_append_left _ hc)
    have hu := (Follows.run n (calls.map (Call.map UInt32.toNat))).tallied
    obtain ⟨s', hafter, h'⟩ := h.after hu (hcalls c (by simp))
    refine ⟨s', by rw [run_concat, hrun]; exact hafter, ?_⟩
    rwa [List.map_append, List.map_singleton, UnionFind.run_concat]

end Represents

/-- Numbers are related like the ids that they are. -/
theorem related_map (calls : List (Call UInt32)) (x y : UInt32) :
    related (calls.map (Call.map UInt32.toNat)) x.toNat y.toNat ↔ related calls x y := by
  constructor
  · intro h
    -- every number stands for an id, and what is united among the numbers is united among the ids
    have hle : related (calls.map (Call.map UInt32.toNat)) ≤
        (related calls).comap UInt32.ofNat := by
      refine Setoid.eqvGen_le fun a b hab => ?_
      obtain ⟨c, hc, hmap⟩ := List.mem_map.mp hab
      obtain ⟨x, y, rfl, rfl, rfl⟩ := Call.map_eq_union hmap
      rw [Setoid.comap_rel, UInt32.ofNat_toNat, UInt32.ofNat_toNat]
      exact .rel _ _ hc
    have hcomap := hle h
    rwa [Setoid.comap_rel, UInt32.ofNat_toNat, UInt32.ofNat_toNat] at hcomap
  · intro h
    induction h with
    | rel x y hc => exact .rel _ _ (List.mem_map.mpr ⟨_, hc, rfl⟩)
    | refl x => exact .refl _
    | symm x y _ ih => exact .symm _ _ ih
    | trans x y z _ _ ih ih' => exact .trans _ _ _ ih ih'

/-! ## The greatest id -/

theorem size_insert_lt (hs : s.size < 2 ^ 32) (x : UInt32) : (s.insert x).size < 2 ^ 32 := by
  unfold insert
  dsimp only
  split
  · have hstop := (UInt32.ofNat (x.toNat + 1)).toNat_lt
    have hsize : (s.parents ++ idsFrom (.ofNat s.size) (.ofNat (x.toNat + 1))).size =
        s.size + ((UInt32.ofNat (x.toNat + 1)).toNat - s.size) := by
      rw [Array.size_append, size_idsFrom, toNat_ofNat hs]
      rfl
    change (s.parents ++ idsFrom (.ofNat s.size) (.ofNat (x.toNat + 1))).size < 2 ^ 32
    omega
  · exact hs

theorem size_compress {steps : Nat} {parents parents' : Array UInt32}
    (h : compress root steps parents x = some parents') : parents'.size = parents.size := by
  induction steps generalizing parents x with
  | zero => cases h
  | succ steps ih =>
    obtain ⟨parent, -, hcompress⟩ := Option.bind_eq_some_iff.mp h
    split at hcompress
    · rw [Option.some.inj hcompress]
    · rw [ih hcompress, Array.size_setIfInBounds]

theorem size_find_lt (hs : s.size < 2 ^ 32) {a : UInt32} (h : s.find x = some (a, s')) :
    s'.size < 2 ^ 32 := by
  unfold find at h
  split at h
  · obtain ⟨-, rfl⟩ := Prod.mk.inj (Option.some.inj h)
    exact size_insert_lt hs x
  · obtain ⟨root, -, h⟩ := Option.bind_eq_some_iff.mp h
    obtain ⟨parents, hcompress, h⟩ := Option.bind_eq_some_iff.mp h
    obtain ⟨-, rfl⟩ := Prod.mk.inj (Option.some.inj h)
    exact (size_compress hcompress).trans_lt hs

theorem size_hang (h : s.hang x y = some s') : s'.size = s.size := by
  unfold hang at h
  split at h
  · obtain rfl := Option.some.inj h
    exact Array.size_setIfInBounds
  · cases h

theorem size_union_lt (hs : s.size < 2 ^ 32) {a : UInt32} (h : s.union x y = some (a, s')) :
    s'.size < 2 ^ 32 := by
  obtain ⟨⟨a, s₁⟩, hfind, h⟩ := Option.bind_eq_some_iff.mp h
  obtain ⟨⟨b, s₂⟩, hfind', h⟩ := Option.bind_eq_some_iff.mp h
  have hlt := size_find_lt (size_find_lt hs hfind) hfind'
  dsimp only at h
  split at h
  · obtain ⟨-, rfl⟩ := Prod.mk.inj (Option.some.inj h)
    exact hlt
  obtain ⟨rankA, -, h⟩ := Option.bind_eq_some_iff.mp h
  obtain ⟨rankB, -, h⟩ := Option.bind_eq_some_iff.mp h
  split at h
  · obtain ⟨s₃, hhang, h⟩ := Option.map_eq_some_iff.mp h
    obtain ⟨-, rfl⟩ := Prod.mk.inj h
    exact (size_hang hhang).trans_lt hlt
  · obtain ⟨s₃, hhang, h⟩ := Option.bind_eq_some_iff.mp h
    obtain ⟨-, rfl⟩ := Prod.mk.inj (Option.some.inj h)
    have hsize := (size_hang hhang).trans_lt hlt
    split <;> exact hsize

theorem size_connected_lt (hs : s.size < 2 ^ 32) {answer : Bool}
    (h : s.connected x y = some (answer, s')) : s'.size < 2 ^ 32 := by
  obtain ⟨⟨a, s₁⟩, hfind, h⟩ := Option.bind_eq_some_iff.mp h
  obtain ⟨⟨b, s₂⟩, hfind', h⟩ := Option.bind_eq_some_iff.mp h
  obtain ⟨-, rfl⟩ := Prod.mk.inj (Option.some.inj h)
  exact size_find_lt (size_find_lt hs hfind) hfind'

theorem size_ofSize (n : Nat) : (ofSize n).size = n % 2 ^ 32 := by
  rw [size, ofSize, size_idsFrom, UInt32.toNat_ofNat']
  rfl

/-- The greatest id is never an element. -/
theorem size_lt_of_run {n : Nat} {calls : List (Call UInt32)}
    (h : run calls (ofSize n) = some s) : s.size < 2 ^ 32 := by
  induction calls using List.reverseRecOn generalizing s with
  | nil =>
    obtain rfl := Option.some.inj h
    rw [size_ofSize]
    exact Nat.mod_lt _ (by decide)
  | append_singleton calls c ih =>
    rw [run_concat] at h
    obtain ⟨s₁, hrun, hafter⟩ := Option.bind_eq_some_iff.mp h
    have hs := ih hrun
    cases c with
    | insert x =>
      obtain rfl := Option.some.inj hafter
      exact size_insert_lt hs x
    | find x =>
      obtain ⟨⟨a, s₂⟩, hfind, rfl⟩ := Option.map_eq_some_iff.mp hafter
      exact size_find_lt hs hfind
    | union x y =>
      obtain ⟨⟨a, s₂⟩, hunion, rfl⟩ := Option.map_eq_some_iff.mp hafter
      exact size_union_lt hs hunion
    | connected x y =>
      obtain ⟨⟨a, s₂⟩, hconnected, rfl⟩ := Option.map_eq_some_iff.mp hafter
      exact size_connected_lt hs hconnected

/-- To insert the greatest id adds no element, and counts all that are missing up to it. -/
theorem insert_maxId (hs : s.size < 2 ^ 32) : (s.insert maxId).parents = s.parents ∧
    (s.insert maxId).count = s.count + (2 ^ 32 - s.size) := by
  have hinsert : s.insert maxId = ⟨s.parents ++ idsFrom (.ofNat s.size) 0,
      s.ranks.resize (2 ^ 32), s.count + (2 ^ 32 - s.size)⟩ := if_pos hs
  have hnone : idsFrom (.ofNat s.size) 0 = #[] := by
    rw [← Array.size_eq_zero_iff, size_idsFrom]
    exact Nat.zero_sub _
  rw [hinsert, hnone]
  exact ⟨Array.append_empty, rfl⟩

/-! ## What the sets answer -/

/-- The sets answer for the classes that the unions among the calls generate. -/
structure Computes (s : IdSets) (calls : List (Call UInt32)) : Prop where
  /-- A search ends, at an id of the same class. -/
  finds : ∀ x ≠ maxId, ∃ a s', s.find x = some (a, s') ∧ related calls a x
  connects : ∀ x ≠ maxId, ∀ y ≠ maxId, ∃ answer s', s.connected x y = some (answer, s') ∧
    (answer = true ↔ related calls x y)
  /-- Unions alone change what is connected. -/
  keeps : ∀ c, (∀ x y, c ≠ .union x y) → maxId ∉ c.elements → ∃ s', s.after c = some s' ∧
    ∀ z ≠ maxId, ∀ w ≠ maxId, (s'.connected z w).map Prod.fst = (s.connected z w).map Prod.fst
  count_eq : s.count = Nat.card (Quotient
    ((related calls).comap fun z : Fin s.size => UInt32.ofNat z))
  /-- The byte of an element is its rank, which is small. -/
  ranks : ∀ z < s.size, ∃ rank, s.ranks.get? z = some rank ∧ rank.toNat = s.ranks.times z ∧
    2 ^ rank.toNat ≤ s.size ∧ rank ≤ 32

/-- Sets that represent those of the numbers answer like them. -/
theorem Represents.computes {calls : List (Call UInt32)} (h : s.Represents u)
    (hu : Follows (calls.map (Call.map UInt32.toNat)) u) : s.Computes calls where
  finds x hx := by
    obtain ⟨a, s', hfind, ha, -⟩ := h.find hu.tallied.ranked hx
    refine ⟨a, s', hfind, ?_⟩
    rw [← related_map, ← hu.root_eq_iff, ha, hu.tallied.ranked.root_root]
  connects x hx y hy := by
    obtain ⟨s', hconnected, -⟩ := h.connected hu.tallied.ranked hx hy
    exact ⟨_, s', hconnected, (hu.connected_fst _ _).trans (related_map calls x y)⟩
  keeps c hc hmax := by
    obtain ⟨s', hafter, h'⟩ := h.after hu.tallied hmax
    have hranked := hu.tallied.ranked
    have hranked' := (hu.tallied.after (c.map UInt32.toNat)).ranked
    refine ⟨s', hafter, fun z hz w hw => ?_⟩
    obtain ⟨s₁, hconnected, -⟩ := h.connected hranked hz hw
    obtain ⟨s₂, hconnected', -⟩ := h'.connected hranked' hz hw
    have hroot := hranked.root_after (c := c.map UInt32.toNat) fun a b hmap => by
      obtain ⟨x, y, rfl, -, -⟩ := Call.map_eq_union hmap
      exact hc x y rfl
    rw [hconnected, hconnected', Option.map_some, Option.map_some,
      hranked.connected_congr hranked' hroot]
  count_eq := by
    have hsetoid : (related calls).comap (fun z : Fin u.size => UInt32.ofNat z) =
        (related (calls.map (Call.map UInt32.toNat))).comap (Fin.val : Fin u.size → Nat) := by
      refine Setoid.ext fun z w => ?_
      have hz := toNat_ofNat (z.isLt.trans h.size_lt)
      have hw := toNat_ofNat (w.isLt.trans h.size_lt)
      rw [Setoid.comap_rel, ← related_map, hz, hw]
      rfl
    rw [h.count_eq, hu.count_eq_card, ← hsetoid, h.size_eq]
  ranks z hz := by
    rw [h.size_eq] at hz ⊢
    have hrank := h.rank_lt hu.tallied hz
    have hget : s.ranks.get? z = some (.ofNat (s.ranks.times z)) := if_pos (h.size_ranks ▸ hz)
    have hbyte : (UInt8.ofNat (s.ranks.times z)).toNat = s.ranks.times z := by
      rw [UInt8.toNat_ofNat', h.times_eq]
      omega
    refine ⟨_, hget, hbyte, ?_, ?_⟩
    · rw [hbyte, h.times_eq]
      exact hu.tallied.two_pow_le_size hz
    · rw [UInt8.le_iff_toNat_le, hbyte, h.times_eq]
      exact hrank.le

/-- **Stored sets are the classes that the unions generate.**  There are as many elements at first
as an id can say, whatever is counted. Whatever calls there have been, the greatest id is no
element, and to insert it adds none, but counts all that are missing up to it. From fewer than
`2 ^ 32` elements on, calls that do not ask for the greatest id have results: every search ends
within the arrays, two ids are connected when the least equivalence containing the pairs united so
far relates them, no other call changes that, the count is the number of its classes among the
elements, no rank exceeds 32, and every id asked for is an element. With a call that asks for the
greatest id this is not so. -/
theorem classes_of_ids (n : Nat) (calls : List (Call UInt32)) :
    ((ofSize n).size = n % 2 ^ 32 ∧ (ofSize n).count = n) ∧
    (∀ s, run calls (ofSize n) = some s → s.size < 2 ^ 32 ∧
      (s.insert maxId).parents = s.parents ∧
      (s.insert maxId).count = s.count + (2 ^ 32 - s.size)) ∧
    (n < 2 ^ 32 → ((∃ s, run calls (ofSize n) = some s ∧ s.Computes calls ∧
      ∀ c ∈ calls, ∀ x ∈ c.elements, x.toNat < s.size) ↔ ∀ c ∈ calls, maxId ∉ c.elements)) := by
  refine ⟨⟨size_ofSize n, rfl⟩, fun s hrun => ?stored,
    fun hn => ⟨?missing, fun hcalls => ?computes⟩⟩
  case stored =>
    have hs := size_lt_of_run hrun
    exact ⟨hs, insert_maxId hs⟩
  case missing =>
    rintro ⟨s, hrun, -, helements⟩ c hc hmax
    have hlt := helements c hc maxId hmax
    have hs := size_lt_of_run hrun
    rw [toNat_maxId] at hlt
    omega
  case computes =>
    obtain ⟨s, hrun, h⟩ := Represents.run hn hcalls
    refine ⟨s, hrun, h.computes (.run n _), fun c hc x hx => ?_⟩
    rw [h.size_eq, Follows.lt_size_run]
    refine .inr ⟨c.map UInt32.toNat, List.mem_map_of_mem hc, x.toNat, ?_, Nat.le_refl _⟩
    rw [Call.elements_map]
    exact List.mem_map_of_mem hx

namespace Sharing

/-- Two pairs are united, a new element comes with a search, and a pair is asked for. -/
def calls : List (Call UInt32) := [.union 0 1, .union 1 2, .find 4, .connected 0 3]

theorem computes_sharing : 2 < 2 ^ 32 ∧ (∀ c ∈ calls, maxId ∉ c.elements) ∧
    ∃ s, run calls (ofSize 2) = some s ∧ s.Computes calls ∧
      ∀ c ∈ calls, ∀ x ∈ c.elements, x.toNat < s.size := by
  have hn : 2 < 2 ^ 32 := by decide
  have hcalls : ∀ c ∈ calls, maxId ∉ c.elements := by decide
  exact ⟨hn, hcalls, ((classes_of_ids 2 calls).2.2 hn).mpr hcalls⟩

end Sharing

/-- With the greatest id as the only one asked for, `2 ^ 32` sets are counted and there is no
element. With one element besides, it is hung below the greatest id, and the next search for it
looks for a link that is not there. -/
theorem maxId_miscounted :
    (∃ s, run [.insert maxId] (ofSize 0) = some s ∧ s.size = 0 ∧ s.count = 2 ^ 32 ∧
      s.count ≠ Nat.card (Quotient
        ((related [.insert maxId]).comap fun z : Fin s.size => UInt32.ofNat z))) ∧
    (run [.union maxId 0] (ofSize 1)).isSome ∧ run [.union maxId 0, .find 0] (ofSize 1) = none := by
  have hsize : ((ofSize 0).insert maxId).size = 0 := by decide +kernel
  have hcount : ((ofSize 0).insert maxId).count = 2 ^ 32 := by decide +kernel
  refine ⟨⟨_, rfl, hsize, hcount, ?_⟩, by decide +kernel, by decide +kernel⟩
  have hnone : IsEmpty (Fin ((ofSize 0).insert maxId).size) := by
    rw [hsize]
    infer_instance
  rw [hcount, Nat.card_of_isEmpty]
  decide

end Concolic.IdSets
