import Concolic.Memory
import Concolic.Proofs.Term.Equality
import Concolic.Proofs.UnionFind
import Mathlib.Logic.Relation

/-!
# Sets of terms

Disjoint sets of terms stand for the terms that were registered, each at its first occurrence,
and for the least equivalence that joins the pairs that were united. Registering a term adds a
set of its own; a union joins the two sets of its terms and no others.

## Main statements

* `TermSets.Represents.insert`, `TermSets.Represents.union` — one step of building the sets.
-/

namespace Concolic

/-! ## First occurrences -/

section firsts
variable {α : Type} [BEq α]

/-- The list with the element at its end, unless one like it is there. -/
def addNew (seen : List α) (a : α) : List α := if seen.any (· == a) then seen else seen ++ [a]

/-- The elements of a list, each at its first occurrence. -/
def firsts (as : List α) : List α := as.foldl addNew []

theorem firsts_concat (as : List α) (a : α) : firsts (as ++ [a]) = addNew (firsts as) a := by
  simp [firsts]

theorem mem_of_mem_firsts {as : List α} {a : α} (h : a ∈ firsts as) : a ∈ as := by
  induction as using List.reverseRecOn with
  | nil => cases h
  | append_singleton as b ih =>
    rw [firsts_concat, addNew] at h
    split at h
    · exact List.mem_append_left _ (ih h)
    · rcases List.mem_append.mp h with h | h
      · exact List.mem_append_left _ (ih h)
      · exact List.mem_append_right _ h

/-- Every element has one like it among the first occurrences. -/
theorem exists_mem_firsts [EquivBEq α] {as : List α} {a : α} (h : a ∈ as) :
    ∃ b ∈ firsts as, (b == a) = true := by
  induction as using List.reverseRecOn with
  | nil => cases h
  | append_singleton as c ih =>
    rw [firsts_concat, addNew]
    rcases List.mem_append.mp h with h | h
    · obtain ⟨b, hb, hba⟩ := ih h
      refine ⟨b, ?_, hba⟩
      split
      · exact hb
      · exact List.mem_append_left _ hb
    · obtain rfl := List.mem_singleton.mp h
      split
      · next hany => simpa using hany
      · exact ⟨a, by simp, BEq.rfl⟩

theorem any_firsts [EquivBEq α] (as : List α) (a : α) :
    (firsts as).any (· == a) = as.any (· == a) := by
  rw [Bool.eq_iff_iff, List.any_eq_true, List.any_eq_true]
  constructor
  · rintro ⟨b, hb, hba⟩
    exact ⟨b, mem_of_mem_firsts hb, hba⟩
  · rintro ⟨b, hb, hba⟩
    obtain ⟨c, hc, hcb⟩ := exists_mem_firsts hb
    exact ⟨c, hc, BEq.trans hcb hba⟩

theorem eraseDups_concat [LawfulBEq α] (as : List α) (a : α) :
    (as ++ [a]).eraseDups = addNew as.eraseDups a := by
  have hany : as.eraseDups.any (· == a) = as.contains a := by
    rw [Bool.eq_iff_iff, List.any_beq', List.contains_iff_mem, List.contains_iff_mem,
      List.mem_eraseDups]
  rw [List.eraseDups_append, addNew, hany]
  by_cases ha : a ∈ as
  · simp [List.removeAll, ha]
  · simp [List.removeAll, ha, List.eraseDups_cons]

theorem firsts_eq_eraseDups [LawfulBEq α] (as : List α) : firsts as = as.eraseDups := by
  induction as using List.reverseRecOn with
  | nil => rfl
  | append_singleton as a ih => rw [firsts_concat, eraseDups_concat, ih]

theorem nodup_eraseDups [LawfulBEq α] (as : List α) : as.eraseDups.Nodup := by
  induction as using List.reverseRecOn with
  | nil => exact List.nodup_nil
  | append_singleton as a ih =>
    rw [eraseDups_concat, addNew]
    split
    · exact ih
    · next hany =>
      rw [← List.concat_eq_append, List.nodup_concat]
      exact ⟨fun ha => hany (List.any_eq_true.mpr ⟨a, ha, by simp⟩), ih⟩

theorem nodup_firsts [LawfulBEq α] (as : List α) : (firsts as).Nodup := by
  rw [firsts_eq_eraseDups]
  exact nodup_eraseDups as

theorem mem_firsts [LawfulBEq α] {as : List α} {a : α} : a ∈ firsts as ↔ a ∈ as := by
  rw [firsts_eq_eraseDups, List.mem_eraseDups]

/-- What is added later leaves the places of the elements. -/
theorem idxOf_foldl_addNew [LawfulBEq α] {seen : List α} {a : α} (ha : a ∈ seen) (as : List α) :
    (as.foldl addNew seen).idxOf a = seen.idxOf a := by
  induction as generalizing seen with
  | nil => rfl
  | cons b as ih =>
    rw [List.foldl_cons]
    by_cases hany : seen.any (· == b) = true
    · rw [addNew, if_pos hany, ih ha]
    · rw [addNew, if_neg hany, ih (List.mem_append_left _ ha), List.idxOf_append_of_mem ha]

/-- Some element of the one sort comes in the list before all of the other sort. -/
def ComesFirst (as : List α) (sort other : α → Prop) : Prop :=
  ∃ front, front <+: as ∧ (∃ a ∈ front, sort a) ∧ ∀ a ∈ front, ¬ other a

omit [BEq α] in
theorem comesFirst_concat {as : List α} {a : α} {sort other : α → Prop} :
    ComesFirst (as ++ [a]) sort other ↔
      ComesFirst as sort other ∨ sort a ∧ ¬ other a ∧ ∀ b ∈ as, ¬ other b := by
  constructor
  · rintro ⟨front, hfront, ⟨b, hb, hsort⟩, hother⟩
    rcases List.prefix_concat_iff.mp hfront with rfl | hfront
    · rw [List.forall_mem_append, List.forall_mem_singleton] at hother
      rcases List.mem_append.mp hb with hb | hb
      · exact .inl ⟨as, List.prefix_rfl, ⟨b, hb, hsort⟩, hother.1⟩
      · obtain rfl := List.mem_singleton.mp hb
        exact .inr ⟨hsort, hother.2, hother.1⟩
    · exact .inl ⟨front, hfront, ⟨b, hb, hsort⟩, hother⟩
  · rintro (⟨front, hfront, hsort, hother⟩ | ⟨hsort, hother, hnone⟩)
    · exact ⟨front, hfront.trans (List.prefix_append _ _), hsort, hother⟩
    · refine ⟨as ++ [a], List.prefix_rfl, ⟨a, by simp, hsort⟩, ?_⟩
      rw [List.forall_mem_append, List.forall_mem_singleton]
      exact ⟨hnone, hother⟩

/-- First occurrences come in the order of the list. -/
theorem comesFirst_firsts [EquivBEq α] {as : List α} {sort other : α → Prop}
    (hsort : ∀ a b, (a == b) = true → (sort a ↔ sort b))
    (hother : ∀ a b, (a == b) = true → (other a ↔ other b)) :
    ComesFirst (firsts as) sort other ↔ ComesFirst as sort other := by
  induction as using List.reverseRecOn with
  | nil => rfl
  | append_singleton as a ih =>
    have hnone : (∀ b ∈ firsts as, ¬ other b) ↔ ∀ b ∈ as, ¬ other b := by
      constructor
      · intro h b hb
        obtain ⟨c, hc, hcb⟩ := exists_mem_firsts hb
        exact fun hb' => h c hc ((hother c b hcb).mpr hb')
      · exact fun h b hb => h b (mem_of_mem_firsts hb)
    rw [firsts_concat, addNew, comesFirst_concat]
    split
    · next hany =>
      -- The element has one like it in the list, so it brings nothing forward.
      rw [any_firsts, List.any_eq_true] at hany
      obtain ⟨b, hb, hba⟩ := hany
      rw [ih]
      refine ⟨.inl, fun h => h.elim id ?_⟩
      rintro ⟨ha, -, hnone⟩
      exact ⟨as, List.prefix_rfl, ⟨b, hb, (hsort b a hba).mpr ha⟩, hnone⟩
    · rw [comesFirst_concat, ih, hnone]

end firsts

/-- Among the images, an image comes first when an element that has it comes first. -/
theorem comesFirst_filterMap {α β : Type} {as : List α} {image? : α → Option β} {b c : β} :
    ComesFirst (as.filterMap image?) (· = b) (· = c) ↔
      ComesFirst as (image? · = some b) (image? · = some c) := by
  induction as using List.reverseRecOn with
  | nil =>
    constructor
    · rintro ⟨front, hfront, ⟨_, hmem, -⟩, -⟩
      rw [List.prefix_nil.mp hfront] at hmem
      cases hmem
    · rintro ⟨front, hfront, ⟨_, hmem, -⟩, -⟩
      rw [List.prefix_nil.mp hfront] at hmem
      cases hmem
  | append_singleton as a ih =>
    rw [comesFirst_concat, ← ih, List.filterMap_append]
    cases ha : image? a with
    | none => simp [ha]
    | some d =>
      have hd : [a].filterMap image? = [d] := by simp [ha]
      rw [hd, comesFirst_concat]
      simp only [List.mem_filterMap, Option.some.injEq]
      refine or_congr_right (and_congr_right' (and_congr_right' ?_))
      constructor
      · exact fun h e he hc => h c ⟨e, he, hc⟩ rfl
      · rintro h _ ⟨e, he, heq⟩ rfl
        exact h e he heq

theorem comesFirst_congr {α : Type} {as : List α} {sort sort' other other' : α → Prop}
    (hsort : ∀ a ∈ as, (sort a ↔ sort' a)) (hother : ∀ a ∈ as, (other a ↔ other' a)) :
    ComesFirst as sort other ↔ ComesFirst as sort' other' := by
  unfold ComesFirst
  refine exists_congr fun front => and_congr_right fun hfront => ?_
  have hsub : ∀ a ∈ front, a ∈ as := fun a ha => hfront.subset ha
  refine and_congr ?_ ?_
  · exact exists_congr fun a => and_congr_right fun ha => hsort a (hsub a ha)
  · exact forall₂_congr fun a ha => not_congr (hother a (hsub a ha))

/-- An element has the smaller place when it comes first. -/
theorem idxOf_lt_idxOf_iff {α : Type} [BEq α] [LawfulBEq α] {as : List α} {a b : α} :
    as.idxOf a < as.idxOf b ↔ ComesFirst as (· = a) (· = b) := by
  constructor
  · intro hlt
    have hlength : as.idxOf a < as.length := hlt.trans_le List.idxOf_le_length
    refine ⟨as.take (as.idxOf a + 1), List.take_prefix _ _, ⟨a, ?_, rfl⟩, ?_⟩
    · rw [List.mem_take_iff_idxOf_lt (List.idxOf_lt_length_iff.mp hlength)]
      omega
    · intro c hc heq
      subst heq
      rw [List.mem_take_iff_idxOf_lt (List.mem_of_mem_take hc)] at hc
      omega
  · rintro ⟨front, ⟨rest, rfl⟩, ⟨c, hc, rfl⟩, hother⟩
    have hb : b ∉ front := fun hb => hother b hb rfl
    rw [List.idxOf_append_of_mem hc, List.idxOf_append_of_notMem hb]
    have := List.idxOf_lt_length_of_mem hc
    omega

/-! ## What pairs join -/

namespace TermSets

/-- The least equivalence that joins the pairs, up to equality of terms. -/
def Joined (pairs : List (Term × Term)) : Term → Term → Prop :=
  Relation.EqvGen fun a b => (a == b) = true ∨ (a, b) ∈ pairs

namespace Joined

variable {pairs : List (Term × Term)} {a b x y : Term}

theorem of_beq (h : (a == b) = true) : Joined pairs a b := .rel _ _ (.inl h)

theorem symm (h : Joined pairs a b) : Joined pairs b a := Relation.EqvGen.symm _ _ h

theorem trans (h : Joined pairs a b) (h' : Joined pairs b x) : Joined pairs a x :=
  Relation.EqvGen.trans _ _ _ h h'

theorem mono {more : List (Term × Term)} (hsub : pairs ⊆ more) (h : Joined pairs a b) :
    Joined more a b := by
  have hstep (u v : Term) (huv : (u == v) = true ∨ (u, v) ∈ pairs) :
      (u == v) = true ∨ (u, v) ∈ more := huv.imp_right fun hmem => hsub hmem
  exact Relation.EqvGen.mono hstep _ _ h

/-- What is in no pair is joined to what equals it only. -/
theorem beq_of_unpaired (h : Joined pairs a b)
    (ha : ∀ pair ∈ pairs, (pair.1 == a) = false ∧ (pair.2 == a) = false) : (a == b) = true := by
  -- The equality carries over every step in either direction.
  have hsame : ∀ {c d : Term}, Joined pairs c d → ((a == c) = true ↔ (a == d) = true) := by
    intro c d hcd
    induction hcd with
    | rel c d hcd =>
      rcases hcd with hcd | hmem
      · rw [BEq.congr_right hcd]
      · have hc := (ha _ hmem).1
        have hd := (ha _ hmem).2
        rw [BEq.comm] at hc hd
        simp_all
    | refl => rfl
    | symm _ _ _ ih => exact ih.symm
    | trans _ _ _ _ _ ih ih' => exact ih.trans ih'
  exact (hsame h).mp BEq.rfl

/-- One more pair joins what was joined to either side of it. -/
theorem concat_iff {p q : Term} : Joined (pairs ++ [(x, y)]) p q ↔
    Joined pairs p q ∨ (Joined pairs p x ∨ Joined pairs p y) ∧
      (Joined pairs q x ∨ Joined pairs q y) := by
  have hstep (a b : Term) : (a == b) = true ∨ (a, b) ∈ pairs ++ [(x, y)] ↔
      ((a == b) = true ∨ (a, b) ∈ pairs) ∨ a = x ∧ b = y := by
    simp [or_assoc]
  simp only [Joined, hstep]
  exact eqvGen_or_pair_iff

end Joined

/-! ## Registering and uniting -/

/-- The sets hold the terms at their first occurrences, and two terms are in one set when the
pairs join them. -/
structure Represents (c : TermSets) (ts : List Term) (pairs : List (Term × Term)) : Prop where
  terms_eq : c.terms = firsts ts
  ranked : c.sets.Ranked
  size_eq : c.sets.size = c.terms.length
  registered : ∀ pair ∈ pairs, pair.1 ∈ ts ∧ pair.2 ∈ ts
  root_eq_iff : ∀ a b n m, c.number? a = some n → c.number? b = some m →
    (c.sets.root n = c.sets.root m ↔ Joined pairs a b)

variable {c : TermSets} {ts : List Term} {pairs : List (Term × Term)} {a b t : Term} {n : Nat}

theorem number?_congr (c : TermSets) (h : (a == b) = true) : c.number? a = c.number? b := by
  unfold number?
  congr 1
  funext u
  exact BEq.congr_right h

theorem number?_isSome (c : TermSets) (t : Term) :
    (c.number? t).isSome = c.terms.any (· == t) := List.findIdx?_isSome

theorem lt_of_number? (h : c.number? t = some n) : n < c.terms.length :=
  (List.findIdx?_eq_some_iff_getElem.mp h).1

theorem insert_of_number? (h : c.number? t = some n) : c.insert t = (n, c) := by
  simp [insert, h]

theorem insert_of_none (h : c.number? t = none) :
    c.insert t = (c.terms.length, ⟨c.terms ++ [t], c.sets.insert c.terms.length⟩) := by
  simp [insert, h]

/-- A term that is registered has the number that it is given. -/
theorem number?_insert (c : TermSets) (t : Term) :
    (c.insert t).2.number? t = some (c.insert t).1 := by
  cases h : c.number? t with
  | some n => rw [insert_of_number? h, h]
  | none =>
    rw [insert_of_none h]
    unfold number? at h ⊢
    simp [List.findIdx?_append, h]

theorem number?_insert_of_some (h : c.number? a = some n) (t : Term) :
    (c.insert t).2.number? a = some n := by
  cases ht : c.number? t with
  | some m => rwa [insert_of_number? ht]
  | none =>
    rw [insert_of_none ht]
    unfold number? at h ⊢
    simp [List.findIdx?_append, h]

/-- Numbers behind a registration are those before it, and that of the new term. -/
theorem number?_insert_cases (h : (c.insert t).2.number? a = some n) :
    c.number? a = some n ∨
      c.number? t = none ∧ c.number? a = none ∧ n = c.terms.length ∧ (t == a) = true := by
  cases ht : c.number? t with
  | some m =>
    rw [insert_of_number? ht] at h
    exact .inl h
  | none =>
    rw [insert_of_none ht] at h
    unfold number? at h ⊢
    rw [List.findIdx?_append, Option.or_eq_some_iff] at h
    rcases h with h | ⟨hnone, h⟩
    · exact .inl h
    · refine .inr ⟨rfl, hnone, ?_⟩
      rw [List.findIdx?_singleton] at h
      split at h
      · next heq => exact ⟨by simpa using h.symm, heq⟩
      · cases h

namespace Represents

theorem nil : Represents {} [] [] where
  terms_eq := rfl
  ranked := ⟨rfl, fun x hx => absurd hx (Nat.not_lt_zero x), fun x hx => absurd rfl hx⟩
  size_eq := rfl
  registered := by simp
  root_eq_iff a b n m ha := by cases ha

theorem insert (h : c.Represents ts pairs) (t : Term) :
    (c.insert t).2.Represents (ts ++ [t]) pairs := by
  have hregistered : ∀ pair ∈ pairs, pair.1 ∈ ts ++ [t] ∧ pair.2 ∈ ts ++ [t] := fun pair hpair =>
    (h.registered pair hpair).imp (List.mem_append_left _) (List.mem_append_left _)
  have hterms : (c.insert t).2.terms = addNew c.terms t := by
    unfold addNew
    rw [← number?_isSome]
    cases ht : c.number? t with
    | some n => rw [insert_of_number? ht]; rfl
    | none => rw [insert_of_none ht]; rfl
  have hterms_eq : (c.insert t).2.terms = firsts (ts ++ [t]) := by
    rw [firsts_concat, ← h.terms_eq, hterms]
  cases ht : c.number? t with
  | some n =>
    rw [insert_of_number? ht] at hterms_eq ⊢
    exact ⟨hterms_eq, h.ranked, h.size_eq, hregistered, h.root_eq_iff⟩
  | none =>
    have hroot (n : Nat) : (c.insert t).2.sets.root n = c.sets.root n := by
      rw [insert_of_none ht]
      exact h.ranked.root_insert _ _
    have hself : c.sets.root c.terms.length = c.terms.length := by
      rw [← h.size_eq]
      exact UnionFind.root_of_size_le (Nat.le_refl _)
    have hold {u : Term} {n : Nat} (hu : c.number? u = some n) :
        c.sets.root n ≠ c.terms.length := by
      have hlt := h.ranked.lt_size_root (h.size_eq ▸ lt_of_number? hu)
      rw [h.size_eq] at hlt
      exact Nat.ne_of_lt hlt
    -- The new term is in no pair, so it is joined to nothing that was registered before.
    have hapart {u v : Term} {n : Nat} (hu : (t == u) = true) (hv : c.number? v = some n) :
        ¬ Joined pairs u v := by
      intro hjoined
      have hnew : ∀ w ∈ ts, (w == u) = false := by
        intro w hw
        have hany : ts.any (· == t) = false := by
          rw [← any_firsts, ← h.terms_eq, ← number?_isSome, ht]
          rfl
        rw [← BEq.congr_right hu]
        simpa using List.any_eq_false.mp hany w hw
      have hbeq := hjoined.beq_of_unpaired fun pair hpair =>
        ⟨hnew _ (h.registered pair hpair).1, hnew _ (h.registered pair hpair).2⟩
      have hsame := number?_congr c (BEq.trans hu hbeq)
      rw [ht, hv] at hsame
      cases hsame
    refine ⟨hterms_eq, ?_, ?_, hregistered, fun a b n m ha hb => ?_⟩
    · rw [insert_of_none ht]
      exact h.ranked.insert _
    · rw [insert_of_none ht]
      simp [UnionFind.size_insert, h.size_eq]
    · rw [hroot, hroot]
      rcases number?_insert_cases ha with ha | ⟨-, -, rfl, hta⟩
      · rcases number?_insert_cases hb with hb | ⟨-, -, rfl, htb⟩
        · exact h.root_eq_iff a b n m ha hb
        · rw [hself]
          exact iff_of_false (hold ha) fun hjoined => hapart htb ha hjoined.symm
      · rcases number?_insert_cases hb with hb | ⟨-, -, rfl, htb⟩
        · rw [hself]
          exact iff_of_false (hold hb).symm (hapart hta hb)
        · exact iff_of_true rfl (.of_beq (BEq.trans (BEq.symm hta) htb))

theorem union (h : c.Represents ts pairs) (a b : Term) :
    (c.union a b).Represents (ts ++ [a] ++ [b]) (pairs ++ [(a, b)]) := by
  have hboth := (h.insert a).insert b
  have ha : ((c.insert a).2.insert b).2.number? a = some (c.insert a).1 :=
    number?_insert_of_some (number?_insert c a) b
  have hb : ((c.insert a).2.insert b).2.number? b = some ((c.insert a).2.insert b).1 :=
    number?_insert _ b
  have hunion : c.union a b = { ((c.insert a).2.insert b).2 with
      sets := (((c.insert a).2.insert b).2.sets.union (c.insert a).1
        ((c.insert a).2.insert b).1).2 } := rfl
  rw [hunion]
  generalize ((c.insert a).2.insert b).2 = d at hboth ha hb ⊢
  generalize (c.insert a).1 = x at ha ⊢
  generalize ((c.insert a).2.insert b).1 = y at hb ⊢
  have hmerges := hboth.ranked.merges_union x y
  have hx := lt_of_number? ha
  have hy := lt_of_number? hb
  refine ⟨hboth.terms_eq, hmerges.ranked, ?_, ?_, ?_⟩
  · have hsize := hmerges.size_eq
    have hd := hboth.size_eq
    change (d.sets.union x y).2.size = d.terms.length
    omega
  · intro pair hpair
    rcases List.mem_append.mp hpair with hpair | hpair
    · exact hboth.registered pair hpair
    · obtain rfl := List.mem_singleton.mp hpair
      simp
  · intro p q n m hp hq
    have hp : d.number? p = some n := hp
    have hq : d.number? q = some m := hq
    rw [Joined.concat_iff, ← hboth.root_eq_iff p q n m hp hq, ← hboth.root_eq_iff p a n x hp ha,
      ← hboth.root_eq_iff p b n y hp hb, ← hboth.root_eq_iff q a m x hq ha,
      ← hboth.root_eq_iff q b m y hq hb]
    exact hmerges.root_eq_iff

theorem unions (h : c.Represents ts pairs) (more : List (Term × Term)) :
    (more.foldl (fun c pair => c.union pair.1 pair.2) c).Represents
      (ts ++ more.flatMap fun pair => [pair.1, pair.2]) (pairs ++ more) := by
  induction more generalizing c ts pairs with
  | nil => simpa using h
  | cons pair more ih =>
    have hmore := ih (h.union pair.1 pair.2)
    simpa [List.append_assoc] using hmore

end Represents

end TermSets
end Concolic
