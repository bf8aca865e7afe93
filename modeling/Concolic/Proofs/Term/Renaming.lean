import Concolic.Proofs.Inlining
import Concolic.Proofs.Inlining.Renaming
import Concolic.Proofs.Term.Identity
import Concolic.Proofs.Traversal

/-!
# Renaming terms

Renaming puts the image of each leaf in its place, all at once: what has been put in is not looked
at again, and the nodes above stay as they are. One thing is coarser than a substitution. A node is
left alone when its operands come out the same, and results of methods that are written alike are
the same; so a result may stay where one that is written like it was to be put.

Where nothing is mapped every named leaf becomes a value with its text and a suffix, so distinct
terms stay distinct as long as no value has the text of an argument or a result. Two suffixes
without a dot can be read off the names that carry them, so names with different suffixes never
meet.

## Main definitions

* `Payload.Spelled` — identical payloads, or results that are written alike.
* `Renaming.HasNamedKeys`, `Renaming.Spares` — what is mapped, and terms in which nothing is.

## Main statements

* `Renaming.onTerm_spelled` — renaming is the substitution of the images.
* `Renaming.onTerm_beq_iff` — renaming keeps terms apart.
* `Renaming.onTerm_ne_of_suffix` — terms renamed with different suffixes differ.
-/

namespace Concolic

/-- The same payload, but for results of methods that are written alike. -/
inductive Payload.Spelled : Payload → Payload → Prop
  | refl (p : Payload) : Spelled p p
  | result {m n : Method} : m.text = n.text → Spelled (.leaf (.result m)) (.leaf (.result n))

theorem Payload.Spelled.alike {p q : Payload} (h : p.Spelled q) : p.Alike q := by
  cases h with
  | refl => exact .refl _
  | result h => exact .result h

namespace Term

variable {t u : Term} {f : ValueType → Leaf → Term}

theorem SameTree.beq (h : t.SameTree Payload.Spelled u) : (t == u) = true :=
  beq_iff_sameTree.mpr (h.mono fun _ _ => Payload.Spelled.alike)

theorem SameTree.spelled_refl (t : Term) : t.SameTree Payload.Spelled t := by
  induction t using operands_induction with
  | step t ih => exact .node (.refl _) rfl (List.forall₂_same.mpr ih)

/-! ## Terms without functions -/

theorem isFirstOrder_of_mem_operands (ht : t.isFirstOrder = true) {a : Term}
    (ha : a ∈ t.operands) : a.isFirstOrder = true := by
  cases t with
  | leaf => cases ha
  | unary | binary | ternary =>
    simp only [isFirstOrder, Bool.and_eq_true] at ht
    simp only [operands, List.mem_cons, List.not_mem_nil, or_false] at ha
    grind
  | call type method receiver arguments =>
    rw [isFirstOrder, Bool.and_eq_true, areFirstOrder_iff] at ht
    rcases List.mem_cons.mp ha with rfl | ha
    · exact ht.1
    · exact ht.2 a ha
  | lambda => cases ht

/-- Above its leaves a term with replaced leaves is the term. -/
theorem substitute_compound (ht : t.isFirstOrder = true) (hleaf : t.isLeaf = false) :
    (t.substitute f).payload = t.payload ∧ (t.substitute f).type = t.type ∧
      (t.substitute f).operands = t.operands.map (substitute f) := by
  cases t with
  | leaf => cases hleaf
  | unary | binary | ternary => exact ⟨rfl, rfl, rfl⟩
  | call =>
    refine ⟨rfl, rfl, ?_⟩
    rw [substitute, operands, operands, substituteAll_eq_map, List.map_cons]
  | lambda => cases ht

end Term

namespace Renaming

variable {r : Renaming} {t u : Term}

/-- Only leaves that name a place are mapped. -/
def HasNamedKeys (r : Renaming) : Prop :=
  ∀ key replacement, (key, replacement) ∈ r.entries → key.isNamed = true

theorem HasNamedKeys.hasLeafKeys (hr : r.HasNamedKeys) : r.HasLeafKeys := by
  intro key replacement hentry
  have hnamed := hr key replacement hentry
  cases key with
  | leaf type l => exact ⟨type, l, rfl⟩
  | unary | binary | ternary | call | lambda => cases hnamed

/-- No leaf of the term is mapped. -/
def Spares (r : Renaming) (t : Term) : Prop :=
  ∀ type l, (Term.leaf type l).Within t → r.find? (.leaf type l) = none

/-! ## Substitution -/

/-- A named leaf that equals a term is spelled like it. -/
theorem spelled_of_named {type : ValueType} {l : Leaf} (hl : (Term.leaf type l).isNamed = true)
    (h : (Term.leaf type l == u) = true) : (Term.leaf type l).SameTree Payload.Spelled u := by
  obtain ⟨hpayload, htype, hoperands⟩ := Term.beq_iff_sameTree.mp h
  have hnil : u.operands = [] := by simpa [Term.operands] using hoperands
  refine .node ?_ htype (by rw [hnil]; exact .nil)
  generalize u.payload = p at hpayload
  change Payload.Alike (.leaf l) p at hpayload
  cases hpayload with
  | refl => exact .refl _
  | result htext => exact .result htext
  | literal => cases hl

theorem isNamed_of_find? (hr : r.HasNamedKeys) {replacement : Term}
    (h : r.find? t = some replacement) : t.isNamed = true := by
  obtain ⟨key, hentry, hsame⟩ := exists_entry h
  have hnamed := hr key replacement hentry
  obtain ⟨type, l, rfl⟩ := hr.hasLeafKeys key replacement hentry
  cases t with
  | leaf type' l' =>
    have hl : (l == l') = true := (Bool.and_eq_true_iff.mp hsame).2
    rw [Leaf.beq_iff_alike] at hl
    cases hl with
    | refl => exact Leaf.names_iff.mpr (Leaf.names_iff.mp hnamed)
    | result => rfl
    | literal => cases hnamed
  | unary | binary | ternary | call | lambda => cases hsame

/-- A leaf stays only where it is spelled like its image. -/
theorem spelled_image (hr : r.HasNamedKeys) {type : ValueType} {l : Leaf}
    (h : (Term.leaf type l == r.image type l) = true) :
    (Term.leaf type l).SameTree Payload.Spelled (r.image type l) := by
  by_cases hl : (Term.leaf type l).isNamed = true
  · exact spelled_of_named hl h
  · have hfind : r.find? (.leaf type l) = none :=
      Option.eq_none_iff_forall_ne_some.mpr fun _ hsome => hl (isNamed_of_find? hr hsome)
    rw [image, hfind, Option.getD_none, if_neg hl]
    exact .spelled_refl _

/-- So does a term, as long as it equals what is to be put in its place. -/
theorem spelled_substitute (hr : r.HasNamedKeys) (ht : t.isFirstOrder = true)
    (h : (t == t.substitute r.image) = true) :
    t.SameTree Payload.Spelled (t.substitute r.image) := by
  induction t using Term.operands_induction with
  | step t ih =>
    by_cases hleaf : t.isLeaf = true
    · cases t with
      | leaf type l => exact spelled_image hr h
      | unary | binary | ternary | call | lambda => cases hleaf
    · obtain ⟨hpayload, htype, hoperands⟩ :=
        Term.substitute_compound (f := r.image) ht (Bool.eq_false_iff.mpr hleaf)
      obtain ⟨-, -, hsame⟩ := Term.beq_iff_sameTree.mp h
      rw [hoperands, List.forall₂_map_right_iff, List.forall₂_same] at hsame
      refine .node (by rw [hpayload]; exact .refl _) htype.symm ?_
      rw [hoperands, List.forall₂_map_right_iff, List.forall₂_same]
      exact fun a ha => ih a ha (Term.isFirstOrder_of_mem_operands ht ha)
        (Term.beq_iff_sameTree.mpr (hsame a ha))

/-- What comes out for an operand may be left where the operand was, if they are the same. -/
theorem spelled_of_beq (hr : r.HasNamedKeys) (ht : t.isFirstOrder = true)
    (h : u.SameTree Payload.Spelled (t.substitute r.image)) (hsame : (u == t) = true) :
    t.SameTree Payload.Spelled (t.substitute r.image) :=
  spelled_substitute hr ht (BEq.trans (BEq.symm hsame) h.beq)

theorem spelled_of_beqAll (hr : r.HasNamedKeys) {ts us : List Term}
    (hts : Term.areFirstOrder ts = true)
    (h : List.Forall₂ (Term.SameTree Payload.Spelled) us (Term.substituteAll r.image ts))
    (hsame : (us == ts) = true) :
    List.Forall₂ (Term.SameTree Payload.Spelled) ts (Term.substituteAll r.image ts) := by
  induction ts generalizing us with
  | nil => exact .nil
  | cons t ts ih =>
    cases us with
    | nil => cases hsame
    | cons u us =>
      rw [Term.areFirstOrder, Bool.and_eq_true] at hts
      rw [List.cons_beq_cons, Bool.and_eq_true] at hsame
      rw [Term.substituteAll, List.forall₂_cons] at h
      exact .cons (spelled_of_beq hr hts.1 h.1 hsame.1) (ih hts.2 h.2 hsame.2)

mutual

/-- Renaming a term has no effects and puts the images in the place of its leaves. -/
theorem exists_spelled (hr : r.HasNamedKeys) : ∀ {t : Term}, t.isFirstOrder = true →
    ∃ t', r.rules.onTerm false t = pure t' ∧
      t'.SameTree Payload.Spelled (t.substitute r.image)
  | .leaf type l, _ => by
    rw [Rules.onTerm, around_leaf]
    exact ⟨_, rfl, .spelled_refl _⟩
  | .unary op type a, h => by
    have hfirst : a.isFirstOrder = true := h
    obtain ⟨a', ha, hspelled⟩ := exists_spelled hr hfirst
    rw [Rules.onTerm, ha, pure_bind]
    split
    · next hsame =>
      exact ⟨_, around_compound hr.hasLeafKeys rfl rfl, .node (.refl _) rfl
        (.cons (spelled_of_beq hr hfirst hspelled hsame) .nil)⟩
    · exact ⟨_, around_compound hr.hasLeafKeys rfl rfl, .node (.refl _) rfl (.cons hspelled .nil)⟩
  | .binary op type a b, h => by
    rw [Term.isFirstOrder, Bool.and_eq_true] at h
    obtain ⟨a', ha, hspelled⟩ := exists_spelled hr h.1
    obtain ⟨b', hb, hspelled'⟩ := exists_spelled hr h.2
    rw [Rules.onTerm, ha, hb, pure_bind, pure_bind]
    split
    · next hsame =>
      rw [Bool.and_eq_true] at hsame
      exact ⟨_, around_compound hr.hasLeafKeys rfl rfl, .node (.refl _) rfl
        (.cons (spelled_of_beq hr h.1 hspelled hsame.1)
          (.cons (spelled_of_beq hr h.2 hspelled' hsame.2) .nil))⟩
    · exact ⟨_, around_compound hr.hasLeafKeys rfl rfl, .node (.refl _) rfl
        (.cons hspelled (.cons hspelled' .nil))⟩
  | .ternary op type a b c, h => by
    rw [Term.isFirstOrder, Bool.and_eq_true, Bool.and_eq_true] at h
    obtain ⟨a', ha, hspelled⟩ := exists_spelled hr h.1.1
    obtain ⟨b', hb, hspelled'⟩ := exists_spelled hr h.1.2
    obtain ⟨c', hc, hspelled''⟩ := exists_spelled hr h.2
    rw [Rules.onTerm, ha, hb, hc, pure_bind, pure_bind, pure_bind]
    split
    · next hsame =>
      rw [Bool.and_eq_true, Bool.and_eq_true] at hsame
      exact ⟨_, around_compound hr.hasLeafKeys rfl rfl, .node (.refl _) rfl
        (.cons (spelled_of_beq hr h.1.1 hspelled hsame.1.1)
          (.cons (spelled_of_beq hr h.1.2 hspelled' hsame.1.2)
            (.cons (spelled_of_beq hr h.2 hspelled'' hsame.2) .nil)))⟩
    · exact ⟨_, around_compound hr.hasLeafKeys rfl rfl, .node (.refl _) rfl
        (.cons hspelled (.cons hspelled' (.cons hspelled'' .nil)))⟩
  | .call type method receiver arguments, h => by
    rw [Term.isFirstOrder, Bool.and_eq_true] at h
    obtain ⟨receiver', hreceiver, hspelled⟩ := exists_spelled hr h.1
    obtain ⟨arguments', harguments, hspelledAll⟩ := exists_spelledAll hr h.2
    rw [Rules.onTerm, hreceiver, harguments, pure_bind, pure_bind]
    split
    · next hsame =>
      rw [Bool.and_eq_true] at hsame
      exact ⟨_, around_compound hr.hasLeafKeys rfl rfl, .node (.refl _) rfl
        (.cons (spelled_of_beq hr h.1 hspelled hsame.1)
          (spelled_of_beqAll hr h.2 hspelledAll hsame.2))⟩
    · exact ⟨_, around_compound hr.hasLeafKeys rfl rfl, .node (.refl _) rfl
        (.cons hspelled hspelledAll)⟩
  | .lambda _ _ _, h => by cases h

theorem exists_spelledAll (hr : r.HasNamedKeys) : ∀ {ts : List Term},
    Term.areFirstOrder ts = true → ∃ ts', r.rules.onTerms false ts = pure ts' ∧
      List.Forall₂ (Term.SameTree Payload.Spelled) ts' (Term.substituteAll r.image ts)
  | [], _ => by
    rw [Rules.onTerms]
    exact ⟨[], rfl, .nil⟩
  | t :: ts, h => by
    rw [Term.areFirstOrder, Bool.and_eq_true] at h
    obtain ⟨t', ht, hspelled⟩ := exists_spelled hr h.1
    obtain ⟨ts', hts, hspelledAll⟩ := exists_spelledAll hr h.2
    rw [Rules.onTerms, ht, hts, pure_bind, pure_bind]
    exact ⟨_, rfl, .cons hspelled hspelledAll⟩

end

/-- Renaming is the substitution of the images, but for results that are written alike. -/
theorem onTerm_spelled (hr : r.HasNamedKeys) (ht : t.isFirstOrder = true) :
    (r.onTerm t).SameTree Payload.Spelled (t.substitute r.image) := by
  obtain ⟨t', hrun, hspelled⟩ := exists_spelled hr ht
  have heq : r.onTerm t = t' := by
    rw [onTerm, Rules.reviseTerm, hrun]
    rfl
  rwa [heq]

theorem onTerm_beq (hr : r.HasNamedKeys) (ht : t.isFirstOrder = true) :
    (r.onTerm t == t.substitute r.image) = true := (onTerm_spelled hr ht).beq

/-! ## Terms that nothing is mapped in -/

theorem image_of_find?_eq_none {type : ValueType} {l : Leaf} (h : r.find? (.leaf type l) = none) :
    r.image type l = if (Term.leaf type l).isNamed then r.suffixed (.leaf type l)
      else .leaf type l := by
  rw [image, h, Option.getD_none]

theorem isLeaf_image_of_find?_eq_none {type : ValueType} {l : Leaf}
    (h : r.find? (.leaf type l) = none) : (r.image type l).isLeaf = true := by
  rw [image_of_find?_eq_none h]
  split <;> rfl

end Renaming

/-- The name is not the text of an argument or of a result. -/
structure IsNoPlaceText (name : String) : Prop where
  not_argument (type : ValueType) (index : Nat) : name ≠ (Leaf.argument index).text type
  not_result (type : ValueType) (method : Method) : name ≠ (Leaf.result method).text type

/-- No value in the term is written like an argument or a result. -/
def Term.ShowsValues (t : Term) : Prop :=
  ∀ type name, (Term.leaf type (.value name)).Within t → IsNoPlaceText name

/-- Where values are told from arguments and results, named leaves are told apart by their texts. -/
theorem Leaf.beq_of_text_eq {a b : Leaf} {type : ValueType} (ha : a.Names) (hb : b.Names)
    (hva : ∀ name, a = .value name → IsNoPlaceText name)
    (hvb : ∀ name, b = .value name → IsNoPlaceText name) (h : a.text type = b.text type) :
    (a == b) = true := by
  cases ha with
  | argument i =>
    cases hb with
    | argument j =>
      rw [toString_inj ((String.append_right_inj _).mp h)]
      exact BEq.rfl
    | value name => exact absurd h.symm ((hvb name rfl).not_argument type i)
    | result m => exact absurd h (argument_ne_result i m type type)
  | value name =>
    cases hb with
    | argument j => exact absurd h ((hva name rfl).not_argument type j)
    | value name' =>
      obtain rfl : name = name' := h
      exact BEq.rfl
    | result m => exact absurd h ((hva name rfl).not_result type m)
  | result m =>
    cases hb with
    | argument j => exact absurd h.symm (argument_ne_result j m type type)
    | value name => exact absurd h.symm ((hvb name rfl).not_result type m)
    | result n =>
      exact Leaf.beq_iff_alike.mpr (.result ((String.append_right_inj _).mp h))

namespace Term

variable {t u : Term}

theorem leaf_beq_iff {s t : ValueType} {a b : Leaf} :
    (Term.leaf s a == .leaf t b) = true ↔ s = t ∧ (a == b) = true := by
  change (s == t && a == b) = true ↔ _
  rw [Bool.and_eq_true, beq_iff_eq]

theorem beq_iff {t u : Term} : (t == u) = true ↔ t.payload.Alike u.payload ∧ t.type = u.type ∧
    List.Forall₂ (fun a b => (a == b) = true) t.operands u.operands := by
  simp only [beq_iff_sameTree]
  exact ⟨fun ⟨hpayload, htype, hoperands⟩ => ⟨hpayload, htype, hoperands⟩,
    fun ⟨hpayload, htype, hoperands⟩ => .node hpayload htype hoperands⟩

theorem operands_of_isLeaf (ht : t.isLeaf = true) : t.operands = [] := by
  cases t with
  | leaf => rfl
  | unary | binary | ternary | call | lambda => cases ht

theorem operands_ne_nil (ht : t.isFirstOrder = true) (hleaf : t.isLeaf = false) :
    t.operands ≠ [] := by
  cases t with
  | leaf => cases hleaf
  | unary | binary | ternary | call => exact List.cons_ne_nil _ _
  | lambda => cases ht

theorem ShowsValues.operand (h : t.ShowsValues) {a : Term} (ha : a ∈ t.operands) :
    a.ShowsValues := fun type name hl => h type name (.operand ha hl)

theorem isNamed_congr {s t : ValueType} {a b : Leaf} (h : (Term.leaf s a == .leaf t b) = true) :
    (Term.leaf s a).isNamed = (Term.leaf t b).isNamed := by
  cases Leaf.beq_iff_alike.mp (leaf_beq_iff.mp h).2 with
  | refl => cases a <;> rfl
  | result | literal => rfl

/-- A term is a leaf when it has no operands. -/
theorem isLeaf_congr (ht : t.isFirstOrder = true) (hu : u.isFirstOrder = true)
    (h : t.operands.length = u.operands.length) : t.isLeaf = u.isLeaf := by
  have hiff {v : Term} (hv : v.isFirstOrder = true) : v.isLeaf = true ↔ v.operands.length = 0 := by
    constructor
    · intro hleaf
      rw [operands_of_isLeaf hleaf, List.length_nil]
    · intro hnil
      by_contra hleaf
      exact operands_ne_nil hv (Bool.eq_false_iff.mpr hleaf) (List.length_eq_zero_iff.mp hnil)
  rw [Bool.eq_iff_iff, hiff ht, hiff hu, h]

end Term

theorem forall₂_of_mem {α β : Type} {R S : α → β → Prop} {as : List α} {bs : List β}
    (h : List.Forall₂ R as bs) (himp : ∀ a ∈ as, ∀ b ∈ bs, R a b → S a b) :
    List.Forall₂ S as bs := by
  induction h with
  | nil => exact .nil
  | @cons a b _ _ hab _ ih =>
    refine .cons (himp a (List.mem_cons_self ..) b (List.mem_cons_self ..) hab) (ih ?_)
    exact fun a ha b hb => himp a (List.mem_cons_of_mem _ ha) b (List.mem_cons_of_mem _ hb)

namespace Renaming

variable {r : Renaming} {t u : Term}

theorem Spares.operand (h : r.Spares t) {a : Term} (ha : a ∈ t.operands) : r.Spares a :=
  fun type l hl => h type l (.operand ha hl)

/-- Leaves that get the suffix are told apart by their images. -/
theorem beq_of_image_beq {s s' : ValueType} {a b : Leaf} (ha : r.find? (.leaf s a) = none)
    (hb : r.find? (.leaf s' b) = none) (hva : (Term.leaf s a).ShowsValues)
    (hvb : (Term.leaf s' b).ShowsValues) (h : (r.image s a == r.image s' b) = true) :
    (Term.leaf s a == .leaf s' b) = true := by
  rw [image_of_find?_eq_none ha, image_of_find?_eq_none hb] at h
  split at h <;> split at h
  · next hna hnb =>
    obtain ⟨rfl, hname⟩ := Term.leaf_beq_iff.mp h
    have htext : a.text s = b.text s := by
      simpa [Leaf.beq_iff_signature, Leaf.signature, Term.text, Term.type] using hname
    refine Term.leaf_beq_iff.mpr ⟨rfl, Leaf.beq_of_text_eq (Leaf.names_iff.mp hna)
      (Leaf.names_iff.mp hnb) ?_ ?_ htext⟩
    · rintro name rfl
      exact hva s name .self
    · rintro name rfl
      exact hvb s name .self
  · next hnb => exact absurd (Term.isNamed_congr h).symm hnb
  · next hna _ => exact absurd (Term.isNamed_congr h) hna
  · exact h

theorem operands_substitute (ht : t.isFirstOrder = true) (hrt : r.Spares t) :
    (t.substitute r.image).operands = t.operands.map (Term.substitute r.image) := by
  by_cases hleaf : t.isLeaf = true
  · cases t with
    | leaf type l =>
      exact Term.operands_of_isLeaf (isLeaf_image_of_find?_eq_none (hrt type l .self))
    | unary | binary | ternary | call | lambda => cases hleaf
  · exact (Term.substitute_compound ht (Bool.eq_false_iff.mpr hleaf)).2.2

/-- The images keep terms apart in which nothing is mapped. -/
theorem beq_of_substitute_beq (ht : t.isFirstOrder = true) (hu : u.isFirstOrder = true)
    (hrt : r.Spares t) (hru : r.Spares u) (hvt : t.ShowsValues) (hvu : u.ShowsValues)
    (h : (t.substitute r.image == u.substitute r.image) = true) : (t == u) = true := by
  induction t using Term.operands_induction generalizing u with
  | step t ih =>
    obtain ⟨hpayload, htype, hoperands⟩ := Term.beq_iff.mp h
    rw [operands_substitute ht hrt, operands_substitute hu hru, List.forall₂_map_left_iff,
      List.forall₂_map_right_iff] at hoperands
    have hleaves := Term.isLeaf_congr ht hu hoperands.length_eq
    by_cases hleaf : t.isLeaf = true
    · cases t with
      | leaf s a =>
        cases u with
        | leaf s' b => exact beq_of_image_beq (hrt s a .self) (hru s' b .self) hvt hvu h
        | unary | binary | ternary | call | lambda => cases hleaves
      | unary | binary | ternary | call | lambda => cases hleaf
    · have hcompound : t.isLeaf = false := Bool.eq_false_iff.mpr hleaf
      obtain ⟨htp, htt, -⟩ := Term.substitute_compound (f := r.image) ht hcompound
      obtain ⟨hup, hut, -⟩ := Term.substitute_compound (f := r.image) hu (hleaves ▸ hcompound)
      rw [htp, hup] at hpayload
      rw [htt, hut] at htype
      refine Term.beq_iff.mpr ⟨hpayload, htype, forall₂_of_mem hoperands fun a ha b hb => ?_⟩
      exact ih a ha (Term.isFirstOrder_of_mem_operands ht ha)
        (Term.isFirstOrder_of_mem_operands hu hb) (hrt.operand ha) (hru.operand hb)
        (hvt.operand ha) (hvu.operand hb)

/-- Renaming keeps terms apart in which nothing is mapped. -/
theorem beq_of_onTerm_beq (hr : r.HasNamedKeys) (ht : t.isFirstOrder = true)
    (hu : u.isFirstOrder = true) (hrt : r.Spares t) (hru : r.Spares u) (hvt : t.ShowsValues)
    (hvu : u.ShowsValues) (h : (r.onTerm t == r.onTerm u) = true) : (t == u) = true :=
  beq_of_substitute_beq ht hu hrt hru hvt hvu
    (BEq.trans (BEq.symm (onTerm_beq hr ht)) (BEq.trans h (onTerm_beq hr hu)))

/-! ## Suffixes -/

/-- A suffix without a dot can be read off the names that end in it. -/
theorem suffix_eq_of_name_eq {a b s s' : String} (hs : '.' ∉ s.toList) (hs' : '.' ∉ s'.toList)
    (h : a ++ "." ++ s = b ++ "." ++ s') : s = s' := by
  have hlist := congrArg String.toList h
  simp only [String.toList_append, List.append_assoc] at hlist
  exact String.toList_inj.mp (eq_of_append_cons (c := '.') hs hs' hlist).2

/-- Numbers do not bring in a dot. -/
theorem dot_not_mem_append_toString {family : String} (hfamily : '.' ∉ family.toList) (n : Nat) :
    '.' ∉ (family ++ toString n).toList := by
  rw [String.toList_append, List.mem_append]
  rintro (h | h)
  · exact hfamily h
  · exact absurd (Literal.isDigit_of_mem_repr h) (by decide)

/-- What stands in the place of a leaf has an equal in the same place of an equal term. -/
theorem exists_within {f : ValueType → Leaf → Term} {type : ValueType} {l : Leaf}
    (hl : (Term.leaf type l).Within t) (ht : t.isFirstOrder = true)
    (h : (t.substitute f == u) = true) : ∃ v, v.Within u ∧ (f type l == v) = true := by
  induction hl generalizing u with
  | self => exact ⟨u, .self, h⟩
  | @operand b t hb _ ih =>
    have hcompound : t.isLeaf = false := by
      by_contra hleaf
      rw [Term.operands_of_isLeaf (Bool.not_eq_false _ ▸ hleaf)] at hb
      cases hb
    obtain ⟨-, -, hoperands⟩ := Term.beq_iff.mp h
    rw [(Term.substitute_compound ht hcompound).2.2, List.forall₂_map_left_iff] at hoperands
    obtain ⟨w, hw, hbw⟩ := State.exists_of_forall₂ hoperands b hb
    obtain ⟨v, hv, hlv⟩ := ih (Term.isFirstOrder_of_mem_operands ht hb) hbw
    exact ⟨v, .operand hw hv, hlv⟩
  | body => cases ht

/-- A leaf of a term with replaced leaves is one of what was put in their place. -/
theorem exists_leaf_within {f : ValueType → Leaf → Term} {type : ValueType} {l : Leaf}
    (ht : t.isFirstOrder = true) (h : (Term.leaf type l).Within (t.substitute f)) :
    ∃ s a, (Term.leaf s a).Within t ∧ (Term.leaf type l).Within (f s a) := by
  induction t using Term.operands_induction with
  | step t ih =>
    by_cases hleaf : t.isLeaf = true
    · cases t with
      | leaf s a => exact ⟨s, a, .self, h⟩
      | unary | binary | ternary | call | lambda => cases hleaf
    · obtain ⟨hpayload, -, hoperands⟩ :=
        Term.substitute_compound (f := f) ht (Bool.eq_false_iff.mpr hleaf)
      generalize hw : t.substitute f = w at h hpayload hoperands
      cases h with
      | self =>
        cases t with
        | leaf => exact absurd rfl hleaf
        | unary | binary | ternary | call | lambda => cases hpayload
      | operand hb hwithin =>
        rw [hoperands] at hb
        obtain ⟨a, ha, rfl⟩ := List.mem_map.mp hb
        obtain ⟨s, b, hbt, hlb⟩ := ih a ha (Term.isFirstOrder_of_mem_operands ht ha) hwithin
        exact ⟨s, b, .operand ha hbt, hlb⟩
      | body =>
        cases t with
        | lambda => cases ht
        | leaf | unary | binary | ternary | call => cases hpayload

theorem eq_of_value_beq {type : ValueType} {name : String}
    (h : (Term.leaf type (.value name) == u) = true) : u = .leaf type (.value name) := by
  cases u with
  | leaf type' l =>
    obtain ⟨rfl, hl⟩ := Term.leaf_beq_iff.mp h
    cases Leaf.beq_iff_alike.mp hl with
    | refl => rfl
  | unary | binary | ternary | call | lambda => cases h

theorem eq_of_within_leaf {s : ValueType} {a : Leaf} (h : u.Within (.leaf s a)) :
    u = .leaf s a := by
  cases h with
  | self => rfl
  | operand hb => cases hb

/-- Terms renamed with different suffixes differ, unless all named leaves of the first are mapped
or what is put into the second carries the suffix of the first already. -/
theorem onTerm_beq_false_of_suffix {r' : Renaming} (hr : r.HasNamedKeys) (hr' : r'.HasNamedKeys)
    (hs : '.' ∉ r.suffix.toList) (hs' : '.' ∉ r'.suffix.toList) (hne : r.suffix ≠ r'.suffix)
    (ht : t.isFirstOrder = true) (hu : u.isFirstOrder = true) {type : ValueType} {l : Leaf}
    (hl : (Term.leaf type l).Within t) (hnamed : (Term.leaf type l).isNamed = true)
    (hfree : r.find? (.leaf type l) = none)
    (himages : ∀ s a replacement, (Term.leaf s a).Within u →
      r'.find? (.leaf s a) = some replacement → ∀ s' name,
      ¬(Term.leaf s' (.value (name ++ "." ++ r.suffix))).Within replacement) :
    (r.onTerm t == r'.onTerm u) = false := by
  by_contra h
  have hsame : (t.substitute r.image == u.substitute r'.image) = true :=
    BEq.trans (BEq.symm (onTerm_beq hr ht))
      (BEq.trans (Bool.eq_true_of_not_eq_false h) (onTerm_beq hr' hu))
  obtain ⟨v, hv, hlv⟩ := exists_within hl ht hsame
  rw [image_of_find?_eq_none hfree, if_pos hnamed] at hlv
  obtain rfl := eq_of_value_beq hlv
  obtain ⟨s, a, ha, hval⟩ := exists_leaf_within hu hv
  cases hfind : r'.find? (.leaf s a) with
  | some replacement =>
    rw [image, hfind] at hval
    exact himages s a replacement ha hfind _ _ hval
  | none =>
    rw [image_of_find?_eq_none hfind] at hval
    split at hval
    · have hname : l.text type ++ "." ++ r.suffix = a.text s ++ "." ++ r'.suffix :=
        Leaf.value.inj (Term.leaf.inj (eq_of_within_leaf hval)).2
      exact hne (suffix_eq_of_name_eq hs hs' hname)
    · next hunnamed =>
      rw [← eq_of_within_leaf hval] at hunnamed
      exact hunnamed rfl

/-- **Renaming substitutes all leaves at once and captures nothing.**  With only named leaves
mapped, a term without functions becomes the term with the replacement of each mapped leaf in its
place, a value with the suffix in that of each other named leaf, and everything else as it was;
only a result may be left where one that is written like it replaces it. Different terms in which
nothing is mapped stay different if no value is written like an argument or a result. Terms renamed
for two frames, or for two inlined calls, differ if the first has a named leaf that is not mapped
and nothing that is put into the second carries the suffix of the first, as is so when nothing in
it is mapped. -/
theorem substitutes_without_capture (hr : r.HasNamedKeys) :
    (∀ t : Term, t.isFirstOrder = true →
      let renamed := t.substitute fun type l =>
        match r.find? (.leaf type l) with
        | some replacement => replacement
        | none =>
          if (Term.leaf type l).isNamed then .value type (l.text type ++ "." ++ r.suffix)
          else .leaf type l
      (r.onTerm t).SameTree Payload.Spelled renamed ∧ (r.onTerm t == renamed) = true) ∧
    (∀ t u : Term, t.isFirstOrder = true → u.isFirstOrder = true → r.Spares t → r.Spares u →
      t.ShowsValues → u.ShowsValues → (t == u) = false → (r.onTerm t == r.onTerm u) = false) ∧
    ∀ (r' : Renaming) (family : String) (m n : Nat), r'.HasNamedKeys →
      family ∈ ["frame", "inlined"] → m ≠ n →
      r.suffix = family ++ toString m → r'.suffix = family ++ toString n →
      ∀ (t u : Term) (type : ValueType) (l : Leaf), t.isFirstOrder = true →
      u.isFirstOrder = true → (Term.leaf type l).Within t → (Term.leaf type l).isNamed = true →
      r.find? (.leaf type l) = none →
      (∀ s a replacement, (Term.leaf s a).Within u → r'.find? (.leaf s a) = some replacement →
        ∀ s' name, ¬(Term.leaf s' (.value (name ++ "." ++ r.suffix))).Within replacement) →
      (r.onTerm t == r'.onTerm u) = false := by
  refine ⟨fun t ht => ?_, fun t u ht hu hrt hru hvt hvu hne => ?_, ?_⟩
  · have himage : r.image = fun type l =>
        match r.find? (.leaf type l) with
        | some replacement => replacement
        | none =>
          if (Term.leaf type l).isNamed then .value type (l.text type ++ "." ++ r.suffix)
          else .leaf type l := by
      funext type l
      rw [image]
      cases r.find? (.leaf type l) <;> rfl
    rw [← himage]
    exact ⟨onTerm_spelled hr ht, onTerm_beq hr ht⟩
  · by_contra h
    have hsame := beq_of_onTerm_beq hr ht hu hrt hru hvt hvu (Bool.eq_true_of_not_eq_false h)
    rw [hne] at hsame
    cases hsame
  · intro r' family m n hr' hfamily hmn hsuffix hsuffix' t u type l ht hu hl hnamed hfree himages
    have hdot : '.' ∉ family.toList := by
      rcases List.mem_cons.mp hfamily with rfl | hfamily
      · decide
      · rw [List.mem_singleton.mp hfamily]
        decide
    have hne : r.suffix ≠ r'.suffix := by
      rw [hsuffix, hsuffix']
      exact fun h => hmn (toString_inj ((String.append_right_inj _).mp h))
    exact onTerm_beq_false_of_suffix hr hr' (hsuffix ▸ dot_not_mem_append_toString hdot m)
      (hsuffix' ▸ dot_not_mem_append_toString hdot n) hne ht hu hl hnamed hfree himages

namespace Frames

/-- A sum of a local and an argument. -/
def sum : Term := .binary (.arithmetic .add) .int (.value .int "x") (.argument .int 0)

/-- The first frame was called with `a`. -/
def first : Renaming := ⟨"frame1", [(.argument .int 0, .value .int "a")]⟩

def second : Renaming := ⟨"frame2", []⟩

theorem hasNamedKeys_first : first.HasNamedKeys := by
  intro key replacement hentry
  rw [first, List.mem_singleton] at hentry
  rw [(Prod.mk.inj hentry).1]
  rfl

theorem hasNamedKeys_second : second.HasNamedKeys := nofun

theorem spares_second (t : Term) : second.Spares t := fun _ _ _ => rfl

theorem showsValues {name : String} (h : IsPlain name) : (Term.value .int name).ShowsValues := by
  intro type name' hvalue
  obtain ⟨-, rfl⟩ := (Term.leaf.inj (eq_of_within_leaf hvalue)).imp_right Leaf.value.inj
  exact ⟨h.not_argument, h.not_result⟩

/-- The sum in the first frame is that of its own local and what it was called with; in the second
frame it is another sum, and two locals are still two. -/
theorem sums_apart :
    first.HasNamedKeys ∧
    (first.onTerm sum ==
      .binary (.arithmetic .add) .int (.value .int "x.frame1") (.value .int "a")) = true ∧
    (first.onTerm sum == second.onTerm sum) = false ∧
    (second.onTerm (.value .int "x") == second.onTerm (.value .int "y")) = false := by
  have hx : IsPlain "x" := isPlain_of_chars (by decide) (by decide) (by decide) (by decide)
  have hy : IsPlain "y" := isPlain_of_chars (by decide) (by decide) (by decide) (by decide)
  have hlocal : (Term.value .int "x").Within sum :=
    .operand (by simp [sum, Term.operands]) .self
  refine ⟨hasNamedKeys_first, ?_, ?_, ?_⟩
  · exact ((substitutes_without_capture hasNamedKeys_first).1 sum rfl).2
  · exact (substitutes_without_capture hasNamedKeys_first).2.2 second "frame" 1 2
      hasNamedKeys_second (by decide) (by decide) rfl rfl sum sum .int (.value "x") rfl rfl hlocal
      rfl rfl nofun
  · exact (substitutes_without_capture hasNamedKeys_second).2.1 _ _ rfl rfl (spares_second _)
      (spares_second _) (showsValues hx) (showsValues hy) (by decide)

end Frames

end Renaming
end Concolic
