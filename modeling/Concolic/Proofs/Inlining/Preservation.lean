import Concolic.Proofs.Inlining.Expansion
import Concolic.Proofs.Inlining.Walk

/-!
# What becomes of a state asks for the same

What becomes of a state in a round can be satisfied with values for the names made in the round just
when the state is satisfied.

## Main statements

* `State.Expands.chain` — what follows does not disturb what was chosen in front of it.
* `Inlining.Becomes.expands` — what becomes of a state.
-/

namespace Concolic

open Inlining

/-! ## Laws of expansion -/

namespace State.Expands

variable {V : Type} {S : Setting} {I : Interpretation V} {W : Vocabulary}
  {next used next' used' next'' used'' : Nat} {s s' t t' : SymbolicState}
  {alternatives alternatives' : List SymbolicState}

theorem refl (h : ∀ p, s.Occurs p → p.Fits S W (IsOlder next used)) :
    Expands S I W next used next used s s :=
  ⟨le_rfl, le_rfl, h, fun _ hsat => hsat, fun e hsat => ⟨e, fun _ _ _ => rfl, hsat⟩⟩

/-- Only the order of the parts and what they are counts. -/
theorem congr (h : Expands S I W next used next' used' s' s)
    (hoccurs : ∀ p, t'.Occurs p → s'.Occurs p)
    (hleft : ∀ holds : Predicate → Prop, t'.SatisfiedBy holds ↔ s'.SatisfiedBy holds)
    (hright : ∀ holds : Predicate → Prop, t.SatisfiedBy holds ↔ s.SatisfiedBy holds) :
    Expands S I W next used next' used' t' t where
  next_le := h.next_le
  used_le := h.used_le
  fits p hp := h.fits p (hoccurs p hp)
  sound e hsat := (hright _).mpr (h.sound e ((hleft _).mp hsat))
  attains e hsat := by
    obtain ⟨e', hagrees, hsat'⟩ := h.attains e ((hright _).mp hsat)
    exact ⟨e', hagrees, (hleft _).mpr hsat'⟩

theorem trans (h : Expands S I W next used next' used' t s)
    (k : Expands S I W next' used' next'' used'' s' t) :
    Expands S I W next used next'' used'' s' s where
  next_le := h.next_le.trans k.next_le
  used_le := h.used_le.trans k.used_le
  fits := k.fits
  sound e hsat := h.sound e (k.sound e hsat)
  attains e hsat := by
    obtain ⟨e₁, hagrees₁, hsat₁⟩ := h.attains e hsat
    obtain ⟨e₂, hagrees₂, hsat₂⟩ := k.attains e₁ hsat₁
    exact ⟨e₂, (hagrees₂.mono fun _ hname => hname.mono h.next_le h.used_le).trans hagrees₁, hsat₂⟩

/-- Names may be made before and behind. -/
theorem widen (h : Expands S I W next used next' used' s' s) {first given last taken : Nat}
    (hfirst : first ≤ next) (hgiven : given ≤ used) (hlast : next' ≤ last)
    (htaken : used' ≤ taken) :
    Expands S I W first given last taken s' s where
  next_le := hfirst.trans (h.next_le.trans hlast)
  used_le := hgiven.trans (h.used_le.trans htaken)
  fits p hp := (h.fits p hp).mono fun _ hname => hname.mono hlast htaken
  sound := h.sound
  attains e hsat := by
    obtain ⟨e', hagrees, hsat'⟩ := h.attains e hsat
    exact ⟨e', hagrees.mono fun _ hname => hname.mono hfirst hgiven, hsat'⟩

/-- What follows is satisfied by what was chosen for the names made in front of it, as it does not
mention them. -/
theorem chain (hs : Expands S I W next used next' used' s' s)
    (ht : Expands S I W next' used' next'' used'' t' t)
    (hfits : ∀ p, t.Occurs p → p.Fits S W (IsOlder next used)) :
    Expands S I W next used next'' used'' (.chain s' t') (.chain s t) where
  next_le := hs.next_le.trans ht.next_le
  used_le := hs.used_le.trans ht.used_le
  fits p hp := by
    cases hp with
    | first hp => exact (hs.fits p hp).mono fun _ hname => hname.mono ht.next_le ht.used_le
    | second hp => exact ht.fits p hp
  sound e hsat := by
    rw [satisfiedBy_chain] at hsat ⊢
    exact ⟨hs.sound e hsat.1, ht.sound e hsat.2⟩
  attains e hsat := by
    rw [satisfiedBy_chain] at hsat
    obtain ⟨e₁, hagrees₁, hsat₁⟩ := hs.attains e hsat.1
    have hsecond : t.SatisfiedBy (I.Holds e₁) := (satisfiedBy_congr fun p hp =>
      I.holds_congr (hfits p hp).isOver hagrees₁.over).mpr hsat.2
    obtain ⟨e₂, hagrees₂, hsat₂⟩ := ht.attains e₁ hsecond
    have hfirst : s'.SatisfiedBy (I.Holds e₂) := (satisfiedBy_congr fun p hp =>
      I.holds_congr (hs.fits p hp).isOver hagrees₂.over).mpr hsat₁
    exact ⟨e₂, (hagrees₂.mono fun _ hname => hname.mono hs.next_le hs.used_le).trans hagrees₁,
      satisfiedBy_chain.mpr ⟨hfirst, hsat₂⟩⟩

theorem choice (hnext : next ≤ next') (hused : used ≤ used')
    (h : List.Forall₂ (Expands S I W next used next' used') alternatives' alternatives) :
    Expands S I W next used next' used' (.choice alternatives') (.choice alternatives) where
  next_le := hnext
  used_le := hused
  fits p hp := by
    cases hp with
    | choice hmem hp =>
      obtain ⟨s, -, hs⟩ := exists_of_forall₂ h _ hmem
      exact hs.fits p hp
  sound e := satisfiedBy_choice_imp (h.imp fun _ _ hs => hs.sound e)
  attains e hsat := by
    rcases satisfiedBy_choice.mp hsat with hnil | ⟨s, hmem, hsat⟩
    · subst hnil
      obtain rfl := List.forall₂_nil_right_iff.mp h
      exact ⟨e, fun _ _ _ => rfl, satisfiedBy_choice.mpr (.inl rfl)⟩
    · have hflip : List.Forall₂ (fun s s' => Expands S I W next used next' used' s' s)
          alternatives alternatives' := h.flip
      obtain ⟨s', hmem', hs⟩ := exists_of_forall₂ hflip s hmem
      obtain ⟨e', hagrees, hsat'⟩ := hs.attains e hsat
      exact ⟨e', hagrees, satisfiedBy_choice.mpr (.inr ⟨s', hmem', hsat'⟩)⟩

theorem simplify (h : Expands S I W next used next' used' s' s) :
    Expands S I W next used next' used' s'.simplify s := by
  have hsat (e : Environment V) :
      s'.simplify.SatisfiedBy (I.Holds e) ↔ s'.SatisfiedBy (I.Holds e) :=
    satisfiedBy_simplify fun p q hp hq hpq =>
      I.holds_of_beq (h.fits p hp).isOver (h.fits q hq).isOver hpq
  refine ⟨h.next_le, h.used_le, fun p hp => h.fits p (occurs_of_simplify hp),
    fun e hs => h.sound e ((hsat e).mp hs), fun e hs => ?_⟩
  obtain ⟨e', hagrees, hs'⟩ := h.attains e hs
  exact ⟨e', hagrees, (hsat e').mpr hs'⟩

end State.Expands

/-! ## Predicates that fit -/

mutual

theorem Term.isFirstOrder_of_isOver {W : Vocabulary} {N : String → Prop} :
    ∀ {t : Term}, t.IsOver W N → t.isFirstOrder = true
  | .leaf _ _, _ => by rw [isFirstOrder]
  | .unary _ _ _, h => by rw [isFirstOrder, isFirstOrder_of_isOver h.2]
  | .binary _ _ _ _, h => by
    rw [isFirstOrder, isFirstOrder_of_isOver h.1, isFirstOrder_of_isOver h.2, Bool.and_self]
  | .ternary _ _ _ _ _, h => by
    rw [isFirstOrder, isFirstOrder_of_isOver h.1, isFirstOrder_of_isOver h.2.1,
      isFirstOrder_of_isOver h.2.2, Bool.and_self, Bool.and_self]
  | .call _ _ _ _, h => by
    rw [isFirstOrder, isFirstOrder_of_isOver h.2.1, areFirstOrder_of_areOver h.2.2, Bool.and_self]
  | .lambda _ _ _, h => h.elim

theorem Term.areFirstOrder_of_areOver {W : Vocabulary} {N : String → Prop} :
    ∀ {ts : List Term}, Term.AreOver W N ts → Term.areFirstOrder ts = true
  | [], _ => by rw [areFirstOrder]
  | _ :: _, h => by
    rw [areFirstOrder, isFirstOrder_of_isOver h.1, areFirstOrder_of_areOver h.2, Bool.and_self]

end

/-- What fits a vocabulary is ordinary. -/
theorem Clause.Fits.isOrdinary {p : Predicate} {S : Setting} {W : Vocabulary} {N : String → Prop}
    (h : p.Fits S W N) : p.IsOrdinary :=
  ⟨h.isProper, Term.areFirstOrder_of_areOver h.isOver⟩

/-! ## What becomes of predicates and states -/

namespace Inlining

variable {V : Type} {S : Setting} {I : Interpretation V} {W : Vocabulary} {round round' : Round}
  {names names' : NameSupply} {s s' : SymbolicState}

/-- A predicate is kept, or gives way to a state that can be satisfied just when the predicate
holds. -/
theorem Yields.expands (hfaithful : IsFaithful S I)
    (hbodies : ∀ method info body, S.Inlines method info body →
      ∀ p, body.Occurs p → p.Fits S W IsPlain)
    {p : Predicate} (h : Yields S p round names s' round' names')
    (hp : p.Fits S W (IsOlder round.next names.used)) :
    (S.IsReadable → round'.failure = round.failure) ∧
      State.Expands S I W round.next names.used round'.next names'.used s' (.basic [p]) := by
  have hkept : State.Expands S I W round.next names.used round.next names.used
      (.basic [p]) (.basic [p]) := .refl fun q hq => State.occurs_singleton.mp hq ▸ hp
  cases h with
  | kept => exact ⟨fun _ => rfl, hkept⟩
  | refused hcalls hrefuses =>
    exact ⟨fun hreadable => absurd hrefuses (hreadable.not_refuses _ _), hkept⟩
  | inlined hcall hinlines hrun =>
    obtain ⟨used⟩ := names
    obtain ⟨_, _, used', hrun', hexpands⟩ :=
      expansion_expands hfaithful hinlines (hbodies _ _ _ hinlines) hcall hp
    obtain ⟨heq, rfl⟩ := Prod.mk.inj (hrun.symm.trans hrun')
    obtain ⟨rfl, rfl⟩ := Prod.mk.inj heq
    exact ⟨fun _ => rfl, hexpands⟩

mutual

/-- What becomes of a state can be satisfied with values for the new names just when the state is
satisfied, and no failure is met where all bodies can be read. -/
theorem Becomes.expands (hfaithful : IsFaithful S I)
    (hbodies : ∀ method info body, S.Inlines method info body →
      ∀ p, body.Occurs p → p.Fits S W IsPlain) :
    ∀ {s s' : SymbolicState} {round round' : Round} {names names' : NameSupply},
      Becomes S s round names s' round' names' →
      (∀ p, s.Occurs p → p.Fits S W (IsOlder round.next names.used)) →
      (S.IsReadable → round'.failure = round.failure) ∧
        State.Expands S I W round.next names.used round'.next names'.used s' s
  | _, _, _, _, _, _, .nil, hfits => ⟨fun _ => rfl, .refl hfits⟩
  | .basic (p :: parts), _, _, _, _, _, .cons hyields hrest, hfits => by
    obtain ⟨hfailure, hexpands⟩ :=
      hyields.expands hfaithful hbodies (hfits p (.basic (List.mem_cons_self ..)))
    have hparts (q : Predicate) (hq : (State.basic parts).Occurs q) :
        (State.basic (p :: parts)).Occurs q :=
      .basic (List.mem_cons_of_mem _ (State.occurs_basic.mp hq))
    obtain ⟨hfailureRest, hexpandsRest⟩ := hrest.expands hfaithful hbodies fun q hq =>
      (hfits q (hparts q hq)).mono fun _ hname => hname.mono hexpands.next_le hexpands.used_le
    exact ⟨fun h => (hfailureRest h).trans (hfailure h),
      (hexpands.chain hexpandsRest fun q hq => hfits q (hparts q hq)).congr (fun _ h => h)
        (fun _ => Iff.rfl) fun _ => by simp⟩
  | _, _, _, _, _, _, .chain hs ht, hfits => by
    obtain ⟨hfailure, hexpands⟩ := hs.expands hfaithful hbodies fun p hp => hfits p (.first hp)
    obtain ⟨hfailuret, hexpandst⟩ := ht.expands hfaithful hbodies fun p hp =>
      (hfits p (.second hp)).mono fun _ hname => hname.mono hexpands.next_le hexpands.used_le
    exact ⟨fun h => (hfailuret h).trans (hfailure h),
      hexpands.chain hexpandst fun p hp => hfits p (.second hp)⟩
  | _, _, _, _, _, _, .choice hall, hfits => by
    obtain ⟨hfailure, hnext, hused, hexpands⟩ := hall.expands hfaithful hbodies
      fun s hs p hp => hfits p (.choice hs hp)
    exact ⟨hfailure, .choice hnext hused hexpands⟩
  | _, _, _, _, _, _, .regroup hs hregroups, hfits => by
    obtain ⟨hfailure, hexpands⟩ := hs.expands hfaithful hbodies hfits
    exact ⟨hfailure, hexpands.congr hregroups.occurs hregroups.satisfiedBy fun _ => Iff.rfl⟩

theorem BecomeAll.expands (hfaithful : IsFaithful S I)
    (hbodies : ∀ method info body, S.Inlines method info body →
      ∀ p, body.Occurs p → p.Fits S W IsPlain) :
    ∀ {alternatives alternatives' : List SymbolicState} {round round' : Round}
      {names names' : NameSupply},
      BecomeAll S alternatives round names alternatives' round' names' →
      (∀ s ∈ alternatives, ∀ p, s.Occurs p → p.Fits S W (IsOlder round.next names.used)) →
      (S.IsReadable → round'.failure = round.failure) ∧
        round.next ≤ round'.next ∧ names.used ≤ names'.used ∧
        List.Forall₂ (State.Expands S I W round.next names.used round'.next names'.used)
          alternatives' alternatives
  | _, _, _, _, _, _, .nil, _ => ⟨fun _ => rfl, le_rfl, le_rfl, .nil⟩
  | _, _, _, _, _, _, .cons hs hrest, hfits => by
    rw [List.forall_mem_cons] at hfits
    obtain ⟨hfailure, hexpands⟩ := hs.expands hfaithful hbodies hfits.1
    obtain ⟨hfailureRest, hnext, hused, hexpandsRest⟩ := hrest.expands hfaithful hbodies
      fun t ht p hp =>
        (hfits.2 t ht p hp).mono fun _ hname => hname.mono hexpands.next_le hexpands.used_le
    exact ⟨fun h => (hfailureRest h).trans (hfailure h), hexpands.next_le.trans hnext,
      hexpands.used_le.trans hused, .cons (hexpands.widen le_rfl le_rfl hnext hused)
        (hexpandsRest.imp fun _ _ h => h.widen hexpands.next_le hexpands.used_le le_rfl le_rfl)⟩

end

end Inlining
end Concolic
