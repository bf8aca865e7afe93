import Concolic.Proofs.Memory.Spaces

/-!
# What may alias through loads

Where two names stand for one object, the loads of one of its fields through either name may read
one object again. The spaces link a load with what is stored at the very location that it reads,
and no location with that of another name. So they never separate what the links of a state join
and never join what cannot alias, but they may separate two loads whose owners share a space. They
are the classes of what may alias exactly where the state itself links such loads.

## Main statement

* `MemorySpaces.loadLaws_ofState` — what the spaces of a state say of its loads.
-/

namespace Concolic

/-- The one load reads in the one owner what the other load reads in the other. -/
inductive Term.ReadsAlike : (a load b load' : Term) → Prop
  | field (a b : Term) (type : ValueType) (name : String) :
      ReadsAlike a (.fieldLoad (.field a type name)) b (.fieldLoad (.field b type name))
  | element {a b i j : Term} : (i == j) = true →
      (Term.arraySlot a i).type = (Term.arraySlot b j).type →
      ReadsAlike a (.arrayLoad (.arraySlot a i)) b (.arrayLoad (.arraySlot b j))

namespace Term.ReadsAlike

variable {a b d e : Term}

theorem type_eq (h : ReadsAlike a d b e) : d.type = e.type := by
  cases h with
  | field => rfl
  | element _ htype => exact congrArg ValueType.loaded htype

theorem isNull_eq (h : ReadsAlike a d b e) : d.isNull = false ∧ e.isNull = false := by
  cases h with
  | field => exact ⟨rfl, rfl⟩
  | element => exact ⟨rfl, rfl⟩

theorem isReference_iff (h : ReadsAlike a d b e) : d.IsReference ↔ e.IsReference := by
  rw [Term.IsReference, Term.IsReference, h.type_eq, h.isNull_eq.1, h.isNull_eq.2]

/-- Loads of one place of one owner are the same load. -/
theorem beq_of_beq (h : ReadsAlike a d b e) (hab : (a == b) = true) : (d == e) = true := by
  cases h with
  | field => exact unary_congr (unary_congr hab)
  | @element _ i j hij htype =>
    have hslot : (Term.arraySlot a i == Term.arraySlot b j) = true := by
      change (Term.binary .arraySlot (Term.arraySlot a i).type a i ==
        Term.binary .arraySlot (Term.arraySlot b j).type b j) = true
      rw [htype]
      exact binary_congr hab hij
    unfold Term.arrayLoad
    rw [htype]
    exact unary_congr hslot

end Term.ReadsAlike

namespace State

variable {s : SymbolicState} {a b d e : Term}

/-- Two pointers of a state may stand for one object: the state links them, or they are loads of
one place of owners that may stand for one object. -/
inductive MayAlias (s : SymbolicState) : Term → Term → Prop
  | beq {a b : Term} : (a == b) = true → MayAlias s a b
  | link {a b : Term} : s.Links a b → a.IsReference → b.IsReference → MayAlias s a b
  | load {a b d e : Term} : Term.ReadsAlike a d b e → a.IsReference → MayAlias s a b →
      s.HasPointer d → s.HasTerm e → d.IsReference → MayAlias s d e
  | symm {a b : Term} : MayAlias s a b → MayAlias s b a
  | trans {a b c : Term} : MayAlias s a b → MayAlias s b c → MayAlias s a c

theorem Aliases.mayAlias (h : s.Aliases a b) : s.MayAlias a b := by
  induction h with
  | rel a b h =>
    rcases h with h | ⟨hlink, ha, hb⟩
    · exact .beq h
    · exact .link hlink ha hb
  | refl => exact .beq BEq.rfl
  | symm _ _ _ ih => exact .symm ih
  | trans _ _ _ _ _ ih ih' => exact .trans ih ih'

/-- What a pointer of a state is made of occurs in it, also where the pointer itself is only
stored to. -/
theorem HasPointer.hasTerm_of_mem_operands (h : s.HasPointer d) (ha : a ∈ d.operands) :
    s.HasTerm a := by
  cases h with
  | occurs hd _ => exact hd.of_mem_operands ha
  | stored h _ _ =>
    cases h with
    | field hp =>
      obtain rfl := List.mem_singleton.mp ha
      exact hp.hasTerm (by simp [Clause.operands, Assertion.operands])
    | element hp =>
      obtain rfl := List.mem_singleton.mp ha
      exact hp.hasTerm (by simp [Clause.operands, Assertion.operands])

theorem HasPointer.owner (h : s.HasPointer d) (hread : Term.ReadsAlike a d b e) : s.HasTerm a := by
  cases hread with
  | field _ type name =>
    have hslot : s.HasTerm (.field a type name) :=
      h.hasTerm_of_mem_operands (by simp [Term.fieldLoad, Term.operands])
    exact hslot.of_mem_operands (by simp [Term.field, Term.operands])
  | @element _ i _ _ _ =>
    have hslot : s.HasTerm (.arraySlot a i) :=
      h.hasTerm_of_mem_operands (by simp [Term.arrayLoad, Term.operands])
    exact hslot.of_mem_operands (by simp [Term.arraySlot, Term.operands])

end State

namespace MemorySpaces

variable {s : SymbolicState} {a b t : Term} {n : Nat}

/-- Loads of one place of owners in one space share a space, and so do what is stored into a place
of the one owner and what is loaded from that place of the other. -/
structure JoinsLoads (s : SymbolicState) (m : MemorySpaces) : Prop where
  loads : ∀ {a b d e : Term} {n : Nat}, Term.ReadsAlike a d b e → n ≠ nullSpace →
    m.spaceOf? a = some n → m.spaceOf? b = some n → s.HasTerm d → s.HasTerm e → d.IsReference →
    m.spaceOf? d = m.spaceOf? e
  stores : ∀ {a b d e c : Term} {n : Nat}, Term.ReadsAlike a d b e → n ≠ nullSpace →
    m.spaceOf? a = some n → m.spaceOf? b = some n → s.Stores d c → s.HasTerm e → e.IsReference →
    c.IsReference → m.spaceOf? c = m.spaceOf? e

theorem spaceOf?_congr (m : MemorySpaces) (h : (a == b) = true) :
    m.spaceOf? a = m.spaceOf? b := by
  rw [spaceOf?, spaceOf?, Term.isNull_congr h, Term.find?_congr m.spaces h]

theorem exists_spaceOf? (h : s.HasPointer t) (hnull : t.isNull = false) :
    ∃ n, n ≠ nullSpace ∧ (ofState s).spaceOf? t = some n := by
  obtain ⟨r, hr⟩ := rootOf?_of_hasPointer h hnull
  exact ⟨(roots s).idxOf r + 1, Nat.succ_ne_zero _, by rw [spaceOf?_ofState hnull, hr]; rfl⟩

theorem rootOf?_of_spaceOf? (h : (ofState s).spaceOf? t = some n) (hn : n ≠ nullSpace) :
    ∃ r, rootOf? (setsOf s) t = some r ∧ (roots s).idxOf r + 1 = n := by
  have hnull : t.isNull = false := by
    by_contra hnull
    rw [spaceOf?_null _ (by simpa using hnull)] at h
    exact hn (Option.some.inj h).symm
  rwa [spaceOf?_ofState hnull, Option.map_eq_some_iff] at h

theorem isReference_of_spaceOf? (h : (ofState s).spaceOf? t = some n) (hn : n ≠ nullSpace) :
    t.IsReference := by
  obtain ⟨r, hr, -⟩ := rootOf?_of_spaceOf? h hn
  exact isReference_of_rootOf? hr

/-- Terms of one space alias. -/
theorem aliases_of_spaceOf? (ha : (ofState s).spaceOf? a = some n)
    (hb : (ofState s).spaceOf? b = some n) (hn : n ≠ nullSpace) : s.Aliases a b := by
  obtain ⟨r, hr, hplace⟩ := rootOf?_of_spaceOf? ha hn
  obtain ⟨q, hq, rfl⟩ := rootOf?_of_spaceOf? hb hn
  apply (rootOf?_eq_iff hr hq).mp
  exact (List.idxOf_inj (mem_roots_of hr)).mp (Nat.succ.inj hplace)

theorem spaceOf?_eq_of_links (h : s.Links a b) (ha : a.IsReference) (hb : b.IsReference) :
    (ofState s).spaceOf? a = (ofState s).spaceOf? b := by
  obtain ⟨hpointerA, hpointerB⟩ := hasPointer_of_links h ha hb
  obtain ⟨r, hr⟩ := rootOf?_of_hasPointer hpointerA ha.2
  obtain ⟨q, hq⟩ := rootOf?_of_hasPointer hpointerB hb.2
  obtain rfl := (rootOf?_eq_iff hr hq).mpr (.rel _ _ (.inr ⟨h, ha, hb⟩))
  rw [spaceOf?_ofState ha.2, spaceOf?_ofState hb.2, hr, hq]

/-- Where loads are joined, whatever may alias shares a space. -/
theorem JoinsLoads.spaceOf?_eq (hjoins : JoinsLoads s (ofState s)) (h : s.MayAlias a b) :
    (ofState s).spaceOf? a = (ofState s).spaceOf? b := by
  induction h with
  | beq h => exact spaceOf?_congr _ h
  | link h ha hb => exact spaceOf?_eq_of_links h ha hb
  | symm _ ih => exact ih.symm
  | trans _ _ ih ih' => exact ih.trans ih'
  | @load a b d e hread ha _ hd he hreference ih =>
    have howner : s.HasPointer a := .occurs (hd.owner hread) ha.1
    obtain ⟨n, hn, hspace⟩ := exists_spaceOf? howner ha.2
    cases hd with
    | occurs hd _ => exact hjoins.loads hread hn hspace (ih ▸ hspace) hd he hreference
    | stored hstores _ hvalue =>
      have hvalueSpace := hjoins.stores hread hn hspace (ih ▸ hspace) hstores he
        (hread.isReference_iff.mp hreference) hvalue
      exact (spaceOf?_eq_of_links (.store hstores) hreference hvalue).trans hvalueSpace

/-- Where whatever may alias shares a space, loads are joined. -/
theorem joinsLoads_of_mayAlias (h : ∀ a b : Term, s.HasPointer a → s.HasPointer b →
    a.isNull = false → b.isNull = false → s.MayAlias a b →
      (ofState s).spaceOf? a = (ofState s).spaceOf? b) : JoinsLoads s (ofState s) := by
  have hreads {a b d e : Term} {n : Nat} (hread : Term.ReadsAlike a d b e) (hn : n ≠ nullSpace)
      (ha : (ofState s).spaceOf? a = some n) (hb : (ofState s).spaceOf? b = some n)
      (hd : s.HasPointer d) (he : s.HasTerm e) (hreference : d.IsReference) :
      (ofState s).spaceOf? d = (ofState s).spaceOf? e := by
    have haliases := aliases_of_spaceOf? ha hb hn
    have howner := isReference_of_spaceOf? ha hn
    have hloaded := hread.isReference_iff.mp hreference
    exact h d e hd (.occurs he hloaded.1) hreference.2 hloaded.2
      (.load hread howner haliases.mayAlias hd he hreference)
  constructor
  · intro a b d e n hread hn ha hb hd he hreference
    exact hreads hread hn ha hb (.occurs hd hreference.1) he hreference
  · intro a b d e c n hread hn ha hb hstores he hloaded hc
    have hreference := hread.isReference_iff.mpr hloaded
    rw [← hreads hread hn ha hb (.stored hstores hreference hc) he hreference]
    exact (spaceOf?_eq_of_links (.store hstores) hreference hc).symm

/-- Where no owner has two names, loads are joined. -/
theorem joinsLoads_of_one_name (h : ∀ a b d e : Term, Term.ReadsAlike a d b e →
    s.HasPointer d → s.HasTerm e → s.Aliases a b → (a == b) = true) :
    JoinsLoads s (ofState s) := by
  constructor
  · intro a b d e n hread hn ha hb hd he hreference
    have hab := h a b d e hread (.occurs hd hreference.1) he (aliases_of_spaceOf? ha hb hn)
    exact spaceOf?_congr _ (hread.beq_of_beq hab)
  · intro a b d e c n hread hn ha hb hstores he hloaded hc
    have hreference := hread.isReference_iff.mpr hloaded
    have hab := h a b d e hread (.stored hstores hreference hc) he (aliases_of_spaceOf? ha hb hn)
    rw [← spaceOf?_congr _ (hread.beq_of_beq hab)]
    exact (spaceOf?_eq_of_links (.store hstores) hreference hc).symm

/-- Spaces join nothing that cannot alias; they join whatever may alias exactly where the loads
through the names of an owner share a space, which holds where each owner has one name. -/
structure LoadLaws (s : SymbolicState) (m : MemorySpaces) : Prop where
  mayAlias : ∀ (a b : Term) (n : Nat), n ≠ nullSpace → m.spaceOf? a = some n →
    m.spaceOf? b = some n → s.MayAlias a b
  joinsLoads_iff : JoinsLoads s m ↔ ∀ a b : Term, s.HasPointer a → s.HasPointer b →
    a.isNull = false → b.isNull = false → s.MayAlias a b → m.spaceOf? a = m.spaceOf? b
  joinsLoads : (∀ a b d e : Term, Term.ReadsAlike a d b e → s.HasPointer d → s.HasTerm e →
    s.Aliases a b → (a == b) = true) → JoinsLoads s m

theorem loadLaws_ofState (s : SymbolicState) : LoadLaws s (ofState s) where
  mayAlias _ _ _ hn ha hb := (aliases_of_spaceOf? ha hb hn).mayAlias
  joinsLoads_iff := ⟨fun h _ _ _ _ _ _ hmay => h.spaceOf?_eq hmay, joinsLoads_of_mayAlias⟩
  joinsLoads := joinsLoads_of_one_name

/-! A field is set through one name of a node and read through another. -/

namespace Renamed

def node (name : String) : Term := .value (.class "Node") name

def next (owner : Term) : Term := .field owner (.class "Node") "next"

def naming : Predicate := ⟨.state, .equal (node "x") (node "y"), {}⟩

def storing : Predicate := ⟨.state, .binary .fieldStore (next (node "x")) (node "c"), {}⟩

def reading : Predicate := ⟨.state, .equal (node "d") (.fieldLoad (next (node "y"))), {}⟩

def state : SymbolicState := .basic [naming, storing, reading]

/-- What is stored through the one name and what is loaded through the other are in two spaces. -/
theorem not_joinsLoads : ¬JoinsLoads state (ofState state) := by
  intro h
  have hx : (ofState state).spaceOf? (node "x") = some 1 := by decide +kernel
  have hy : (ofState state).spaceOf? (node "y") = some 1 := by decide +kernel
  have hstores : State.Stores state (.fieldLoad (next (node "x"))) (node "c") :=
    have hstoring : state.HasPredicate storing := .inl (.basic (by simp))
    .field hstoring
  have hread : state.HasTerm (.fieldLoad (next (node "y"))) :=
    have hreading : state.Occurs reading := .basic (by simp)
    ⟨reading, _, hreading, by simp [reading, Clause.operands, Assertion.operands], .self⟩
  have hshared := h.stores (.field (node "x") (node "y") (.class "Node") "next") (by decide) hx hy
    hstores hread (by decide) (by decide)
  have hdiffer : (ofState state).spaceOf? (node "c") ≠
      (ofState state).spaceOf? (.fieldLoad (next (node "y"))) := by decide +kernel
  exact hdiffer hshared

end Renamed

end MemorySpaces
end Concolic
