import Concolic.Proofs.Arena.Concretization

/-!
# When parameters are rejected

The parameters of a test are made concrete as they are given, and only then the final fields of
their holders are dropped. Dropping hides objects and never shows one, so an object that is stuck
behind a final field ends the attempt although no test that is left would contain it. Apart from
such objects, parameters are rejected for what their test contains.

## Main statements

* `Arena.IsValid.run_forM_concretize` — several concretizations one after another, by whether one of
  them reaches an object that is stuck.
* `Arena.concretizeParameters_fails_iff` — when parameters are rejected, and when that is for an
  object which is left behind the holders without their final fields.
-/

namespace Concolic.Arena

variable {a b : Arena} {program : Program} {least : Visibility} {className : String}
  {h k root : Handle} {roots holders : List Handle}

/-- An object that one of the values reaches is of the class, which is withheld and for which no
other class stands in. -/
def ReachesStuck (program : Program) (least : Visibility) (a : Arena) (roots : List Handle)
    (className : String) : Prop :=
  ∃ root ∈ roots, ∃ h, a.Reaches root h ∧ (a.node h).IsStuck program least className

/-! ## Several values -/

theorem reachesStuck_concreteAll_iff (hs : List Handle) :
    ReachesStuck program least (concreteAll program least a hs) roots className ↔
      ReachesStuck program least a roots className := by
  simp only [ReachesStuck, reaches_concreteAll, isStuck_concreteAll_iff]

theorem ReachesStuck.cons (hstuck : ReachesStuck program least a roots className) :
    ReachesStuck program least a (root :: roots) className := by
  obtain ⟨root', hroot, hstuck⟩ := hstuck
  exact ⟨root', List.mem_cons_of_mem _ hroot, hstuck⟩

/-- Concretizations one after another succeed, unless one of the values reaches an object that is
stuck. -/
theorem IsValid.run_forM_concretize (ha : a.IsValid) (program : Program) (least : Visibility)
    (roots : List Handle) :
    (∀ className, ¬ReachesStuck program least a roots className) ∧
      (∃ hs, (roots.forM (concretize program least)).run.run a =
        (.ok (), concreteAll program least a hs)) ∨
    ∃ className, ReachesStuck program least a roots className ∧
      ((roots.forM (concretize program least)).run.run a).1 =
        .error (.noConcreteInstance className) := by
  induction roots generalizing a with
  | nil =>
    refine .inl ⟨?_, [], rfl⟩
    rintro className ⟨_, hroot, -⟩
    cases hroot
  | cons root roots ih =>
    rw [run_forM_cons]
    rcases ha.run_concretize program least root with
      ⟨hnone, hrun⟩ | ⟨h, hreach, className, hstuck, hrun⟩
    · rw [hrun]
      rcases ih (isValid_concreteAll ha program least (a.visited root)) with
        ⟨hrest, hs, hrun'⟩ | ⟨className, hstuck, hrun'⟩
      · refine .inl ⟨?_, ⟨a.visited root ++ hs, ?_⟩⟩
        · rintro className ⟨root', hroot, h, hreach, hstuck⟩
          rcases List.mem_cons.mp hroot with rfl | hroot
          · exact hnone h hreach className hstuck
          · exact hrest className
              ((reachesStuck_concreteAll_iff _).mpr ⟨root', hroot, h, hreach, hstuck⟩)
        · rw [concreteAll_append]
          exact hrun'
      · exact .inr ⟨className, ((reachesStuck_concreteAll_iff _).mp hstuck).cons, hrun'⟩
    · refine .inr ⟨className, ⟨root, List.mem_cons_self .., h, hreach, hstuck⟩, ?_⟩
      revert hrun
      obtain ⟨result, b⟩ := (concretize program least root).run.run a
      rintro rfl
      rfl

/-! ## Holders without their final fields -/

/-- The arena without the final fields of several holders. -/
def withoutFinals (program : Program) (a : Arena) (holders : List Handle) : Arena :=
  holders.foldl (dropFinalFields program) a

/-- What is left of a node: nothing but slots is dropped. -/
structure IsLeftOf (n m : Node) : Prop where
  shape_eq : n.shape = m.shape
  type_eq : n.type = m.type
  slots : n.slots ⊆ m.slots

theorem isLeftOf_dropFinalFields (program : Program) (a : Arena) (holder h : Handle) :
    IsLeftOf ((dropFinalFields program a holder).node h) (a.node h) := by
  have hself : IsLeftOf (a.node h) (a.node h) := ⟨rfl, rfl, List.Subset.refl _⟩
  rcases Nat.lt_or_ge h.index a.size with hlt | hge
  · by_cases heq : h = holder
    · subst heq
      rw [dropFinalFields, node_update_self _ hlt]
      split
      · exact ⟨rfl, rfl, List.filter_subset_self ..⟩
      · exact hself
    · rwa [dropFinalFields, node_update_of_ne _ heq]
  · rwa [node_of_size_le (by rwa [dropFinalFields, size_update]), ← node_of_size_le hge]

theorem isLeftOf_withoutFinals (program : Program) (a : Arena) (holders : List Handle)
    (h : Handle) : IsLeftOf ((withoutFinals program a holders).node h) (a.node h) := by
  induction holders generalizing a with
  | nil => exact ⟨rfl, rfl, List.Subset.refl _⟩
  | cons holder holders ih =>
    have hrest := ih (dropFinalFields program a holder)
    have hfirst := isLeftOf_dropFinalFields program a holder h
    exact ⟨hrest.shape_eq.trans hfirst.shape_eq, hrest.type_eq.trans hfirst.type_eq,
      List.Subset.trans hrest.slots hfirst.slots⟩

theorem reaches_of_withoutFinals (hreach : (withoutFinals program a holders).Reaches h k) :
    a.Reaches h k := by
  have hleads (h k : Handle) (hlead : (withoutFinals program a holders).Leads h k) :
      a.Leads h k :=
    List.map_subset _ (isLeftOf_withoutFinals program a holders h).slots hlead
  exact Relation.ReflTransGen.mono hleads h k hreach

/-- To drop final fields shows no object that is stuck, and makes none so. -/
theorem ReachesStuck.of_withoutFinals
    (hstuck : ReachesStuck program least (withoutFinals program a holders) roots className) :
    ReachesStuck program least a roots className := by
  obtain ⟨root, hroot, h, hreach, ⟨hshape, htype, hwithheld⟩, hnone⟩ := hstuck
  have hleft := isLeftOf_withoutFinals program a holders h
  exact ⟨root, hroot, h, reaches_of_withoutFinals hreach,
    ⟨hleft.shape_eq ▸ hshape, hleft.type_eq ▸ htype, hwithheld⟩, hnone⟩

/-! ## The parameters of a test -/

/-- Only concretization can fail. -/
theorem run_concretizeParameters (program : Program) (settings : Config.DescriptorSettings)
    (parameters : Parameters Handle) (a : Arena) :
    ((concretizeParameters program settings parameters).run.run a).1 =
      ((parameters.all.forM (concretize program settings.visibility)).run.run a).1 := by
  rw [concretizeParameters, ExceptT.run_bind, StateT.run_bind]
  obtain ⟨result, b⟩ :=
    (parameters.all.forM (concretize program settings.visibility)).run.run a
  cases result with
  | error failure => rfl
  | ok =>
    cases hreduce : settings.reduce <;> rfl

/-- The parameters are rejected: there is no concrete instance of some class. -/
def IsRejected (program : Program) (settings : Config.DescriptorSettings)
    (parameters : Parameters Handle) (a : Arena) : Prop :=
  ∃ className, ((concretizeParameters program settings parameters).run.run a).1 =
    .error (.noConcreteInstance className)

/-- Parameters are rejected for what is stuck in reach of them as they are given, and for nothing
else. -/
theorem IsValid.isRejected_iff (ha : a.IsValid) (program : Program)
    (settings : Config.DescriptorSettings) (parameters : Parameters Handle) :
    (IsRejected program settings parameters a ↔
      ∃ className, ReachesStuck program settings.visibility a parameters.all className) ∧
    ∀ failure,
      ((concretizeParameters program settings parameters).run.run a).1 = .error failure →
      ∃ className, ReachesStuck program settings.visibility a parameters.all className ∧
        failure = .noConcreteInstance className := by
  simp only [IsRejected, run_concretizeParameters]
  rcases ha.run_forM_concretize program settings.visibility parameters.all with
    ⟨hnone, hs, hrun⟩ | ⟨className, hstuck, hrun⟩
  · simp only [hrun, reduceCtorEq, exists_false, hnone, false_imp_iff, implies_true, and_self]
  · rw [hrun]
    refine ⟨iff_of_true ⟨className, rfl⟩ ⟨className, hstuck⟩, ?_⟩
    rintro failure ⟨⟩
    exact ⟨className, hstuck, rfl⟩

/-- In a valid arena, parameters are rejected exactly if they reach, as they are given, an object of
a class that is withheld and for which no other class stands in. The failure names such a class, and
there is no other failure. What is stuck when the final fields of the holders are dropped is stuck
before, so parameters are rejected for it as well. Hence they are rejected exactly for what a test
would contain, unless all that is stuck lies behind final fields. -/
theorem concretizeParameters_fails_iff (ha : a.IsValid) (program : Program)
    (settings : Config.DescriptorSettings) (parameters : Parameters Handle) :
    (IsRejected program settings parameters a ↔
      ∃ className, ReachesStuck program settings.visibility a parameters.all className) ∧
    (∀ failure,
      ((concretizeParameters program settings parameters).run.run a).1 = .error failure →
      ∃ className, ReachesStuck program settings.visibility a parameters.all className ∧
        failure = .noConcreteInstance className) ∧
    (∀ className, ReachesStuck program settings.visibility
      (withoutFinals program a parameters.statics) parameters.all className →
      IsRejected program settings parameters a) ∧
    ((IsRejected program settings parameters a ↔
      ∃ className, ReachesStuck program settings.visibility
        (withoutFinals program a parameters.statics) parameters.all className) ↔
      ((∃ className, ReachesStuck program settings.visibility a parameters.all className) →
        ∃ className, ReachesStuck program settings.visibility
          (withoutFinals program a parameters.statics) parameters.all className)) := by
  obtain ⟨hrejected, hnamed⟩ := ha.isRejected_iff program settings parameters
  refine ⟨hrejected, hnamed, fun className hstuck => ?_, ?_⟩
  · exact hrejected.mpr ⟨className, hstuck.of_withoutFinals⟩
  · rw [hrejected]
    refine ⟨Iff.mp, fun hshown => ⟨hshown, ?_⟩⟩
    rintro ⟨className, hstuck⟩
    exact ⟨className, hstuck.of_withoutFinals⟩

/-! A program keeps a secret in a final static field, and tests may not create secrets. -/

namespace Secret

def holder : Node := ⟨.statics (.class "Vault"), .class "Vault", .statics, []⟩

def secret : Node := ⟨.value (.class "Secret") "secret", .class "Secret", .object, []⟩

/-- The holder of the static field, which leads to the secret. -/
def arena : Arena :=
  ((({} : Arena).push holder).2.push secret).2.setField ⟨0⟩ "KEPT" (.class "Secret") ⟨1⟩

def parameters : Parameters Handle where
  statics := [⟨0⟩]

/-- There are secrets, but they are abstract, and nothing stands in for them. -/
def vault : Program := Program.Table.toProgram {
  classes := [⟨"Secret", true, false, .everywhere⟩]
  fields := [⟨"Vault", "KEPT", .class "Secret", true, true⟩] }

theorem isValid_arena : arena.IsValid :=
  isValid_setField (isValid_push (isValid_push isValid_empty rfl) rfl) _ _ (by decide)

/-- The holder is rejected for the secret. -/
theorem holder_rejected : arena.IsValid ∧ IsRejected vault {} parameters arena := by
  obtain ⟨hrejected, -⟩ := concretizeParameters_fails_iff isValid_arena vault {} parameters
  have hmem : ⟨1⟩ ∈ (arena.node ⟨0⟩).children := by decide
  have hsecret : (arena.node ⟨1⟩).IsStuck vault .everywhere "Secret" := by
    refine ⟨⟨rfl, rfl, by decide +kernel⟩, ?_⟩
    rintro sub ⟨hsub, -⟩
    cases hsub
  have hstuck : ReachesStuck vault .everywhere arena parameters.all "Secret" :=
    ⟨⟨0⟩, List.mem_singleton.mpr rfl, ⟨1⟩, .single hmem, hsecret⟩
  exact ⟨isValid_arena, hrejected.mpr ⟨"Secret", hstuck⟩⟩

/-- No test would contain the secret: the holder without its final field leads nowhere. -/
theorem holder_rejected_needlessly : IsRejected vault {} parameters arena ∧
    ¬∃ className, ReachesStuck vault .everywhere
      (withoutFinals vault arena parameters.statics) parameters.all className := by
  refine ⟨⟨"Secret", by rfl⟩, ?_⟩
  rintro ⟨className, root, hroot, h, hreach, ⟨hshape, -⟩, -⟩
  obtain rfl : root = ⟨0⟩ := List.mem_singleton.mp hroot
  have hbare : ((withoutFinals vault arena parameters.statics).node ⟨0⟩).children = [] := by
    decide +kernel
  rcases hreach.cases_head with rfl | ⟨k, hlead, -⟩
  · exact absurd hshape (by decide +kernel)
  · rw [Leads, hbare] at hlead
    cases hlead

end Secret

end Concolic.Arena
