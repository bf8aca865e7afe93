import Concolic.Arena.Change
import Concolic.Proofs.Arena.Depth
import Concolic.Proofs.Spanning.Reachability

/-!
# Concretization

Concretization goes through the objects that a value reaches. An object whose class the program
knows and withholds from tests gets the class that the program names in its place; if that class
cannot stand in, the object is stuck and the whole concretization fails. A change of type is no
change of slots, so it makes no difference to what is reached, and a class that stands in is never
withheld itself. For these two reasons an object that has had its turn is left alone by every later
one, and an object is stuck when its turn comes exactly if it was so at the start.

## Main statements

* `Arena.run_concretizeNode` — one object, by whether it is stuck.
* `Arena.IsValid.run_concretize_of_stuck`, `Arena.IsValid.run_concretize` — one concretization, by
  whether it reaches an object that is stuck.
* `Arena.laws_of_concretization` — what a concretization leaves, that it may be made again, and when
  it fails.
-/

namespace Concolic

variable {program : Program} {least : Visibility} {className sub : String}

/-! ## Classes -/

namespace Program

/-- The program knows the class, and tests may not create instances of it. -/
def Withholds (program : Program) (least : Visibility) (className : String) : Prop :=
  (program.class? className).isSome = true ∧ Arena.isInstantiable program least className = false

instance : Decidable (program.Withholds least className) :=
  inferInstanceAs (Decidable (_ ∧ _))

/-- The class that the program names for the given one is another, and tests may create instances
of it. -/
def StandsIn (program : Program) (least : Visibility) (className sub : String) : Prop :=
  program.subtype? className = some sub ∧ sub ≠ className ∧
    Arena.isInstantiable program least sub = true

/-- A class that stands in for another is not withheld. -/
theorem StandsIn.not_withholds (h : program.StandsIn least className sub) :
    ¬program.Withholds least sub := fun hwithheld =>
  Bool.eq_false_iff.mp hwithheld.2 h.2.2

end Program

namespace Arena

theorem substitute_of_not_withholds (h : ¬program.Withholds least className) :
    substitute program least className = .ok none := by
  rw [substitute, if_pos]
  by_contra hnot
  rw [Bool.or_eq_true, not_or, ← Option.not_isSome, Bool.not_eq_true', Bool.not_eq_false,
    Bool.not_eq_true] at hnot
  exact h hnot

theorem substitute_of_withholds (h : program.Withholds least className) :
    substitute program least className =
      match program.subtype? className with
      | some sub =>
        if sub != className && isInstantiable program least sub then .ok (some sub)
        else .error (.noConcreteInstance className)
      | none => .error (.noConcreteInstance className) := by
  obtain ⟨hknown, hinstantiable⟩ := h
  have hknown' : ((program.class? className).isNone || isInstantiable program least className) =
      false := by
    rw [hinstantiable, Bool.or_false, ← Option.not_isSome, hknown, Bool.not_true]
  unfold substitute
  exact if_neg (Bool.eq_false_iff.mp hknown')

theorem substitute_of_standsIn (h : program.Withholds least className)
    (hsub : program.StandsIn least className sub) :
    substitute program least className = .ok (some sub) := by
  obtain ⟨hnamed, hne, hinstantiable⟩ := hsub
  simp only [substitute_of_withholds h, hnamed, bne_iff_ne.mpr hne, hinstantiable, Bool.and_self,
    if_true]

theorem substitute_of_stuck (h : program.Withholds least className)
    (hstuck : ∀ sub, ¬program.StandsIn least className sub) :
    substitute program least className = .error (.noConcreteInstance className) := by
  rw [substitute_of_withholds h]
  split
  · next sub hnamed =>
    rw [if_neg]
    intro hsub
    rw [Bool.and_eq_true, bne_iff_ne] at hsub
    exact hstuck sub ⟨hnamed, hsub⟩
  · rfl

end Arena

/-! ## Nodes -/

namespace Node

variable {n : Node}

/-- An object of a class that is withheld. -/
def IsWithheld (program : Program) (least : Visibility) (n : Node) (className : String) : Prop :=
  n.shape = .object ∧ n.type = .class className ∧ program.Withholds least className

/-- An object of a class that is withheld and for which no other class stands in. -/
def IsStuck (program : Program) (least : Visibility) (n : Node) (className : String) : Prop :=
  n.IsWithheld program least className ∧ ∀ sub, ¬program.StandsIn least className sub

/-- An object of a class that is withheld gets the class that stands in for it. -/
def concrete (program : Program) (least : Visibility) (n : Node) : Node :=
  match n.shape, n.type with
  | .object, .class className =>
    match Arena.substitute program least className with
    | .ok (some sub) => n.retype (.class sub)
    | _ => n
  | _, _ => n

theorem IsWithheld.unique {className' : String} (h : n.IsWithheld program least className)
    (h' : n.IsWithheld program least className') : className = className' :=
  ValueType.class.inj (h.2.1.symm.trans h'.2.1)

theorem concrete_of_withheld (h : n.IsWithheld program least className)
    (hsub : program.StandsIn least className sub) :
    n.concrete program least = n.retype (.class sub) := by
  obtain ⟨hshape, htype, hwithheld⟩ := h
  simp only [concrete, hshape, htype, Arena.substitute_of_standsIn hwithheld hsub]

theorem concrete_of_stuck (h : n.IsStuck program least className) :
    n.concrete program least = n := by
  obtain ⟨⟨hshape, htype, hwithheld⟩, hstuck⟩ := h
  simp only [concrete, hshape, htype, Arena.substitute_of_stuck hwithheld hstuck]

theorem concrete_of_not_withheld (h : ∀ className, ¬n.IsWithheld program least className) :
    n.concrete program least = n := by
  unfold concrete
  split
  · next className hshape htype =>
    have hwithheld : ¬program.Withholds least className := fun hw =>
      h className ⟨hshape, htype, hw⟩
    rw [Arena.substitute_of_not_withholds hwithheld]
  · rfl

/-- A node is withheld and gets another class, or it is stuck, or it is not withheld. -/
theorem withheld_cases (program : Program) (least : Visibility) (n : Node) :
    (∃ className sub, n.IsWithheld program least className ∧
      program.StandsIn least className sub) ∨
    (∃ className, n.IsStuck program least className) ∨
    ∀ className, ¬n.IsWithheld program least className := by
  by_cases hwithheld : ∃ className, n.IsWithheld program least className
  · obtain ⟨className, hwithheld⟩ := hwithheld
    by_cases hsub : ∃ sub, program.StandsIn least className sub
    · obtain ⟨sub, hsub⟩ := hsub
      exact .inl ⟨className, sub, hwithheld, hsub⟩
    · exact .inr (.inl ⟨className, hwithheld, not_exists.mp hsub⟩)
  · exact .inr (.inr (not_exists.mp hwithheld))

/-- The new class is not withheld. -/
theorem not_withheld_retype (hsub : program.StandsIn least className sub) (className' : String) :
    ¬(n.retype (.class sub)).IsWithheld program least className' := by
  rintro ⟨-, htype, hwithheld⟩
  obtain rfl : sub = className' := ValueType.class.inj htype
  exact hsub.not_withholds hwithheld

theorem slots_concrete (program : Program) (least : Visibility) (n : Node) :
    (n.concrete program least).slots = n.slots := by
  unfold concrete
  split
  · split <;> rfl
  · rfl

/-- A node that has been made concrete is withheld only if it is stuck, as it was before. -/
theorem isWithheld_concrete_iff : (n.concrete program least).IsWithheld program least className ↔
    n.IsStuck program least className := by
  rcases withheld_cases program least n with ⟨_, sub, hwithheld, hsub⟩ | ⟨_, hstuck⟩ | hnone
  · rw [concrete_of_withheld hwithheld hsub]
    refine iff_of_false (not_withheld_retype hsub className) ?_
    rintro ⟨hwithheld', hstuck⟩
    obtain rfl := hwithheld.unique hwithheld'
    exact hstuck sub hsub
  · rw [concrete_of_stuck hstuck]
    refine ⟨fun hwithheld => ⟨hwithheld, ?_⟩, And.left⟩
    exact hstuck.1.unique hwithheld ▸ hstuck.2
  · rw [concrete_of_not_withheld hnone]
    exact iff_of_false (hnone className) fun hstuck => hnone className hstuck.1

theorem isStuck_concrete_iff : (n.concrete program least).IsStuck program least className ↔
    n.IsStuck program least className := by
  rw [IsStuck, isWithheld_concrete_iff]
  exact and_iff_left_of_imp And.right

theorem concrete_concrete (program : Program) (least : Visibility) (n : Node) :
    (n.concrete program least).concrete program least = n.concrete program least := by
  rcases withheld_cases program least (n.concrete program least) with
    ⟨className, sub, hwithheld, hsub⟩ | ⟨_, hstuck⟩ | hnone
  · exact absurd hsub ((isWithheld_concrete_iff.mp hwithheld).2 sub)
  · exact concrete_of_stuck hstuck
  · exact concrete_of_not_withheld hnone

end Node

namespace Arena

variable {a b : Arena} {h k root : Handle} {hs done : List Handle} {failure : Failure}

/-! ## Several nodes -/

/-- The arena with several nodes made concrete, one after another. -/
def concreteAll (program : Program) (least : Visibility) (a : Arena) (hs : List Handle) : Arena :=
  hs.foldl (fun a h => a.update h (Node.concrete program least)) a

/-- A node is made concrete, and nothing else is changed. -/
theorem node_update_concrete (program : Program) (least : Visibility) (a : Arena)
    (h k : Handle) : (a.update h (Node.concrete program least)).node k =
      if k = h then (a.node k).concrete program least else a.node k := by
  split
  · next heq =>
    subst heq
    rcases Nat.lt_or_ge k.index a.size with hlt | hge
    · exact node_update_self _ hlt
    · rw [update_of_size_le _ hge, node_of_size_le hge]
      rfl
  · next hne => exact node_update_of_ne _ hne

theorem concreteAll_append (program : Program) (least : Visibility) (a : Arena)
    (hs hs' : List Handle) : concreteAll program least a (hs ++ hs') =
      concreteAll program least (concreteAll program least a hs) hs' :=
  List.foldl_append

theorem size_concreteAll (program : Program) (least : Visibility) (a : Arena)
    (hs : List Handle) : (concreteAll program least a hs).size = a.size := by
  induction hs generalizing a with
  | nil => rfl
  | cons h hs ih => exact (ih _).trans (size_update ..)

theorem node_concreteAll (program : Program) (least : Visibility) (a : Arena)
    (hs : List Handle) (k : Handle) : (concreteAll program least a hs).node k =
      if k ∈ hs then (a.node k).concrete program least else a.node k := by
  induction hs generalizing a with
  | nil => rfl
  | cons h hs ih =>
    have hstep : concreteAll program least a (h :: hs) =
      concreteAll program least (a.update h (Node.concrete program least)) hs := rfl
    rw [hstep, ih, node_update_concrete]
    by_cases hself : k = h
    · simp [hself, Node.concrete_concrete]
    · simp [hself]

theorem children_concreteAll (hs : List Handle) (k : Handle) :
    ((concreteAll program least a hs).node k).children = (a.node k).children := by
  rw [node_concreteAll]
  split
  · rw [Node.children, Node.slots_concrete, Node.children]
  · rfl

/-- What is reached stays the same. -/
theorem reaches_concreteAll (program : Program) (least : Visibility) (a : Arena)
    (hs : List Handle) : (concreteAll program least a hs).Reaches = a.Reaches := by
  refine congrArg Relation.ReflTransGen ?_
  funext h k
  rw [Leads, children_concreteAll, Leads]

theorem isStuck_concreteAll_iff (hs : List Handle) :
    ((concreteAll program least a hs).node h).IsStuck program least className ↔
      (a.node h).IsStuck program least className := by
  rw [node_concreteAll]
  split
  · exact Node.isStuck_concrete_iff
  · rfl

theorem isValid_concreteAll (ha : a.IsValid) (program : Program) (least : Visibility)
    (hs : List Handle) : (concreteAll program least a hs).IsValid := by
  intro h
  rw [size_concreteAll, node_concreteAll]
  split
  · unfold Node.concrete
    split
    · split
      · exact ⟨(ha h).ordered, (ha h).accepted, (ha h).inside⟩
      · exact ha h
    · exact ha h
  · exact ha h

/-! ## One node -/

/-- What is done with a node is told by the node as it is when its turn comes. -/
theorem run_concretizeNode_eq (program : Program) (least : Visibility) (a : Arena) (h : Handle) :
    (concretizeNode program least h).run.run a =
      match (a.node h).shape, (a.node h).type with
      | .object, .class className =>
        match substitute program least className with
        | .ok none => (.ok (), a)
        | .ok (some sub) => (.ok (), a.retype h (.class sub))
        | .error failure => (.error failure, a)
      | _, _ => (.ok (), a) := by
  have hget : (concretizeNode program least h).run.run a =
    ExceptT.run (m := StateM Arena) (match (a.node h).shape, (a.node h).type with
      | .object, .class className =>
        match substitute program least className with
        | .ok none => pure ()
        | .ok (some sub) => modify fun a => a.retype h (.class sub)
        | .error failure => throw failure
      | _, _ => pure ()) a := rfl
  rw [hget]
  split
  · split <;> rfl
  · rfl

theorem run_concretizeNode_of_stuck (hstuck : (a.node h).IsStuck program least className) :
    (concretizeNode program least h).run.run a = (.error (.noConcreteInstance className), a) := by
  obtain ⟨⟨hshape, htype, hwithheld⟩, hstuck⟩ := hstuck
  simp only [run_concretizeNode_eq, hshape, htype, substitute_of_stuck hwithheld hstuck]

theorem run_concretizeNode (hstuck : ∀ className, ¬(a.node h).IsStuck program least className) :
    (concretizeNode program least h).run.run a =
      (.ok (), a.update h (Node.concrete program least)) := by
  rcases (a.node h).withheld_cases program least with
    ⟨className, sub, hwithheld, hsub⟩ | ⟨className, hstuck'⟩ | hnone
  · have hretyped : a.update h (Node.concrete program least) = a.retype h (.class sub) :=
      update_congr (Node.concrete_of_withheld hwithheld hsub)
    obtain ⟨hshape, htype, hwithheld⟩ := hwithheld
    simp only [hretyped, run_concretizeNode_eq, hshape, htype,
      substitute_of_standsIn hwithheld hsub]
  · exact absurd hstuck' (hstuck className)
  · rw [update_eq_self (Node.concrete_of_not_withheld hnone), run_concretizeNode_eq]
    split
    · next className hshape htype =>
      have hwithheld : ¬program.Withholds least className := fun hwithheld =>
        hnone className ⟨hshape, htype, hwithheld⟩
      rw [substitute_of_not_withholds hwithheld]
    · rfl

/-! ## Everything that a value reaches -/

/-- The first of several steps may fail; then the others are not taken. -/
theorem run_forM_cons (step : Handle → Edit Unit) (h : Handle) (hs : List Handle) (a : Arena) :
    ((h :: hs).forM step).run.run a =
      match (step h).run.run a with
      | (.ok (), b) => (hs.forM step).run.run b
      | (.error failure, b) => (.error failure, b) := by
  have hcons : (h :: hs).forM step = (do step h; hs.forM step) := rfl
  rw [hcons, ExceptT.run_bind, StateT.run_bind]
  obtain ⟨result, b⟩ := (step h).run.run a
  cases result <;> rfl

/-- Nodes are made concrete one after another up to one that is stuck. -/
theorem run_forM_concretizeNode (program : Program) (least : Visibility) (hs : List Handle)
    (a : Arena) :
    (∀ h ∈ hs, ∀ className, ¬(a.node h).IsStuck program least className) ∧
      (hs.forM (concretizeNode program least)).run.run a =
        (.ok (), concreteAll program least a hs) ∨
    ∃ h ∈ hs, ∃ className, (a.node h).IsStuck program least className ∧
      ((hs.forM (concretizeNode program least)).run.run a).1 =
        .error (.noConcreteInstance className) := by
  induction hs generalizing a with
  | nil => exact .inl ⟨nofun, rfl⟩
  | cons h hs ih =>
    rw [run_forM_cons]
    by_cases hstuck : ∃ className, (a.node h).IsStuck program least className
    · obtain ⟨className, hstuck⟩ := hstuck
      rw [run_concretizeNode_of_stuck hstuck]
      exact .inr ⟨h, List.mem_cons_self .., className, hstuck, rfl⟩
    · rw [not_exists] at hstuck
      have hsame (k : Handle) (className : String) :
          ((a.update h (Node.concrete program least)).node k).IsStuck program least className ↔
            (a.node k).IsStuck program least className :=
        isStuck_concreteAll_iff [h]
      rw [run_concretizeNode hstuck]
      rcases ih (a.update h (Node.concrete program least)) with
        ⟨hrest, hrun⟩ | ⟨k, hk, className, hstuck', hrun⟩
      · refine .inl ⟨List.forall_mem_cons.mpr ⟨hstuck, fun k hk className => ?_⟩, hrun⟩
        exact mt (hsame k className).mpr (hrest k hk className)
      · exact .inr ⟨k, List.mem_cons_of_mem _ hk, className, (hsame k className).mp hstuck', hrun⟩

/-- The nodes that a concretization comes to. -/
def visited (a : Arena) (root : Handle) : List Handle :=
  (Spanning.walk a.edgesBackwards (a.size + 2) () root).order

theorem leads_edgesBackwards (a : Arena) : Spanning.Leads a.edgesBackwards = a.Leads := by
  funext h k
  apply propext
  simp [Spanning.Leads, edgesBackwards, Leads]

theorem IsValid.mem_visited (ha : a.IsValid) : h ∈ a.visited root ↔ a.Reaches root h := by
  have hinside (k : Handle) (_ : k ∈ a.handles root) (edge : Unit × Handle)
      (hedge : edge ∈ a.edgesBackwards k) : edge.2 ∈ a.handles root :=
    ha.mem_handles (a.leads_edgesBackwards ▸ Spanning.leads_of_mem hedge)
  rw [visited, Spanning.mem_order_walk_iff hinside (Finset.mem_insert_self ..) ()
    (a.card_handles_le root), Spanning.Reaches, leads_edgesBackwards, Reaches]

theorem run_concretize_eq (program : Program) (least : Visibility) (a : Arena) (root : Handle) :
    (concretize program least root).run.run a =
      ((a.visited root).forM (concretizeNode program least)).run.run a := by
  rw [concretize, ExceptT.run_bind, StateT.run_bind]
  rfl

/-- A concretization makes concrete what the value reaches, unless some of it is stuck. -/
theorem IsValid.run_concretize (ha : a.IsValid) (program : Program) (least : Visibility)
    (root : Handle) :
    (∀ h, a.Reaches root h → ∀ className, ¬(a.node h).IsStuck program least className) ∧
      (concretize program least root).run.run a =
        (.ok (), concreteAll program least a (a.visited root)) ∨
    ∃ h, a.Reaches root h ∧ ∃ className, (a.node h).IsStuck program least className ∧
      ((concretize program least root).run.run a).1 = .error (.noConcreteInstance className) := by
  have hrun := run_forM_concretizeNode program least (a.visited root) a
  simp only [ha.mem_visited] at hrun
  rwa [run_concretize_eq]

/-! ## The laws -/

/-- The arena `b` is what concretization from a value is to make of the arena `a`: no object in
reach is withheld, those that were have the class that stands in for theirs, and nothing else is
changed. -/
structure IsConcretized (program : Program) (least : Visibility) (root : Handle) (a b : Arena) :
    Prop where
  size_eq : b.size = a.size
  reaches_iff : ∀ h k, b.Reaches h k ↔ a.Reaches h k
  constructible : ∀ h className, b.Reaches root h → (b.node h).shape = .object →
    (b.node h).type = .class className →
    program.class? className = none ∨ isInstantiable program least className = true
  retyped : ∀ h className, a.Reaches root h → (a.node h).IsWithheld program least className →
    ∃ sub, program.StandsIn least className sub ∧
      b.node h = { a.node h with
        term := .value (.class sub) (a.node h).term.text
        type := .class sub }
  kept : ∀ h, (a.Reaches root h → ∀ className, ¬(a.node h).IsWithheld program least className) →
    b.node h = a.node h

/-- Where nothing in reach is stuck, everything in reach can be made concrete. -/
theorem IsValid.isConcretized (ha : a.IsValid)
    (hstuck : ∀ h, a.Reaches root h → ∀ className, ¬(a.node h).IsStuck program least className) :
    IsConcretized program least root a (concreteAll program least a (a.visited root)) := by
  have hnode (h : Handle) : (concreteAll program least a (a.visited root)).node h = _ :=
    node_concreteAll program least a (a.visited root) h
  constructor
  · exact size_concreteAll ..
  · exact fun h k => by rw [reaches_concreteAll]
  · intro h className hreach hshape htype
    rw [reaches_concreteAll] at hreach
    rw [hnode, if_pos (ha.mem_visited.mpr hreach)] at hshape htype
    by_contra hnot
    have hwithheld : program.Withholds least className := by
      rw [not_or, ← Ne, ← Option.isSome_iff_ne_none, Bool.not_eq_true] at hnot
      exact hnot
    exact hstuck h hreach className
      (Node.isWithheld_concrete_iff.mp ⟨hshape, htype, hwithheld⟩)
  · intro h className hreach hwithheld
    obtain ⟨sub, hsub⟩ : ∃ sub, program.StandsIn least className sub := by
      by_contra hnot
      exact hstuck h hreach className ⟨hwithheld, not_exists.mp hnot⟩
    refine ⟨sub, hsub, ?_⟩
    rw [hnode, if_pos (ha.mem_visited.mpr hreach), Node.concrete_of_withheld hwithheld hsub,
      Node.retype]
  · intro h hkept
    rw [hnode]
    split
    · next hmem => exact Node.concrete_of_not_withheld (hkept (ha.mem_visited.mp hmem))
    · rfl

/-- Nothing that is made concrete again is changed. -/
theorem concreteAll_concreteAll (hmem : ∀ h ∈ hs, h ∈ done) :
    concreteAll program least (concreteAll program least a done) hs =
      concreteAll program least a done := by
  refine eq_of_nodes (size_concreteAll ..) fun h _ => ?_
  rw [node_concreteAll _ _ (concreteAll program least a done)]
  split
  · next hh => rw [node_concreteAll, if_pos (hmem h hh), Node.concrete_concrete]
  · rfl

/-- What has been made concrete is left as it is. -/
theorem IsValid.run_concretize_again (ha : a.IsValid)
    (hstuck : ∀ h, a.Reaches root h → ∀ className, ¬(a.node h).IsStuck program least className) :
    (concretize program least root).run.run (concreteAll program least a (a.visited root)) =
      (.ok (), concreteAll program least a (a.visited root)) := by
  have hb := isValid_concreteAll ha program least (a.visited root)
  rcases hb.run_concretize program least root with
    ⟨-, hrun⟩ | ⟨h, hreach, className, hstuck', -⟩
  · rw [hrun, concreteAll_concreteAll]
    intro h hmem
    rw [hb.mem_visited, reaches_concreteAll] at hmem
    exact ha.mem_visited.mpr hmem
  · rw [reaches_concreteAll] at hreach
    exact absurd ((isStuck_concreteAll_iff _).mp hstuck') (hstuck h hreach className)

/-- In a valid arena, a concretization that succeeds leaves every object that the value reaches a
class that the program does not know or that tests may create instances of: exactly those whose
class was withheld get the class that stands in for it, under their name, and nothing else is
changed. Made again, it changes nothing. It fails exactly if an object that the value reaches is of
a class that is withheld and for which no other class stands in, and it names such a class. -/
theorem laws_of_concretization (ha : a.IsValid) (program : Program) (least : Visibility)
    (root : Handle) :
    (∀ b, (concretize program least root).run.run a = (.ok (), b) →
      IsConcretized program least root a b ∧
        (concretize program least root).run.run b = (.ok (), b)) ∧
    ((∃ failure, ((concretize program least root).run.run a).1 = .error failure) ↔
      ∃ h className, a.Reaches root h ∧ (a.node h).IsStuck program least className) ∧
    ∀ failure, ((concretize program least root).run.run a).1 = .error failure →
      ∃ h className, a.Reaches root h ∧ (a.node h).IsStuck program least className ∧
        failure = .noConcreteInstance className := by
  rcases ha.run_concretize program least root with
    ⟨hnone, hrun⟩ | ⟨h, hreach, className, hstuck, hrun⟩
  · have hnot (failure : Failure) :
        ¬((concretize program least root).run.run a).1 = .error failure := by
      rw [hrun]
      simp only [reduceCtorEq, not_false_eq_true]
    refine ⟨?_, ⟨?_, ?_⟩, fun failure hfailure => absurd hfailure (hnot failure)⟩
    · intro b hb
      rw [hrun] at hb
      obtain rfl := (Prod.mk.inj hb).2
      exact ⟨ha.isConcretized hnone, ha.run_concretize_again hnone⟩
    · rintro ⟨failure, hfailure⟩
      exact absurd hfailure (hnot failure)
    · rintro ⟨h, className, hreach, hstuck⟩
      exact absurd hstuck (hnone h hreach className)
  · refine ⟨fun b hok => ?_, ⟨fun _ => ⟨h, className, hreach, hstuck⟩, fun _ => ⟨_, hrun⟩⟩, ?_⟩
    · rw [hok] at hrun
      cases hrun
    · intro failure hfailure
      rw [hrun] at hfailure
      cases hfailure
      exact ⟨h, className, hreach, hstuck, rfl⟩

/-! A drawing holds a shape, and the shape leads back to the drawing. Shapes are abstract. -/

namespace Drawing

def node (className name : String) : Node :=
  ⟨.value (.class className) name, .class className, .object, []⟩

/-- The drawing and the shape. -/
def bare : Arena := ((({} : Arena).push (node "Drawing" "drawing")).2.push (node "Shape" "shape")).2

def arena : Arena :=
  (bare.setField ⟨0⟩ "shape" (.class "Shape") ⟨1⟩).setField ⟨1⟩ "owner" (.class "Drawing") ⟨0⟩

/-- Drawings and circles can be created. -/
def table : Program.Table where
  classes := [⟨"Drawing", false, false, .everywhere⟩, ⟨"Shape", true, false, .everywhere⟩,
    ⟨"Circle", false, false, .everywhere⟩]

/-- A circle may take the place of a shape. -/
def circles : Program := { table with subtypes := [("Shape", "Circle")] }.toProgram

theorem isValid_arena : arena.IsValid := by
  have hbare : bare.IsValid := isValid_push (isValid_push isValid_empty rfl) rfl
  exact isValid_setField (isValid_setField hbare _ _ (by decide)) _ _ (by decide)

/-- The shape becomes a circle, and stays one; where no class can take its place, there is no
drawing. -/
theorem arena_concretized : arena.IsValid ∧
    (∃ b, (concretize circles .everywhere ⟨0⟩).run.run arena = (.ok (), b) ∧
      b.node ⟨1⟩ = { arena.node ⟨1⟩ with
        term := .value (.class "Circle") "shape"
        type := .class "Circle" } ∧
      b.node ⟨0⟩ = arena.node ⟨0⟩ ∧
      (concretize circles .everywhere ⟨0⟩).run.run b = (.ok (), b)) ∧
    ∃ failure, ((concretize table.toProgram .everywhere ⟨0⟩).run.run arena).1 = .error failure := by
  obtain ⟨hok, -⟩ := laws_of_concretization isValid_arena circles .everywhere ⟨0⟩
  obtain ⟨b, hrun⟩ :
      ∃ b, (concretize circles .everywhere ⟨0⟩).run.run arena = (.ok (), b) := ⟨_, rfl⟩
  obtain ⟨hconcretized, htwice⟩ := hok b hrun
  have hshape : (arena.node ⟨1⟩).IsWithheld circles .everywhere "Shape" :=
    ⟨rfl, rfl, by decide +kernel⟩
  have hname : (arena.node ⟨1⟩).term.text = "shape" := by decide +kernel
  have hcircle : circles.subtype? "Shape" = some "Circle" := by decide +kernel
  have hmem : ⟨1⟩ ∈ (arena.node ⟨0⟩).children := by decide
  refine ⟨isValid_arena, ⟨b, hrun, ?_, ?_, htwice⟩, ?_⟩
  · obtain ⟨sub, hsub, hnode⟩ := hconcretized.retyped ⟨1⟩ "Shape" (.single hmem) hshape
    obtain rfl : sub = "Circle" := Option.some.inj (hsub.1.symm.trans hcircle)
    rw [hnode, hname]
  · refine hconcretized.kept ⟨0⟩ fun _ className hdrawing => ?_
    obtain rfl : "Drawing" = className := ValueType.class.inj hdrawing.2.1
    exact absurd hdrawing.2.2 (by decide +kernel)
  · obtain ⟨-, hfails, -⟩ := laws_of_concretization isValid_arena table.toProgram .everywhere ⟨0⟩
    refine hfails.mpr ⟨⟨1⟩, "Shape", .single hmem, ⟨rfl, rfl, by decide +kernel⟩, ?_⟩
    rintro sub ⟨hsub, -⟩
    cases hsub

end Drawing

end Arena
end Concolic
