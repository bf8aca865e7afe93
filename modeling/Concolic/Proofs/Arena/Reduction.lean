import Concolic.Arena.Change
import Concolic.Proofs.Arena.Depth
import Concolic.Proofs.Spanning.Reachability
import Mathlib.Logic.Function.Iterate

/-!
# Reduction

A reduction leaves out the slots that hold their default, in everything that a value reaches through
slots that do not. What a slot holds by default is told by its own type and by the constant that it
leads to, and no reduction changes either. So reductions do not come in each other's way: one that
is made again changes nothing more, and several give the same arena in any order. For the same
reason it makes no difference whether slots are left out while the values are still being looked up.

## Main statements

* `Arena.laws_of_reduction` — what a reduction leaves, that reductions may be made again and in any
  order, and that a sweep that drops slots on its way ends with the same arena.
-/

namespace Concolic.Arena

variable {a b : Arena} {h k root : Handle} {hs hs' : List Handle} {n : Node}

/-! ## Retained values -/

/-- What a value reaches through slots that do not hold their default, itself included. -/
inductive Retained (a : Arena) (root : Handle) : Handle → Prop
  | root : Retained a root root
  | slot {h : Handle} {entry : Slot × Handle} : Retained a root h → entry ∈ (a.node h).slots →
      a.isDefaultSlot (a.node h) entry = false → Retained a root entry.2

/-- The values that a reduction comes to. -/
def retained (a : Arena) (root : Handle) : List Handle :=
  (Spanning.walk a.survivingEdges (a.size + 2) () root).order

theorem mem_survivingEdges {edge : Unit × Handle} : edge ∈ a.survivingEdges h ↔
    ∃ entry ∈ (a.node h).slots, a.isDefaultSlot (a.node h) entry = false ∧ entry.2 = edge.2 := by
  simp only [survivingEdges, withoutDefaults, List.mem_map, List.mem_filter, Bool.not_eq_true']
  constructor
  · rintro ⟨entry, ⟨hentry, hkept⟩, rfl⟩
    exact ⟨entry, hentry, hkept, rfl⟩
  · rintro ⟨entry, hentry, hkept, heq⟩
    exact ⟨entry, ⟨hentry, hkept⟩, Prod.ext rfl heq⟩

theorem reaches_survivingEdges_iff :
    Spanning.Reaches a.survivingEdges root h ↔ a.Retained root h := by
  constructor
  · intro hreach
    induction hreach with
    | refl => exact .root
    | tail _ hlead ih =>
      obtain ⟨edge, hedge, rfl⟩ := hlead
      obtain ⟨entry, hentry, hkept, heq⟩ := mem_survivingEdges.mp hedge
      exact heq ▸ ih.slot hentry hkept
  · intro hretained
    induction hretained with
    | root => exact .refl
    | @slot h entry _ hentry hkept ih =>
      have hedge : ((), entry.2) ∈ a.survivingEdges h :=
        mem_survivingEdges.mpr ⟨entry, hentry, hkept, rfl⟩
      exact ih.tail (Spanning.leads_of_mem hedge)

theorem IsValid.survivingEdges_mem_handles (ha : a.IsValid) {edge : Unit × Handle}
    (hedge : edge ∈ a.survivingEdges h) : edge.2 ∈ a.handles root := by
  obtain ⟨entry, hentry, -, heq⟩ := mem_survivingEdges.mp hedge
  exact heq ▸ ha.mem_handles (leads_of_mem hentry)

theorem IsValid.mem_retained (ha : a.IsValid) : h ∈ a.retained root ↔ a.Retained root h := by
  rw [← reaches_survivingEdges_iff]
  exact Spanning.mem_order_walk_iff (fun _ _ _ => ha.survivingEdges_mem_handles)
    (Finset.mem_insert_self ..) () (a.card_handles_le root)

/-! ## Pruned arenas -/

/-- The arena with the slots of some nodes left out that hold their default. -/
def pruned (a : Arena) (hs : List Handle) : Arena :=
  ⟨a.nodes.mapIdx fun index n => if hs.contains ⟨index⟩ then a.withoutDefaults n else n⟩

theorem reduce_eq_pruned (a : Arena) (root : Handle) : a.reduce root = a.pruned (a.retained root) :=
  rfl

theorem size_pruned (a : Arena) (hs : List Handle) : (a.pruned hs).size = a.size := by
  simp [pruned, size]

theorem node_pruned (a : Arena) (hs : List Handle) (h : Handle) :
    (a.pruned hs).node h = if h ∈ hs then a.withoutDefaults (a.node h) else a.node h := by
  rcases Nat.lt_or_ge h.index a.size with hlt | hge
  · unfold size at hlt
    simp [pruned, node, List.getElem?_eq_getElem hlt]
  · rw [node_of_size_le (by rwa [size_pruned]), node_of_size_le hge]
    split <;> rfl

/-- Pruning leaves of a node all but its slots. -/
theorem eq_node_pruned (a : Arena) (hs : List Handle) (h : Handle) :
    ((a.pruned hs).node h).shape = (a.node h).shape ∧
      ((a.pruned hs).node h).type = (a.node h).type ∧
      ((a.pruned hs).node h).term = (a.node h).term := by
  rw [node_pruned]
  split <;> exact ⟨rfl, rfl, rfl⟩

/-- Whether a slot holds its default is told by what kinds of values the arena has. -/
theorem isDefaultSlot_congr {m : Node} (hkinds : ∀ k, (b.node k).shape = (a.node k).shape)
    (hshape : m.shape = n.shape) (htype : m.type = n.type) (entry : Slot × Handle) :
    b.isDefaultSlot m entry = a.isDefaultSlot n entry := by
  obtain ⟨slot, k⟩ := entry
  simp only [isDefaultSlot, Node.literal?_congr (hkinds k), Node.slotType?_congr hshape htype]

theorem isDefaultSlot_pruned (a : Arena) (hs : List Handle) (h : Handle) (entry : Slot × Handle) :
    (a.pruned hs).isDefaultSlot ((a.pruned hs).node h) entry =
      a.isDefaultSlot (a.node h) entry :=
  isDefaultSlot_congr (fun k => (eq_node_pruned a hs k).1) (eq_node_pruned a hs h).1
    (eq_node_pruned a hs h).2.1 entry

theorem withoutDefaults_pruned (a : Arena) (hs : List Handle) (n : Node) :
    (a.pruned hs).withoutDefaults n = a.withoutDefaults n := by
  have hdefault := isDefaultSlot_congr (n := n) (fun k => (eq_node_pruned a hs k).1) rfl rfl
  simp only [withoutDefaults, hdefault]

theorem withoutDefaults_withoutDefaults (a : Arena) (n : Node) :
    a.withoutDefaults (a.withoutDefaults n) = a.withoutDefaults n := by
  have hdefault := isDefaultSlot_congr (a := a) (m := a.withoutDefaults n) (n := n)
    (fun _ => rfl) rfl rfl
  rw [withoutDefaults]
  simp only [hdefault]
  simp only [withoutDefaults, List.filter_filter, Bool.and_self]

/-- To prune twice is to prune all that is pruned either time. -/
theorem pruned_pruned (a : Arena) (hs hs' : List Handle) :
    (a.pruned hs).pruned hs' = a.pruned (hs ++ hs') := by
  refine eq_of_nodes (by simp only [size_pruned]) fun h _ => ?_
  simp only [node_pruned, withoutDefaults_pruned, List.mem_append]
  by_cases hfirst : h ∈ hs
  · by_cases hsecond : h ∈ hs'
    · simp [hfirst, hsecond, withoutDefaults_withoutDefaults]
    · simp [hfirst, hsecond]
  · simp [hfirst]

theorem pruned_congr (hmem : ∀ h, h ∈ hs ↔ h ∈ hs') : a.pruned hs = a.pruned hs' := by
  refine eq_of_nodes (by simp only [size_pruned]) fun h _ => ?_
  simp only [node_pruned, hmem]

theorem pruned_nil (a : Arena) : a.pruned [] = a := by
  refine eq_of_nodes (size_pruned a []) fun h _ => ?_
  simp [node_pruned]

/-- To drop the defaults of one more node is to prune it as well. -/
theorem update_pruned (a : Arena) (hs : List Handle) (h : Handle) :
    (a.pruned hs).update h (a.pruned hs).withoutDefaults = a.pruned (h :: hs) := by
  refine eq_of_nodes (by simp only [size_update, size_pruned]) fun k hk => ?_
  rw [size_update] at hk
  by_cases hself : k = h
  · subst hself
    rw [node_update_self _ hk, withoutDefaults_pruned, node_pruned, node_pruned,
      if_pos (List.mem_cons_self ..)]
    by_cases hmem : k ∈ hs
    · rw [if_pos hmem, withoutDefaults_withoutDefaults]
    · rw [if_neg hmem]
  · rw [node_update_of_ne _ hself, node_pruned, node_pruned]
    simp [hself]

theorem IsValid.pruned (ha : a.IsValid) (hs : List Handle) : (a.pruned hs).IsValid := by
  intro h
  rw [size_pruned, node_pruned]
  split
  · exact (ha h).filter _
  · exact ha h

/-- The slots that do not hold their default are still there. -/
theorem mem_slots_pruned {entry : Slot × Handle}
    (hkept : a.isDefaultSlot (a.node h) entry = false) :
    entry ∈ ((a.pruned hs).node h).slots ↔ entry ∈ (a.node h).slots := by
  rw [node_pruned]
  split
  · simp [withoutDefaults, hkept]
  · rfl

/-- Pruning hides no value from a reduction, and shows it no other. -/
theorem retained_pruned_iff : (a.pruned hs).Retained root h ↔ a.Retained root h := by
  constructor
  · intro hretained
    induction hretained with
    | root => exact .root
    | slot _ hentry hkept ih =>
      rw [isDefaultSlot_pruned] at hkept
      exact ih.slot ((mem_slots_pruned hkept).mp hentry) hkept
  · intro hretained
    induction hretained with
    | root => exact .root
    | slot _ hentry hkept ih =>
      exact ih.slot ((mem_slots_pruned hkept).mpr hentry)
        (by rwa [isDefaultSlot_pruned])

/-! ## Several reductions -/

/-- Reductions from several values prune what any of them comes to. -/
theorem IsValid.foldl_reduce (ha : a.IsValid) (roots : List Handle) :
    roots.foldl reduce a = a.pruned (roots.flatMap a.retained) := by
  have hfrom (hs : List Handle) : roots.foldl reduce (a.pruned hs) =
      a.pruned (hs ++ roots.flatMap a.retained) := by
    induction roots generalizing hs with
    | nil => simp
    | cons root roots ih =>
      rw [List.foldl_cons, reduce_eq_pruned, pruned_pruned, ih]
      apply pruned_congr
      simp only [List.mem_append, List.flatMap_cons, (ha.pruned hs).mem_retained,
        retained_pruned_iff, ha.mem_retained, or_assoc, implies_true]
  have h := hfrom []
  rwa [pruned_nil, List.nil_append] at h

theorem IsValid.reduce_reduce (ha : a.IsValid) (root : Handle) :
    (a.reduce root).reduce root = a.reduce root := by
  have htwice := ha.foldl_reduce [root, root]
  have honce := ha.foldl_reduce [root]
  rw [List.foldl_cons, List.foldl_cons, List.foldl_nil] at htwice
  rw [List.foldl_cons, List.foldl_nil] at honce
  rw [htwice, honce]
  exact pruned_congr (by simp)

theorem IsValid.foldl_reduce_perm (ha : a.IsValid) {roots roots' : List Handle}
    (hperm : roots.Perm roots') : roots.foldl reduce a = roots'.foldl reduce a := by
  rw [ha.foldl_reduce, ha.foldl_reduce]
  exact pruned_congr fun h => (hperm.flatMap_right a.retained).mem_iff

/-! ## Sweeps -/

/-- A reduction under way: the arena as it is by now, the values that are done, and the stack of
those to come, the next one first. -/
structure Sweep where
  arena : Arena
  done : List Handle := []
  stack : List Handle

/-- Take the next value from the stack. One that is done is passed over. Of any other, the slots
that hold their default are dropped, and what its other slots lead to is put on the stack. -/
def Sweep.step (s : Sweep) : Sweep :=
  match s.stack with
  | [] => s
  | h :: rest =>
    if h ∈ s.done then { s with stack := rest }
    else
      let arena := s.arena.update h s.arena.withoutDefaults
      { arena, done := h :: s.done, stack := (arena.node h).children.reverse ++ rest }

/-- A sweep of the arena from a value, so far: what is done has been pruned, only retained values
are done or to come, and nothing that a retained value leads to is forgotten. -/
structure Sweep.Holds (a : Arena) (root : Handle) (s : Sweep) : Prop where
  arena_eq : s.arena = a.pruned s.done
  retained : ∀ h, h ∈ s.done ∨ h ∈ s.stack → a.Retained root h
  root_mem : root ∈ s.done ∨ root ∈ s.stack
  closed : ∀ h ∈ s.done, ∀ entry ∈ (a.node h).slots, a.isDefaultSlot (a.node h) entry = false →
    entry.2 ∈ s.done ∨ entry.2 ∈ s.stack

namespace Sweep

variable {s : Sweep} {done rest : List Handle}

theorem holds_start (a : Arena) (root : Handle) : Holds a root { arena := a, stack := [root] } := by
  constructor
  · exact (pruned_nil a).symm
  · rintro h (hmem | hmem)
    · cases hmem
    · rw [List.mem_singleton.mp hmem]
      exact .root
  · exact .inr (List.mem_singleton.mpr rfl)
  · exact nofun

/-- What a step puts on the stack is what the slots lead to that do not hold their default. -/
theorem mem_children_pruned : k ∈ ((a.pruned (h :: hs)).node h).children ↔
    ∃ entry ∈ (a.node h).slots, a.isDefaultSlot (a.node h) entry = false ∧ entry.2 = k := by
  rw [node_pruned, if_pos (List.mem_cons_self ..)]
  simp [Node.children, withoutDefaults, and_assoc]

theorem step_done (hmem : h ∈ done) : step ⟨b, done, h :: rest⟩ = ⟨b, done, rest⟩ := by
  simp only [step, if_pos hmem]

theorem step_new (hnew : h ∉ done) : step ⟨a.pruned done, done, h :: rest⟩ =
    ⟨a.pruned (h :: done), h :: done,
      ((a.pruned (h :: done)).node h).children.reverse ++ rest⟩ := by
  simp only [step, if_neg hnew, update_pruned]

theorem Holds.passed (hs : Holds a root ⟨b, done, h :: rest⟩) (hmem : h ∈ done) :
    Holds a root ⟨b, done, rest⟩ := by
  have hsame (k : Handle) (hk : k ∈ done ∨ k ∈ h :: rest) : k ∈ done ∨ k ∈ rest := by
    rw [List.mem_cons] at hk
    rcases hk with hk | rfl | hk
    · exact .inl hk
    · exact .inl hmem
    · exact .inr hk
  exact ⟨hs.arena_eq, fun k hk => hs.retained k (hk.imp_right (List.mem_cons_of_mem _)),
    hsame root hs.root_mem,
    fun k hk entry hentry hkept => hsame _ (hs.closed k hk entry hentry hkept)⟩

theorem Holds.swept (hs : Holds a root ⟨a.pruned done, done, h :: rest⟩) :
    Holds a root ⟨a.pruned (h :: done), h :: done,
      ((a.pruned (h :: done)).node h).children.reverse ++ rest⟩ := by
  have hh : a.Retained root h := hs.retained h (.inr (List.mem_cons_self ..))
  have hkeep (k : Handle) (hk : k ∈ done ∨ k ∈ h :: rest) : k ∈ h :: done ∨
      k ∈ ((a.pruned (h :: done)).node h).children.reverse ++ rest := by
    simp only [List.mem_cons, List.mem_append] at hk ⊢
    tauto
  constructor
  · rfl
  · intro k hk
    rw [List.mem_cons, List.mem_append, List.mem_reverse, mem_children_pruned] at hk
    rcases hk with (rfl | hk) | ⟨entry, hentry, hkept, rfl⟩ | hk
    · exact hh
    · exact hs.retained k (.inl hk)
    · exact hh.slot hentry hkept
    · exact hs.retained k (.inr (List.mem_cons_of_mem _ hk))
  · exact hkeep root hs.root_mem
  · intro k hk entry hentry hkept
    rcases List.mem_cons.mp hk with rfl | hk
    · refine .inr (List.mem_append_left _ (List.mem_reverse.mpr ?_))
      exact mem_children_pruned.mpr ⟨entry, hentry, hkept, rfl⟩
    · exact hkeep _ (hs.closed k hk entry hentry hkept)

/-- When the stack is empty, all retained values are done. -/
theorem Holds.mem_done_iff (hs : Holds a root ⟨b, done, []⟩) : h ∈ done ↔ a.Retained root h := by
  refine ⟨fun hmem => hs.retained h (.inl hmem), fun hretained => ?_⟩
  induction hretained with
  | root => exact hs.root_mem.resolve_right List.not_mem_nil
  | slot _ hentry hkept ih => exact (hs.closed _ ih _ hentry hkept).resolve_right List.not_mem_nil

/-- A sweep comes to an end: a step leaves fewer values that are not done, or a shorter stack. -/
theorem Holds.exists_end (ha : a.IsValid) (hs : Holds a root s)
    (hstack : ∀ h ∈ s.stack, h ∈ a.handles root) :
    ∃ steps done, step^[steps] s = ⟨a.reduce root, done, []⟩ := by
  obtain ⟨arena, done, stack⟩ := s
  obtain rfl : arena = a.pruned done := hs.arena_eq
  induction hleft : (a.handles root \ done.toFinset).card using Nat.strong_induction_on
    generalizing done stack with
  | _ left ih =>
    induction stack with
    | nil =>
      refine ⟨0, done, ?_⟩
      rw [reduce_eq_pruned, Function.iterate_zero, id_eq,
        pruned_congr fun h => hs.mem_done_iff.trans ha.mem_retained.symm]
    | cons h rest ihrest =>
      rw [List.forall_mem_cons] at hstack
      by_cases hmem : h ∈ done
      · obtain ⟨steps, final, hend⟩ := ihrest (hs.passed hmem) hstack.2
        exact ⟨steps + 1, final, by rw [Function.iterate_succ_apply, step_done hmem, hend]⟩
      · have hless : (a.handles root \ (h :: done).toFinset).card < left := by
          have hin : h ∈ a.handles root \ done.toFinset := by simp [hstack.1, hmem]
          rw [List.toFinset_cons, Finset.sdiff_insert, ← hleft]
          exact Finset.card_erase_lt_of_mem hin
        have hnext : ∀ k ∈ ((a.pruned (h :: done)).node h).children.reverse ++ rest,
            k ∈ a.handles root := by
          intro k hk
          rw [List.mem_append, List.mem_reverse, mem_children_pruned] at hk
          rcases hk with ⟨entry, hentry, -, rfl⟩ | hk
          · exact ha.mem_handles (leads_of_mem hentry)
          · exact hstack.2 k hk
        obtain ⟨steps, final, hend⟩ := ih _ hless _ _ hs.swept hnext rfl
        exact ⟨steps + 1, final, by rw [Function.iterate_succ_apply, step_new hmem, hend]⟩

end Sweep

/-! ## The laws -/

/-- In a valid arena, a reduction leaves every retained value exactly the slots that do not hold
their default, and changes nothing else. To make it again changes nothing more, and reductions from
several values give the same arena in every order. A sweep, which drops the slots of a value as it
takes it from the stack, ends with the same arena. -/
theorem laws_of_reduction (ha : a.IsValid) (root : Handle) :
    (a.reduce root).size = a.size ∧
    (∀ h, a.Retained root h → (a.reduce root).node h =
      { a.node h with
        slots := (a.node h).slots.filter fun entry => !a.isDefaultSlot (a.node h) entry }) ∧
    (∀ h, ¬a.Retained root h → (a.reduce root).node h = a.node h) ∧
    (a.reduce root).reduce root = a.reduce root ∧
    (∀ roots roots' : List Handle, roots.Perm roots' →
      roots.foldl reduce a = roots'.foldl reduce a) ∧
    ∃ steps done, Sweep.step^[steps] { arena := a, stack := [root] } =
      { arena := a.reduce root, done, stack := [] } := by
  refine ⟨size_pruned a _, fun h hh => ?_, fun h hh => ?_, ha.reduce_reduce root,
    fun _ _ => ha.foldl_reduce_perm, ?_⟩
  · rw [reduce_eq_pruned, node_pruned, if_pos (ha.mem_retained.mpr hh)]
    rfl
  · rw [reduce_eq_pruned, node_pruned, if_neg (mt ha.mem_retained.mp hh)]
  · have hroot : ∀ h ∈ [root], h ∈ a.handles root := by simp [handles]
    exact (Sweep.holds_start a root).exists_end ha hroot

/-! Two nodes lead to each other, and a third to neither. The first and the third hold a zero that
they share, the second holds a seven. -/

namespace Ring

def node (name : String) : Node := ⟨.value (.class "Node") name, .class "Node", .object, []⟩

/-- The three nodes and the two numbers. -/
def bare : Arena :=
  (((((({} : Arena).push (node "first")).2.push (node "second")).2.push (node "third")).2.push
    (.constant (.int 0))).2.push (.constant (.int 7))).2

def linked : Arena :=
  (bare.setField ⟨0⟩ "next" (.class "Node") ⟨1⟩).setField ⟨1⟩ "next" (.class "Node") ⟨0⟩

def arena : Arena :=
  ((linked.setField ⟨0⟩ "value" .int ⟨3⟩).setField ⟨1⟩ "value" .int ⟨4⟩).setField ⟨2⟩ "value" .int
    ⟨3⟩

theorem isValid_bare : bare.IsValid := by
  have hfirst := isValid_push (n := node "first") isValid_empty rfl
  have hsecond := isValid_push (n := node "second") hfirst rfl
  have hthird := isValid_push (n := node "third") hsecond rfl
  exact isValid_push (isValid_push hthird rfl) rfl

theorem isValid_arena : arena.IsValid := by
  have hlinked : linked.IsValid :=
    isValid_setField (isValid_setField isValid_bare _ _ (by decide)) _ _ (by decide)
  have hfirst : (linked.setField ⟨0⟩ "value" .int ⟨3⟩).IsValid :=
    isValid_setField hlinked _ _ (by decide)
  exact isValid_setField (isValid_setField hfirst _ _ (by decide)) _ _ (by decide)

/-- A reduction from the first node leaves it the way to the second, and leaves the third alone. -/
theorem arena_reduced : arena.IsValid ∧
    ((arena.reduce ⟨0⟩).node ⟨0⟩).slots = [(.field "next" (.class "Node"), ⟨1⟩)] ∧
    (arena.reduce ⟨0⟩).node ⟨2⟩ = arena.node ⟨2⟩ ∧
    (arena.reduce ⟨0⟩).reduce ⟨0⟩ = arena.reduce ⟨0⟩ ∧
    [⟨0⟩, ⟨2⟩, ⟨1⟩].foldl reduce arena = [⟨1⟩, ⟨0⟩, ⟨2⟩].foldl reduce arena := by
  obtain ⟨-, hkept, hother, htwice, hperm, -⟩ := laws_of_reduction isValid_arena ⟨0⟩
  refine ⟨isValid_arena, ?_, hother ⟨2⟩ ?_, htwice, hperm _ _ (by decide)⟩
  · rw [hkept ⟨0⟩ .root]
    decide +kernel
  · rw [← isValid_arena.mem_retained]
    decide +kernel

end Ring

end Concolic.Arena
