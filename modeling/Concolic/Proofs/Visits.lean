import Concolic.Proofs.Search.ConstantBranches

/-!
# Visits one after the other

All methods are visited, also behind a visit that has failed; what stops them then is the token.
Every search has a child of the token of the run, so a failed visit, which raises the flag, leaves
the later ones nothing but to find out that the time is up. That takes collaborators that leave
the flag alone, and nothing else of them.

## Main definitions

* `Collaborators.Spares` — the collaborators do not touch the flag of a token.
* `Engine.visits` — the visits of a list of methods, each with the worlds around it.

## Main statement

* `Engine.visitAll_stops` — what visiting all methods comes to, with a failure and without.
-/

namespace Concolic

variable {σ : Type}

/-! ## The flag -/

/-- The collaborators do not touch the flag of a token. -/
structure Collaborators.Spares (c : Collaborators σ) (token : Token) : Prop where
  runRandom (m : Method) (o : Outside σ) :
    ((c.runRandom m).run o).2.clock.raised[token.flag]? = o.clock.raised[token.flag]?
  runConcrete (m : Method) (arena : Arena) (parameters : Parameters Handle) (o : Outside σ) :
    ((c.runConcrete m arena parameters).run o).2.clock.raised[token.flag]? =
      o.clock.raised[token.flag]?
  solve (query : Query) (o : Outside σ) :
    ((c.solve query).run o).2.clock.raised[token.flag]? = o.clock.raised[token.flag]?
  elapse (o : Outside σ) :
    (c.elapse.run o).2.clock.raised[token.flag]? = o.clock.raised[token.flag]?

theorem Collaborators.Spares.raised_eq {c : Collaborators σ} {token : Token} {o o' : Outside σ}
    (h : c.Spares token) (hreaches : c.Reaches o o') :
    o'.clock.raised[token.flag]? = o.clock.raised[token.flag]? := by
  induction hreaches with
  | refl => rfl
  | runRandom m _ ih => rw [h.runRandom, ih]
  | runConcrete m arena parameters _ ih => rw [h.runConcrete, ih]
  | solve query _ ih => rw [h.solve, ih]
  | record m trace _ ih => exact ih
  | elapse _ ih => rw [h.elapse, ih]

/-- The flag of a token is there and raised. -/
def Token.IsRaised (token : Token) (w : World σ) : Prop :=
  w.outside.clock.raised[token.flag]? = some true

/-! ## Searches behind a raised flag -/

theorem Task.isCapped_start (t : Task σ) : t.isCapped t.start = false := by
  simp [isCapped, start, Nat.pos_iff_ne_zero]

/-- The world after the head of a round: the token is looked at unless everything is covered. -/
def Task.afterHead (t : Task σ) (w : World σ) : World σ :=
  if t.engine.collaborators.isCovered t.method w.outside.state then w else t.later w

theorem Task.suite_afterHead (t : Task σ) (w : World σ) : (t.afterHead w).suite = w.suite := by
  unfold afterHead
  split <;> rfl

/-- A round under a token that fires looks at the coverage and ends. -/
theorem Task.round_of_hasFired {t : Task σ} {s : Search} {w : World σ}
    (hcapped : t.isCapped s = false) (h : t.HasFired (t.later w)) :
    (t.round s).run w = (.ended s (.ok (if t.engine.collaborators.isCovered t.method
      w.outside.state then .covered else .timedOut)), t.afterHead w) := by
  have hfired : (t.later w).outside.clock.isCancelled t.token = true := h
  rw [round_run, afterHead]
  by_cases hcovered : t.engine.collaborators.isCovered t.method w.outside.state = true
  · rw [if_pos hcovered, if_pos hcovered, if_pos hcovered]
  · rw [if_neg hcovered, if_neg hcovered, if_neg hcovered, if_neg (by simp [hcapped]),
      if_pos hfired]

namespace Engine

variable {e : Engine σ} {rounds : Nat} {method : Method} {info : MethodInfo} {w : World σ}

theorem reaches_visit (e : Engine σ) (rounds : Nat) (method : Method) (w : World σ) :
    e.collaborators.Reaches w.outside ((e.visit rounds method).run w).2.outside := by
  cases hinfo : (e.program.method? method).filter e.admits with
  | none =>
    rw [visit_run_of_none hinfo]
    exact .refl
  | some info =>
    have hreaches := ((e.taskOf info w).run_ends w rounds).reaches
    obtain ⟨s, result, w₁, hrun, ⟨failure, -, hvisit⟩ | ⟨outcome, -, hvisit⟩⟩ :=
      visit_cases hinfo rounds w
    · rw [hvisit]
      rwa [hrun] at hreaches
    · rw [hvisit]
      rwa [hrun] at hreaches

theorem hasFired_of_isRaised (h : e.token.IsRaised w) (info : MethodInfo) (w' : World σ) :
    (e.taskOf info w').HasFired w := by
  have hflag : (e.taskOf info w').token.flag = e.token.flag := rfl
  rw [Task.HasFired, Cancellation.isCancelled, hflag, List.getD_eq_getElem?_getD, h]
  rfl

/-- The flag stays raised while time passes. -/
theorem isRaised_later (hspares : e.collaborators.Spares e.token) (h : e.token.IsRaised w)
    (info : MethodInfo) : e.token.IsRaised ((e.taskOf info w).later w) :=
  (hspares.elapse w.outside).trans h

theorem isRaised_afterHead (hspares : e.collaborators.Spares e.token) (h : e.token.IsRaised w)
    (info : MethodInfo) : e.token.IsRaised ((e.taskOf info w).afterHead w) := by
  unfold Task.afterHead
  split
  · exact h
  · exact isRaised_later hspares h info

/-- With the flag raised, a search ends at the head of its first round. -/
theorem run_of_isRaised (hrounds : 0 < rounds) (hspares : e.collaborators.Spares e.token)
    (h : e.token.IsRaised w) (info : MethodInfo) :
    ((e.taskOf info w).run rounds (e.taskOf info w).start).run w =
      (((e.taskOf info w).start, .ok (if e.collaborators.isCovered info.method w.outside.state then
        .covered else .timedOut)), (e.taskOf info w).afterHead w) :=
  Task.Reached.start.run_of_ended hrounds (Task.round_of_hasFired (e.taskOf info w).isCapped_start
    (hasFired_of_isRaised (isRaised_later hspares h info) info w))

/-- With the flag raised, a visit calls no collaborator, and its report counts nothing. -/
theorem visit_of_isRaised (hrounds : 0 < rounds) (hspares : e.collaborators.Spares e.token)
    (h : e.token.IsRaised w) (hinfo : (e.program.method? method).filter e.admits = some info) :
    (e.visit rounds method).run w =
      (.ok (some ((e.taskOf info w).start.report info.method
        (if e.collaborators.isCovered info.method w.outside.state then .covered else .timedOut))),
        { (e.taskOf info w).afterHead w with
          suite := ((e.taskOf info w).afterHead w).suite ++ [.finished method] }) := by
  obtain ⟨s, result, w₁, hrun, hvisit⟩ := visit_cases hinfo rounds w
  rw [run_of_isRaised hrounds hspares h] at hrun
  obtain ⟨hsearch, rfl⟩ := Prod.mk.inj hrun
  obtain ⟨rfl, rfl⟩ := Prod.mk.inj hsearch
  rcases hvisit with ⟨failure, hfound, -⟩ | ⟨outcome, hfound, hvisit⟩
  · cases hfound
  · rw [hvisit, ← Except.ok.inj hfound]

end Engine

/-! ## Visits -/

/-- A visit, with the world that it found and the one that it left. -/
structure MethodVisit (σ : Type) where
  method : Method
  world : World σ
  result : Except Failure (Option Report)
  rest : World σ

/-- The report of a visit that has not failed, if its method is visited at all. -/
def MethodVisit.report? (v : MethodVisit σ) : Option Report := v.result.toOption.join

/-- The visit has failed. -/
def MethodVisit.Fails (v : MethodVisit σ) (failure : Failure) : Prop := v.result = .error failure

/-- The visit has not failed. -/
def MethodVisit.Succeeds (v : MethodVisit σ) : Prop := v.result = .ok v.report?

namespace Engine

variable {e : Engine σ} {rounds : Nat} {methods : List Method} {w : World σ} {v : MethodVisit σ}
  {method : Method} {failure : Failure}

/-- One visit of a method, behind which the run is cancelled if it fails. -/
def visitOf (e : Engine σ) (rounds : Nat) (method : Method) (w : World σ) : MethodVisit σ where
  method
  world := w
  result := ((e.visitOrCancel rounds method).run w).1
  rest := ((e.visitOrCancel rounds method).run w).2

/-- The visits of methods from left to right, each in the world that the one before has left. -/
def visits (e : Engine σ) (rounds : Nat) : List Method → World σ → List (MethodVisit σ)
  | [], _ => []
  | method :: methods, w =>
    let v := e.visitOf rounds method w
    v :: e.visits rounds methods v.rest

theorem visitOrCancel_run (e : Engine σ) (rounds : Nat) (method : Method) (w : World σ) :
    (e.visitOrCancel rounds method).run w =
      match (e.visit rounds method).run w with
      | (.ok report?, rest) => (.ok report?, rest)
      | (.error failure, rest) =>
        (.error failure, { rest with outside.clock := rest.outside.clock.cancel e.token }) := by
  rw [visitOrCancel, Act.run_bind]
  obtain ⟨failure | report?, rest⟩ := (e.visit rounds method).run w <;> rfl

theorem result_visitOf (e : Engine σ) (rounds : Nat) (method : Method) (w : World σ) :
    (e.visitOf rounds method w).result = ((e.visit rounds method).run w).1 := by
  rw [visitOf, visitOrCancel_run]
  obtain ⟨failure | report?, rest⟩ := (e.visit rounds method).run w <;> rfl

/-- A visit that has not failed leaves the run alone. -/
theorem rest_visitOf (h : (e.visitOf rounds method w).Succeeds) :
    (e.visitOf rounds method w).rest = ((e.visit rounds method).run w).2 := by
  rw [MethodVisit.Succeeds, result_visitOf] at h
  rw [visitOf, visitOrCancel_run]
  generalize (e.visit rounds method).run w = found at h ⊢
  obtain ⟨failure | report?, rest⟩ := found
  · cases h
  · rfl

/-- A failed visit raises the flag. -/
theorem isRaised_of_fails (hspares : e.collaborators.Spares e.token)
    (hflag : e.token.flag < w.outside.clock.raised.length)
    (h : (e.visitOf rounds method w).Fails failure) :
    e.token.IsRaised (e.visitOf rounds method w).rest := by
  have hraised := hspares.raised_eq (e.reaches_visit rounds method w)
  rw [MethodVisit.Fails, result_visitOf] at h
  rw [visitOf, visitOrCancel_run]
  generalize (e.visit rounds method).run w = found at h hraised ⊢
  obtain ⟨failure | report?, rest⟩ := found
  · rw [List.getElem?_eq_getElem hflag] at hraised
    have hlength := (List.getElem?_eq_some_iff.mp hraised).1
    exact List.getElem?_set_self hlength
  · cases h

/-- A visit that has not failed leaves the flag as it was. -/
theorem raised_of_succeeds (hspares : e.collaborators.Spares e.token)
    (h : (e.visitOf rounds method w).Succeeds) :
    (e.visitOf rounds method w).rest.outside.clock.raised[e.token.flag]? =
      w.outside.clock.raised[e.token.flag]? := by
  rw [rest_visitOf h]
  exact hspares.raised_eq (e.reaches_visit rounds method w)

/-! ## Visits behind a failure -/

/-- If its method is one to visit, the visit calls no collaborator, looks at the token once at
most, and ends with a report that counts nothing, because everything is covered or for want of
time. -/
structure EndsAtOnce (e : Engine σ) (v : MethodVisit σ) : Prop where
  visited (info : MethodInfo) : (e.program.method? v.method).filter e.admits = some info →
    v.result = .ok (some ⟨info.method, 0, 0, 0, 0,
      if e.collaborators.isCovered info.method v.world.outside.state then .covered
      else .timedOut⟩) ∧
    v.rest = { (e.taskOf info v.world).afterHead v.world with
      suite := v.world.suite ++ [.finished v.method] }
  passed : (e.program.method? v.method).filter e.admits = none →
    v.result = .ok none ∧ v.rest = v.world

/-- A visit that does not fail has the result and the world of the plain visit. -/
theorem visitOf_eq {report? : Option Report} {rest : World σ}
    (h : (e.visit rounds method).run w = (.ok report?, rest)) :
    e.visitOf rounds method w = ⟨method, w, .ok report?, rest⟩ := by
  rw [visitOf, visitOrCancel_run, h]

/-- With the flag raised a visit ends at once, and the flag stays raised. -/
theorem endsAtOnce_visitOf (hrounds : 0 < rounds) (hspares : e.collaborators.Spares e.token)
    (h : e.token.IsRaised w) (method : Method) :
    e.EndsAtOnce (e.visitOf rounds method w) ∧
      e.token.IsRaised (e.visitOf rounds method w).rest := by
  cases hinfo : (e.program.method? method).filter e.admits with
  | none =>
    rw [visitOf_eq (visit_run_of_none hinfo rounds w)]
    refine ⟨⟨fun info hvisited => ?_, fun _ => ⟨rfl, rfl⟩⟩, h⟩
    cases hinfo.symm.trans hvisited
  | some info =>
    rw [visitOf_eq (visit_of_isRaised hrounds hspares h hinfo)]
    refine ⟨⟨fun found hvisited => ?_, fun hpassed => ?_⟩, isRaised_afterHead hspares h info⟩
    · obtain rfl := Option.some.inj (hinfo.symm.trans hvisited)
      exact ⟨rfl, by rw [Task.suite_afterHead]⟩
    · cases hinfo.symm.trans hpassed

theorem endsAtOnce_of_isRaised (hrounds : 0 < rounds) (hspares : e.collaborators.Spares e.token)
    (h : e.token.IsRaised w) :
    ∀ v ∈ e.visits rounds methods w, e.EndsAtOnce v := by
  induction methods generalizing w with
  | nil => exact fun v hv => nomatch hv
  | cons method methods ih =>
    obtain ⟨hfirst, hraised⟩ := endsAtOnce_visitOf hrounds hspares h method
    intro v hv
    rcases List.mem_cons.mp hv with rfl | hv
    · exact hfirst
    · exact ih hraised v hv

/-- Behind a failed visit all others end at once. -/
theorem endsAtOnce_of_fails (hrounds : 0 < rounds) (hspares : e.collaborators.Spares e.token)
    (hflag : e.token.flag < w.outside.clock.raised.length) {before after : List (MethodVisit σ)}
    (hvisits : e.visits rounds methods w = before ++ v :: after)
    (hbefore : ∀ u ∈ before, u.Succeeds) (hfails : v.Fails failure) :
    ∀ u ∈ after, e.EndsAtOnce u := by
  -- On the visits before the failed one, none of which touches the flag.
  induction before generalizing methods w with
  | nil =>
    cases methods with
    | nil => cases hvisits
    | cons method methods =>
      obtain ⟨rfl, rfl⟩ := List.cons.inj hvisits
      exact endsAtOnce_of_isRaised hrounds hspares (isRaised_of_fails hspares hflag hfails)
  | cons first before ih =>
    cases methods with
    | nil => cases hvisits
    | cons method methods =>
      obtain ⟨rfl, hrest⟩ := List.cons.inj hvisits
      rw [List.forall_mem_cons] at hbefore
      refine ih ?_ hrest hbefore.2
      have hraised := raised_of_succeeds hspares hbefore.1
      rw [List.getElem?_eq_getElem hflag] at hraised
      exact (List.getElem?_eq_some_iff.mp hraised).1

/-! ## All visits -/

theorem method_visits (methods : List Method) (w : World σ) :
    (e.visits rounds methods w).map MethodVisit.method = methods := by
  induction methods generalizing w with
  | nil => rfl
  | cons method methods ih =>
    rw [visits, List.map_cons, ih]
    rfl

theorem eq_visitOf_of_mem (h : v ∈ e.visits rounds methods w) :
    v = e.visitOf rounds v.method v.world := by
  induction methods generalizing w with
  | nil => cases h
  | cons method methods ih =>
    rcases List.mem_cons.mp h with rfl | htail
    · rfl
    · exact ih htail

/-- There is a report exactly on methods that are known and admitted. -/
theorem isSome_report_iff {report? : Option Report} {rest : World σ}
    (h : (e.visit rounds method).run w = (.ok report?, rest)) :
    report?.isSome ↔ ((e.program.method? method).filter e.admits).isSome := by
  cases hinfo : (e.program.method? method).filter e.admits with
  | none =>
    rw [visit_run_of_none hinfo] at h
    obtain rfl := Except.ok.inj (congrArg Prod.fst h)
    rfl
  | some info =>
    obtain ⟨s, result, w₁, -, ⟨failure, -, hvisit⟩ | ⟨outcome, -, hvisit⟩⟩ :=
      visit_cases hinfo rounds w
    · cases hvisit.symm.trans h
    · obtain rfl := Except.ok.inj (congrArg Prod.fst (hvisit.symm.trans h))
      rfl

theorem run_mapM_visitOrCancel (methods : List Method) (w : World σ) :
    ((methods.mapM (e.visitOrCancel rounds)).run w).1 =
      (e.visits rounds methods w).map MethodVisit.result := by
  induction methods generalizing w with
  | nil => rfl
  | cons method methods ih =>
    rw [List.mapM_cons, Act.run_bind, Act.run_bind, visits, List.map_cons, ← ih]
    rfl

/-- The first failure is the result, and the reports are when there is none. -/
theorem visitAll_run (methods : List Method) (w : World σ) :
    ((e.visitAll rounds methods).run w).1 =
      (((e.visits rounds methods w).map MethodVisit.result).mapM id).map (·.filterMap id) := by
  rw [visitAll, Act.run_bind, ← run_mapM_visitOrCancel]
  rfl

theorem mapM_of_fails {before after : List (MethodVisit σ)} (hbefore : ∀ u ∈ before, u.Succeeds)
    (hfails : v.Fails failure) :
    ((before ++ v :: after).map MethodVisit.result).mapM id = .error failure := by
  induction before with
  | nil =>
    rw [List.nil_append, List.map_cons, List.mapM_cons, hfails]
    rfl
  | cons first before ih =>
    rw [List.forall_mem_cons] at hbefore
    rw [List.cons_append, List.map_cons, List.mapM_cons, ih hbefore.2, hbefore.1]
    rfl

theorem mapM_of_succeeds {vs : List (MethodVisit σ)} (h : ∀ v ∈ vs, v.Succeeds) :
    (vs.map MethodVisit.result).mapM id = .ok (vs.map MethodVisit.report?) := by
  induction vs with
  | nil => rfl
  | cons v vs ih =>
    rw [List.forall_mem_cons] at h
    rw [List.map_cons, List.mapM_cons, ih h.2, h.1]
    rfl

/-- Let the collaborators leave the flag of the run alone. If a visit is the first to fail, its
failure is the result, and every later visit of a method that is known and admitted calls no
collaborator and ends as covered or for want of time, with nothing counted. If none fails, the
result are the reports of the known and admitted methods in order, each as the visit of its
method makes it in the world that the visits before it have left. -/
theorem visitAll_stops (hrounds : 0 < rounds) (hspares : e.collaborators.Spares e.token)
    (methods : List Method) (hflag : e.token.flag < w.outside.clock.raised.length) :
    (e.visits rounds methods w).map MethodVisit.method = methods ∧
    (∀ before v after failure, e.visits rounds methods w = before ++ v :: after →
      (∀ u ∈ before, u.Succeeds) → v.Fails failure →
      ((e.visitAll rounds methods).run w).1 = .error failure ∧ ∀ u ∈ after, e.EndsAtOnce u) ∧
    ((∀ v ∈ e.visits rounds methods w, v.Succeeds) →
      ((e.visitAll rounds methods).run w).1 =
        .ok ((e.visits rounds methods w).filterMap MethodVisit.report?) ∧
      ∀ v ∈ e.visits rounds methods w,
        (e.visit rounds v.method).run v.world = (.ok v.report?, v.rest) ∧
        (v.report?.isSome ↔ ((e.program.method? v.method).filter e.admits).isSome)) := by
  refine ⟨method_visits methods w, ?failed, ?finished⟩
  case failed =>
    intro before v after failure hvisits hbefore hfails
    refine ⟨?_, endsAtOnce_of_fails hrounds hspares hflag hvisits hbefore hfails⟩
    rw [visitAll_run, hvisits, mapM_of_fails hbefore hfails]
    rfl
  case finished =>
    intro hsucceeds
    refine ⟨?_, fun v hv => ?_⟩
    · rw [visitAll_run, mapM_of_succeeds hsucceeds]
      exact congrArg Except.ok List.filterMap_map
    · have hsucceeded := hsucceeds v hv
      have heq := eq_visitOf_of_mem hv
      have hvisit : (e.visit rounds v.method).run v.world = (.ok v.report?, v.rest) := by
        refine Prod.ext ?_ ?_
        · rw [← result_visitOf, ← heq, hsucceeded]
        · rw [heq] at hsucceeded
          rw [← rest_visitOf hsucceeded, ← heq]
      exact ⟨hvisit, isSome_report_iff hvisit⟩

end Engine

namespace FixedBranch

/-- The world in which the flag of the run exists. -/
def flagged : World Coverage where
  outside := { clock := { raised := [false] }, state := {} }

theorem spares : engine.collaborators.Spares engine.token :=
  ⟨fun _ _ => rfl, fun _ _ _ _ => rfl, fun _ _ => rfl, fun _ => rfl⟩

/-- Of two visits of the method with a fixed branch the first fails, and the second counts
nothing. -/
theorem fixed_branch_stops :
    0 < 20 ∧ engine.collaborators.Spares engine.token ∧
      engine.token.flag < flagged.outside.clock.raised.length ∧
      ∃ v u failure report, engine.visits 20 [pick, pick] flagged = [v, u] ∧
        ((engine.visitAll 20 [pick, pick]).run flagged).1 = .error failure ∧
        v.result = .error failure ∧ u.result = .ok (some report) ∧ report.iterations = 0 := by
  have hrounds : 0 < 20 := by decide
  have hflag : engine.token.flag < flagged.outside.clock.raised.length := by decide
  have hfirst : ((engine.visitOf 20 pick flagged).result).toBool = false := by decide +kernel
  cases hresult : (engine.visitOf 20 pick flagged).result with
  | ok report? =>
    rw [hresult] at hfirst
    cases hfirst
  | error failure =>
    let v := engine.visitOf 20 pick flagged
    let u := engine.visitOf 20 pick v.rest
    obtain ⟨-, hfailed, -⟩ := Engine.visitAll_stops hrounds spares [pick, pick] hflag
    obtain ⟨hall, hends⟩ := hfailed [] v [u] failure rfl (fun _ h => nomatch h) hresult
    obtain ⟨hreport, -⟩ := (hends u (List.mem_singleton_self u)).visited info method?_pick
    exact ⟨hrounds, spares, hflag, v, u, failure, _, rfl, hall, hresult, hreport, rfl⟩

end FixedBranch
end Concolic
