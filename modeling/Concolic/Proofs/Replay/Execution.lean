import Concolic.Proofs.Replay.Initializers
import Concolic.Proofs.Term.Equality

/-!
# Replay is sound

A method that makes no calls can be executed on values: phis and assignments change a store,
terminators pick the next block. Executing the predicates that its trace replays to, from the
same store, passes every check, makes the same assignments in the same order and gives the
result of the method the value returned.

What terms mean is left open. Nothing is asked of it but that names are read from the store
and truth values are what they are.

## Main statements

* `execute_block` — one block, left for the next, and its predicates make the same assignments.
* `build_executes` — a run of any length and what it replays to make the same assignments.
-/

namespace Concolic

/-- The values of names; not every name has one. -/
abbrev Store (V : Type) := Term → Option V

/-- Assignments that were made, in order. -/
abbrev Moves (V : Type) := List (Term × V)

namespace Store

variable {V : Type}

def set (s : Store V) (target : Term) (value : V) : Store V :=
  fun t => if t == target then some value else s t

def update (s : Store V) (moves : Moves V) : Store V :=
  moves.foldl (fun s move => s.set move.1 move.2) s

@[simp] theorem update_nil (s : Store V) : s.update [] = s := rfl

@[simp] theorem update_append (s : Store V) (first second : Moves V) :
    s.update (first ++ second) = (s.update first).update second := List.foldl_append

theorem update_concat_self (s : Store V) (moves : Moves V) (target : Term) (value : V) :
    s.update (moves ++ [(target, value)]) target = some value := by
  rw [update_append]
  simp [update, set]

end Store

/-- What terms mean, given a store. -/
structure Meaning (V : Type) where
  eval : Store V → Term → Option V
  ofBool : Bool → V
  eval_named (s : Store V) {t : Term} : t.isNamed = true → eval s t = s t
  eval_bool (s : Store V) (b : Bool) : eval s (.bool b) = some (ofBool b)

namespace Meaning

open Replay

variable {V : Type} (M : Meaning V)

/-! ## Executing a method -/

/-- The assignment of the value of a term. Only names can be assigned to. -/
def assign? (s : Store V) (target value : Term) : Option (Term × V) :=
  if target.isNamed then (M.eval s value).map (target, ·) else none

/-- The values that phis take when control comes from a block. All of them are read before any
is assigned. -/
def runPhis (s : Store V) (previous : Option BlockId) : List Phi → Option (Moves V)
  | [] => some []
  | phi :: phis =>
    match previous.bind phi.from? with
    | none => runPhis s previous phis
    | some value =>
      (M.assign? s phi.target value).bind fun move => (runPhis s previous phis).map (move :: ·)

/-- The assignments of a body; there is nothing else in a body that can be executed. -/
def runBody (s : Store V) : List Predicate → Option (Moves V)
  | [] => some []
  | ⟨.state, .equal target value, _⟩ :: body =>
    (M.assign? s target value).bind fun move =>
      (runBody (s.set move.1 move.2) body).map (move :: ·)
  | _ :: _ => none

def runBlock (s : Store V) (previous : Option BlockId) (block : Block) : Option (Moves V) :=
  (M.runPhis s previous block.phis).bind fun phis =>
    (M.runBody (s.update phis) block.body).map (phis ++ ·)

/-- Where control goes from a terminator. -/
inductive Passes (s : Store V) : Terminator → BlockId → Prop
  | jump {target : BlockId} : Passes s (.jump target) target
  | whenTrue {condition : Term} {whenTrue whenFalse : BlockId} :
      M.eval s condition = some (M.ofBool true) →
      Passes s (.branch condition whenTrue whenFalse) whenTrue
  | whenFalse {condition : Term} {whenTrue whenFalse : BlockId} :
      M.eval s condition = some (M.ofBool false) →
      Passes s (.branch condition whenTrue whenFalse) whenFalse

/-- What a method returns; none stands for nothing. -/
inductive Returns (s : Store V) : Terminator → Option V → Prop
  | nothing : Returns s (.return none) none
  | value {value : Term} {v : V} : M.eval s value = some v → Returns s (.return (some value)) v

/-- What can be seen of a run: the blocks left, the assignments made and what is returned. -/
structure Observation (V : Type) where
  events : Trace
  moves : Moves V
  returned : Option V

/-- The runs of a method from one of its blocks to its return. -/
inductive Runs (program : Program) (method : Method) :
    Option BlockId → BlockId → Store V → Observation V → Prop
  | last {previous : Option BlockId} {id : BlockId} {s : Store V} {block : Block}
      {moves : Moves V} {returned : Option V} :
      program.block? method id = .ok (some block) →
      M.runBlock s previous block = some moves →
      M.Returns (s.update moves) block.terminator returned →
      Runs program method previous id s ⟨[.returned method id], moves, returned⟩
  | next {previous : Option BlockId} {id next : BlockId} {s : Store V} {block : Block}
      {moves : Moves V} {rest : Observation V} :
      program.block? method id = .ok (some block) →
      M.runBlock s previous block = some moves →
      M.Passes (s.update moves) block.terminator next →
      Runs program method (some id) next (s.update moves) rest →
      Runs program method previous id s
        ⟨.passed method id :: rest.events, moves ++ rest.moves, rest.returned⟩

/-! ## Executing predicates -/

variable [DecidableEq V]

/-- What a predicate assigns: equalities of states are assignments, those of paths are checks
that may fail. -/
def perform (s : Store V) (p : Predicate) : Option (Moves V) :=
  match p with
  | ⟨.state, .equal target value, _⟩ => (M.assign? s target value).map ([·])
  | ⟨.path, .equal a b, _⟩ =>
    if M.eval s a = M.eval s b ∧ (M.eval s a).isSome then some [] else none
  | _ => none

/-- What predicates assign, one after the other. -/
def execute (s : Store V) : List Predicate → Option (Moves V)
  | [] => some []
  | p :: rest =>
    (M.perform s p).bind fun moves => (execute (s.update moves) rest).map (moves ++ ·)

variable {M} {s : Store V} {previous : Option BlockId} {block : Block} {moves : Moves V}

theorem execute_append {first second : List Predicate} {later : Moves V}
    (hfirst : M.execute s first = some moves)
    (hsecond : M.execute (s.update moves) second = some later) :
    M.execute s (first ++ second) = some (moves ++ later) := by
  induction first generalizing s moves with
  | nil =>
    obtain rfl := Option.some.inj hfirst
    exact hsecond
  | cons p rest ih =>
    rw [execute, Option.bind_eq_some_iff] at hfirst
    obtain ⟨own, hown, hrest⟩ := hfirst
    obtain ⟨others, hothers, rfl⟩ := Option.map_eq_some_iff.mp hrest
    rw [Store.update_append] at hsecond
    rw [List.cons_append, execute, hown, Option.bind_some, ih hothers hsecond, Option.map_some,
      List.append_assoc]

theorem execute_assignment {target value : Term} {move : Term × V}
    (h : M.assign? s target value = some move) :
    M.execute s [assignment target value] = some [move] := by
  simp [execute, perform, assignment, h]

theorem execute_check {condition : Term} {b : Bool}
    (h : M.eval s condition = some (M.ofBool b)) :
    M.execute s [⟨.path, .equal condition (.bool b), {}⟩] = some [] := by
  simp [execute, perform, h, M.eval_bool]

/-! ## One block -/

/-- A single phi takes its value as its binding does. Several would not: a phi may read what
another one assigns. -/
theorem execute_phiBindings {phis : List Phi} (hone : phis.length ≤ 1)
    (h : M.runPhis s previous phis = some moves) :
    M.execute s (phiBindings none previous phis) = some moves := by
  match phis with
  | [] => cases previous <;> exact h
  | [phi] =>
    cases previous with
    | none => exact h
    | some id =>
      simp only [runPhis, Option.bind_some] at h
      simp only [phiBindings, Option.toList_some, List.flatMap_singleton]
      cases hfrom : phi.from? id with
      | none =>
        rw [hfrom] at h
        exact h
      | some value =>
        rw [hfrom] at h
        obtain ⟨move, hmove, hmoves⟩ := Option.bind_eq_some_iff.mp h
        obtain rfl := Option.some.inj hmoves
        exact execute_assignment hmove

/-- A body that can be executed makes no calls, and is executed as the predicates it is. -/
theorem execute_body {body : List Predicate} (h : M.runBody s body = some moves) :
    M.execute s body = some moves ∧ body.filterMap Frame.calledMethod? = [] := by
  induction body generalizing s moves with
  | nil => exact ⟨h, rfl⟩
  | cons p body ih =>
    unfold runBody at h
    split at h
    · next heq => cases heq
    · next target value location body' heq =>
      obtain ⟨rfl, rfl⟩ := List.cons.inj heq
      obtain ⟨move, hmove, hrest⟩ := Option.bind_eq_some_iff.mp h
      obtain ⟨later, hlater, rfl⟩ := Option.map_eq_some_iff.mp hrest
      obtain ⟨hbody, hcalls⟩ := ih hlater
      refine ⟨?_, hcalls⟩
      have hassigned : M.execute s [⟨.state, .equal target value, location⟩] = some [move] := by
        simp [execute, perform, hmove]
      exact execute_append hassigned hbody
    · cases h

theorem spliced_nil (body : List Predicate) : spliced none body [] = body := by
  induction body with
  | nil => rfl
  | cons p body ih =>
    rw [spliced]
    · exact congrArg (p :: ·) ih
    · intro _ _ _ _ hcallees
      cases hcallees

/-- The predicates of a block make the assignments of the block. -/
theorem execute_block (hone : block.phis.length ≤ 1)
    (h : M.runBlock s previous block = some moves) :
    M.execute s (phiBindings none previous block.phis ++ spliced none block.body []) =
        some moves ∧
      block.body.filterMap Frame.calledMethod? = [] := by
  obtain ⟨phis, hphis, hrest⟩ := Option.bind_eq_some_iff.mp h
  obtain ⟨body, hbody, rfl⟩ := Option.map_eq_some_iff.mp hrest
  obtain ⟨hexecute, hcalls⟩ := execute_body hbody
  rw [spliced_nil]
  exact ⟨execute_append (execute_phiBindings hone hphis) hexecute, hcalls⟩

/-- The way to the next block is checked with success, though only the block is known. -/
theorem execute_passage {terminator : Terminator} {next : BlockId}
    (h : M.Passes s terminator next) :
    M.execute s (passage none next terminator) = some [] := by
  cases h with
  | jump => rfl
  | @whenTrue condition whenTrue whenFalse heval =>
    by_cases hsame : next = whenFalse
    · rw [passage, if_pos hsame]
      rfl
    · rw [passage, if_neg hsame, if_pos rfl]
      exact execute_check heval
  | @whenFalse condition whenTrue whenFalse heval =>
    by_cases hsame : whenTrue = next
    · rw [passage, if_pos hsame]
      rfl
    · rw [passage, if_neg hsame, if_neg (Ne.symm hsame), if_pos rfl]
      exact execute_check heval

/-- What a method that returns binds its result to. -/
theorem execute_resultBinding {terminator : Terminator} {returned : Option V}
    (program : Program) (method : Method) (h : M.Returns s terminator returned) :
    ∃ type, (∀ info, program.method? method = some info → type = info.result) ∧
      M.execute s (resultBinding none (fun value => some (resultTerm program method value))
        .returned terminator) = some (returned.toList.map (Term.result type method, ·)) := by
  cases h with
  | nothing => exact ⟨((program.method? method).map (·.result)).getD .int,
      fun info hinfo => by rw [hinfo]; rfl, rfl⟩
  | @value value v heval =>
    refine ⟨((program.method? method).map (·.result)).getD value.type,
      fun info hinfo => by rw [hinfo]; rfl, execute_assignment ?_⟩
    simp only [assign?, resultTerm, Names.term, Option.elim_none, Term.result, Term.isNamed, heval]
    rfl

/-! ## Whole runs -/

variable {program : Program} {method : Method}

/-- A run is a frame without calls whose flattening makes the assignments of the run. The
induction is on the run: every time round a loop adds a block to the frame. -/
theorem execute_visits
    (hone : ∀ id block, program.block? method id = .ok (some block) → block.phis.length ≤ 1)
    {id : BlockId} {seen : Observation V} (h : M.Runs program method previous id s seen) :
    ∃ visits : Visits, visits.first = id ∧ visits.Fits program method ∧
      visits.events method = seen.events ∧
      ∃ type, (∀ info, program.method? method = some info → type = info.result) ∧
        M.execute s (visits.flatten program none
            (fun value => some (resultTerm program method value)) previous 0) =
          some (seen.moves ++ seen.returned.toList.map (Term.result type method, ·)) := by
  induction h with
  | @last previous id s block moves returned hblock hmoves hreturns =>
    obtain ⟨hexecute, hcalls⟩ := execute_block (hone id block hblock) hmoves
    obtain ⟨type, htype, hresult⟩ := execute_resultBinding program method hreturns
    exact ⟨.last id block .done .returned, rfl, ⟨hblock, hcalls, trivial⟩, rfl, type, htype,
      execute_append hexecute hresult⟩
  | @next previous id next s block moves rest hblock hmoves hpasses _ ih =>
    obtain ⟨hexecute, hcalls⟩ := execute_block (hone id block hblock) hmoves
    obtain ⟨visits, rfl, hfits, hevents, type, htype, hrest⟩ := ih
    refine ⟨.next id block .done visits, rfl, ⟨hblock, hcalls, trivial, hfits⟩,
      congrArg (Event.passed method id :: ·) hevents, type, htype, ?_⟩
    have hpassage := execute_append hexecute (execute_passage hpasses)
    rw [List.append_nil] at hpassage
    rw [List.append_assoc]
    exact execute_append hpassage hrest

/-- **Replay is sound.** Take a method whose blocks have one phi at most, and a run of it from
any store, of any length. Executing from that store what the trace of the run replays to passes
every check and makes the assignments of the run, followed by one of the value returned to the
result of the method, if a value is returned. -/
theorem build_executes
    (hone : ∀ id block, program.block? method id = .ok (some block) → block.phis.length ≤ 1)
    {entry : BlockId} {seen : Observation V} (h : M.Runs program method none entry s seen) :
    ∃ predicates type,
      build program method (.entered method :: seen.events) = .ok (.basic predicates) ∧
      (∀ info, program.method? method = some info → type = info.result) ∧
      M.execute s predicates =
        some (seen.moves ++ seen.returned.toList.map (Term.result type method, ·)) ∧
      ∀ v, seen.returned = some v →
        M.eval (s.update (seen.moves ++ [(.result type method, v)])) (.result type method) =
          some v := by
  obtain ⟨visits, -, hfits, hevents, type, htype, hexecute⟩ := execute_visits hone h
  refine ⟨_, type, ?_, htype, hexecute, fun v _ => ?_⟩
  · rw [← hevents]
    exact build_events ⟨method, visits⟩ hfits
  · rw [M.eval_named _ rfl, Store.update_concat_self]

end Meaning

/-!
## A loop

A method that counts its argument down to zero and returns the sum of the numbers on the way.
-/

namespace Summing

open Replay

def sum : Method := ⟨"Sum", "sum", "(I)I"⟩

def limit : Term := .argument .int 0

def total : Term := .value .int "total"

/-- The number of the round, and that of the next one. -/
def number : Term := .value .int "n"

def smaller : Term := .value .int "m"

def start : Block := ⟨⟨0⟩, [], [assignment total (.int 0)], .jump ⟨1⟩⟩

def check : Block where
  id := ⟨1⟩
  phis := [⟨number, [(⟨0⟩, limit), (⟨2⟩, smaller)]⟩]
  body := []
  terminator := .branch (.compare .eq number (.int 0)) ⟨3⟩ ⟨2⟩

def round : Block where
  id := ⟨2⟩
  phis := []
  body := [assignment total (.arithmetic .add .int total number),
    assignment smaller (.arithmetic .sub .int number (.int 1))]
  terminator := .jump ⟨1⟩

def finish : Block := ⟨⟨3⟩, [], [], .return (some total)⟩

def program : Program :=
  Program.Table.toProgram { methods := [{
    info := ⟨sum, [.int], .int, true, false, false⟩
    blocks := [start, check, round, finish]
    body := .absent }] }

theorem length_phis (id : BlockId) (block : Block)
    (h : program.block? sum id = .ok (some block)) : block.phis.length ≤ 1 := by
  have hfound : [start, check, round, finish].find? (fun block => block.id == id) = some block :=
    Except.ok.inj h
  have hmem := List.mem_of_find?_eq_some hfound
  simp only [List.mem_cons, List.not_mem_nil, or_false] at hmem
  rcases hmem with rfl | rfl | rfl | rfl <;> decide

/-- Whole numbers, with one for true and zero for false. -/
def eval (s : Store Int) : Term → Option Int
  | .leaf _ (.literal (.int i)) => some i.toInt
  | .leaf _ (.literal (.bool b)) => some b.toInt
  | .leaf type l => s (.leaf type l)
  | .binary (.arithmetic .add) _ a b => do return (← eval s a) + (← eval s b)
  | .binary (.arithmetic .sub) _ a b => do return (← eval s a) - (← eval s b)
  | .binary (.compare .eq) _ a b => do return (decide ((← eval s a) = (← eval s b))).toInt
  | _ => none

def meaning : Meaning Int where
  eval := eval
  ofBool b := b.toInt
  eval_named s t h := by
    unfold Term.isNamed at h
    split at h <;> first | rfl | cases h
  eval_bool _ _ := rfl

def given (n : Int) : Store Int := fun t => if t == limit then some n else none

/-- From two the loop is gone through twice and gives three, and so does its path. -/
theorem build_sum_two : ∃ seen, meaning.Runs program sum none ⟨0⟩ (given 2) seen ∧
    seen.moves = [(total, 0), (number, 2), (total, 2), (smaller, 1), (number, 1), (total, 3),
      (smaller, 0), (number, 0)] ∧
    seen.returned = some 3 ∧
    ∃ predicates type,
      build program sum (.entered sum :: seen.events) = .ok (.basic predicates) ∧
      (∀ info, program.method? sum = some info → type = info.result) ∧
      meaning.execute (given 2) predicates =
        some (seen.moves ++ seen.returned.toList.map (Term.result type sum, ·)) ∧
      ∀ v, seen.returned = some v →
        meaning.eval ((given 2).update (seen.moves ++ [(.result type sum, v)]))
          (.result type sum) = some v := by
  have hlast (s : Store Int) (v : Int) (h : eval s total = some v) :
      meaning.Runs program sum (some ⟨1⟩) ⟨3⟩ s ⟨[.returned sum ⟨3⟩], [], some v⟩ :=
    .last rfl rfl (.value h)
  have hrun : meaning.Runs program sum none ⟨0⟩ (given 2) _ :=
    .next rfl rfl .jump (.next rfl rfl (.whenFalse rfl) (.next rfl rfl .jump
      (.next rfl rfl (.whenFalse rfl) (.next rfl rfl .jump (.next rfl rfl (.whenTrue rfl)
        (hlast _ 3 rfl))))))
  exact ⟨_, hrun, rfl, rfl, Meaning.build_executes length_phis hrun⟩

end Summing
end Concolic
