import Concolic.Cancellation
import Concolic.Config.Settings
import Concolic.Model
import Concolic.Query
import Concolic.TestSuite
import Concolic.Trace

/-!
# The engine and what surrounds it

A search asks collaborators for runs, for answers to queries and for coverage. They keep a
state of their own and may let time pass or raise a flag; beyond that nothing is assumed of
them. Nor does the world wait for a search: by the time that it looks at its token, the clock
has gone on and others may have raised flags.
-/

namespace Concolic

/-- What the solver says of a query. -/
inductive Answer where
  | sat (m : Model)
  | unsat
  | unknown (reason : String)

/-- The clock, and whatever the collaborators keep. -/
structure Outside (σ : Type) where
  clock : Cancellation := {}
  state : σ

structure Collaborators (σ : Type) where
  /-- Run a method on random arguments. -/
  runRandom : Method → StateM (Outside σ) (Except String Trace)
  /-- Run a method on given arguments. -/
  runConcrete : Method → Arena → Parameters Handle → StateM (Outside σ) (Except String Trace)
  solve : Query → StateM (Outside σ) Answer
  /-- Whether every block of a method is covered. -/
  isCovered : Method → σ → Bool
  /-- Take a trace of a method into the coverage. -/
  record : Method → Trace → σ → σ
  /-- What has happened elsewhere when a token is looked at. -/
  elapse : StateM (Outside σ) Unit := pure ()

/-- All that changes while methods are visited. -/
structure World (σ : Type) where
  names : NameSupply := {}
  suite : TestSuite := []
  outside : Outside σ

abbrev Act (σ : Type) := StateM (World σ)

namespace Act

variable {σ α : Type}

/-- Do something that takes fresh names. -/
def naming (act : StateM NameSupply α) : Act σ α :=
  modifyGet fun w =>
    let (a, names) := act w.names
    (a, { w with names })

/-- Do something outside. -/
def ask (act : StateM (Outside σ) α) : Act σ α :=
  modifyGet fun w =>
    let (a, outside) := act w.outside
    (a, { w with outside })

/-- Add to the suite. -/
def note (entry : SuiteEntry) : Act σ Unit :=
  modify fun w => { w with suite := w.suite ++ [entry] }

/-- Whether a token has fired by now. -/
def hasFired (t : Token) : Act σ Bool := return (← get).outside.clock.isCancelled t

/-- Raise the flag of a token. -/
def cancel (t : Token) : Act σ Unit :=
  modify fun w => { w with outside.clock := w.outside.clock.cancel t }

end Act

structure Engine (σ : Type) where
  program : Program
  settings : Config.Settings
  /-- Which callees are inlined. -/
  policy : Inlining.Policy := .sizeBounded settings.inliner.maxBodySize
  collaborators : Collaborators σ
  /-- Fires for the whole run; the tokens of single searches are its children. -/
  token : Token

/-- Whether a method is searched: it has a body, initializes no class, and is `main` if
nothing else is to be searched. -/
def Engine.admits {σ : Type} (e : Engine σ) (info : MethodInfo) : Bool :=
  !info.method.isStaticInitializer && info.hasBody &&
    (!e.settings.search.mainOnly || info.method.name == "main")

end Concolic
