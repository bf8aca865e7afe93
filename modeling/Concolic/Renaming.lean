import Concolic.Revision
import Concolic.Term.Build

/-!
# Renaming

Terms with an entry are replaced by it; every other argument, value and result becomes a
value whose name carries a suffix. Replacements are not renamed again. Used where the names
of a body must not meet those of the state it is put into.
-/

namespace Concolic

structure Renaming where
  suffix : String
  /-- Terms and their replacements, the latest entry first. -/
  entries : List (Term × Term) := []

namespace Renaming

/-- Add an entry, which takes the place of an earlier one for the same term. -/
def insert (r : Renaming) (t replacement : Term) : Renaming :=
  { r with entries := (t, replacement) :: r.entries }

def find? (r : Renaming) (t : Term) : Option Term :=
  (r.entries.find? fun entry => entry.1 == t).map (·.2)

/-- The name of a leaf with the suffix. -/
def suffixed (r : Renaming) (t : Term) : Term :=
  .value t.type (t.text ++ "." ++ r.suffix)

/-- Entries first; then leaves that name a place get the suffix. -/
def rules (r : Renaming) : Rules Id where
  shortcut := r.find?
  term t := if t.isNamed then r.suffixed t else t

def onTerm (r : Renaming) (t : Term) : Term := r.rules.reviseTerm t

def onState (r : Renaming) (s : SymbolicState) : SymbolicState := r.rules.revise false s

/-- A predicate with its operands renamed. -/
def onPredicate (r : Renaming) (p : Predicate) : Predicate := p.mapOperands r.onTerm

end Renaming
end Concolic
