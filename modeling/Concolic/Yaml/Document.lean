import Concolic.Yaml.Scalar

/-!
# YAML documents

What a document says, as far as settings need it: scalars and mappings. An alias is kept as
the number of what it stands for, so that a node may be part of itself; `resolve` looks one
alias up, and readers that know how deep they go need no more.
-/

namespace Concolic.Yaml

inductive Node where
  | scalar (s : Scalar)
  | mapping (entries : List (Node × Node))
  | alias (number : Nat)

/-- The value of a key without one. -/
def Node.void : Node := .scalar {}

/-- A node with the nodes with names in it by their numbers. Of two with the same number the
one that starts last comes first. -/
structure Document where
  root : Node
  named : List (Nat × Node)

namespace Document

/-- What stands at a node: an alias stands for the node of its number. -/
def resolve (d : Document) : Node → Node
  | .alias number => (d.named.lookup number).getD .void
  | node => node

def scalar? (d : Document) (node : Node) : Option Scalar :=
  match d.resolve node with
  | .scalar s => some s
  | _ => none

/-- Whether a value that may be missing is there. -/
def isGiven? (d : Document) (node : Node) : Option Bool :=
  (d.scalar? node).elim (some true) Scalar.isGiven?

/-- The entries of a mapping, if every key is one of those given and none comes twice. A
void scalar is a mapping without entries. -/
def record? (d : Document) (keys : List String) (node : Node) : Option (List (String × Node)) :=
  match d.resolve node with
  | .mapping entries => do
    let entries ← entries.mapM fun (key, value) => (d.scalar? key).map (·.text, value)
    let given := entries.map (·.1)
    guard (given.all keys.contains && given.eraseDups.length == given.length)
    return entries
  | .scalar s => if s.isVoid then some [] else none
  | .alias _ => none

end Document

end Concolic.Yaml
