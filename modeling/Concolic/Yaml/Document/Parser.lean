import Concolic.Yaml.Document
import Concolic.Yaml.Token

/-!
# Documents of tokens

The node that the only document of a text consists of. A key without a value has the void
scalar, and so has a tag or an anchor without content. Keys are not looked into here.

Anchors name nodes, and an alias stands for the node named last before it. Names are numbered
by how many different names there were before. Since a name that is given again gets a new
number without being a new name, the next new name shares that number; aliases of both stand
for whichever of the nodes starts last.
-/

namespace Concolic.Yaml

structure Parser where
  /-- The tokens left. -/
  tokens : List Token
  handles : Tag.Handles := .standard
  /-- The names given so far with their numbers, the latest first. -/
  names : List (String × Nat) := []
  /-- The nodes with names by their numbers, in the order in which they start. A node that is
  not complete is void. -/
  named : Array (Nat × Node) := #[]

abbrev Parse := StateT Parser Option

namespace Parse

/-- The next token, if there is one. -/
def peek : Parse (Option Token) := return (← get).tokens.head?

def skip : Parse Unit := modify fun p => { p with tokens := p.tokens.tail }

/-- Go over the next token, if it is the given one. -/
def accept (t : Token) : Parse Bool := do
  let found := (← peek) == some t
  if found then skip
  return found

/-! ## Properties of nodes -/

/-- Go over a tag, if one comes next. -/
def tag : Parse (Option Tag) := do
  match ← peek with
  | some (.tag written) =>
    skip
    return some (← Tag.ofWritten? (← get).handles written)
  | _ => return none

/-- Go over an anchor, if one comes next. -/
def anchor : Parse (Option String) := do
  match ← peek with
  | some (.anchor name) =>
    skip
    return some name
  | _ => return none

/-- Go over a tag and an anchor, in either order. -/
def properties : Parse (Option Tag × Option String) := do
  let before ← tag
  let name ← anchor
  let behind ← if before.isNone then tag else pure none
  return (before.or behind, name)

/-- Name the node that starts here. Gives its place among the nodes with names. -/
def start (name : String) : Parse Nat := do
  let p ← get
  let number := (p.names.map (·.1)).eraseDups.length
  set { p with names := (name, number) :: p.names, named := p.named.push (number, .void) }
  return p.named.size

/-- Complete the node at a place. -/
def finish (place : Nat) (n : Node) : Parse Unit :=
  modify fun p => { p with named := p.named.modify place fun (number, _) => (number, n) }

/-! ## Nodes -/

/-- The node, unless one of the given tokens is in its place. -/
def unlessAt (ends : List Token) (node : Parse Node) : Parse Node := do
  if (← peek).any ends.contains then return .void else node

/-- The value behind a key, if there is one before the given tokens. -/
def valueOr (ends : List Token) (node : Parse Node) : Parse Node := do
  if ← accept .value then unlessAt ends node else return .void

mutual

/-- A node; block mappings only where blocks may be. -/
def node : (fuel : Nat) → (inBlock : Bool) → Parse Node
  | 0, _ => failure
  | fuel + 1, inBlock => do
    if let some (.alias name) ← peek then
      skip
      return .alias (← (← get).names.lookup name)
    else
      let (tag, name) ← properties
      match name with
      | none => content fuel inBlock tag false
      | some name =>
        let place ← start name
        let n ← content fuel inBlock tag true
        finish place n
        return n

/-- A node behind its properties; where there are some, it may be void. -/
def content : (fuel : Nat) → (inBlock : Bool) → (tag : Option Tag) → (hasName : Bool) → Parse Node
  | 0, _, _, _ => failure
  | fuel + 1, inBlock, tag, hasName => do
    match ← peek, inBlock with
    | some (.scalar style text), _ =>
      skip
      return .scalar { style, tag, text }
    | some .braceOpen, _ =>
      skip
      .mapping <$> flowEntries fuel true
    | some .blockStart, true =>
      skip
      .mapping <$> blockEntries fuel
    | _, _ =>
      guard (tag.isSome || hasName)
      return .scalar { tag }

/-- The entries of a block up to its end. -/
def blockEntries : (fuel : Nat) → Parse (List (Node × Node))
  | 0 => failure
  | fuel + 1 => do
    if ← accept .blockEnd then return []
    guard (← accept .key)
    let ends := [.key, .value, .blockEnd]
    let key ← unlessAt ends (node fuel true)
    let value ← valueOr ends (node fuel true)
    return (key, value) :: (← blockEntries fuel)

/-- The entries between braces, the first ones or those behind others. -/
def flowEntries : (fuel : Nat) → (isFirst : Bool) → Parse (List (Node × Node))
  | 0, _ => failure
  | fuel + 1, isFirst => do
    if ← accept .braceClose then return []
    if !isFirst then
      guard (← accept .separator)
      if ← accept .braceClose then return []
    if ← accept .key then
      let key ← unlessAt [.value, .separator, .braceClose] (node fuel false)
      let value ← valueOr [.separator, .braceClose] (node fuel false)
      return (key, value) :: (← flowEntries fuel false)
    else
      let key ← node fuel false
      return (key, .void) :: (← flowEntries fuel false)

end

/-! ## Documents -/

/-- Go over the directives: at most one version, which is 1.1 or 1.2, and handles, none of
them twice. Gives whether there are any. -/
def directives (hasVersion : Bool) (declared : Tag.Handles) : (fuel : Nat) → Parse Bool
  | 0 => failure
  | fuel + 1 => do
    match ← peek with
    | some (.version major minor) =>
      guard (!hasVersion && major = 1 && (minor = 1 || minor = 2))
      skip
      directives true declared fuel
    | some (.handle name lead) =>
      guard ((declared.lookup name).isNone)
      skip
      directives hasVersion ((name, lead) :: declared) fuel
    | _ =>
      modify fun p => { p with handles := declared ++ p.handles }
      return hasVersion || !declared.isEmpty

/-- The node of the only document. Behind directives the document has to be marked. -/
def document (fuel : Nat) : Parse Document := do
  guard (!(← get).tokens.isEmpty)
  let hasDirectives ← directives false [] fuel
  let isMarked ← accept .documentStart
  guard (isMarked || !hasDirectives)
  let root ←
    if isMarked && (← peek).all (· == .documentEnd) then pure .void else node fuel true
  let p ← get
  guard (p.tokens.all (· == .documentEnd))
  return { root, named := p.named.toList.reverse }

end Parse

/-- The only document of a text. -/
def Document.ofText? (text : String) : Option Document := do
  let tokens ← Token.ofText? text
  let (document, _) ← (Parse.document (3 * tokens.length + 4)).run { tokens }
  return document

end Concolic.Yaml
