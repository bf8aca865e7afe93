import Concolic.Yaml.Scalar
import Concolic.Yaml.Scalar.Written

/-!
# Tokens of YAML documents

The marks and scalars of a text in order. Indentation becomes tokens of its own: a block
mapping opens where its first key stands and closes where something less indented comes.

That something is a key shows only at the colon behind it. So whatever may be a key is
remembered with its slot, and the colon puts the tokens of a key in front of what stands
there. A key has to be on one line with its colon. Where the indentation asks for a key,
anything else is refused.

Sequences have no place in settings, so they are refused at their first mark.
-/

namespace Concolic.Yaml

inductive Token where
  | blockStart
  | blockEnd
  | braceOpen
  | braceClose
  | separator
  | key
  | value
  | anchor (name : String)
  | alias (name : String)
  | tag (written : Tag.Written)
  | scalar (style : Style) (text : String)
  | documentStart
  | documentEnd
  /-- The version of YAML that the document is written in. -/
  | version (major minor : Nat)
  /-- A handle for tags that the document declares. -/
  | handle (name : String) (lead : List UInt8)
  deriving DecidableEq

/-- What may turn out to be a key. -/
structure PendingKey where
  /-- The slot of its first token. -/
  slot : Nat
  line : Nat
  column : Nat
  /-- Whether nothing but a key may stand there. -/
  isRequired : Bool

structure Scanner where
  source : Source
  /-- The tokens so far. A slot holds one that was read, and before it those put in front. -/
  slots : Array (List Token) := #[]
  /-- The least column of what belongs to the innermost block: its own column and one more,
  or zero outside all blocks. -/
  level : Nat := 0
  /-- The levels of the blocks around it. -/
  outer : List Nat := []
  /-- The pending key within each open brace and outside them, the innermost first. -/
  pending : List (Option PendingKey) := [none]
  /-- Whether a key may start here. -/
  keyAllowed : Bool := true

abbrev Scan := StateT Scanner Option

namespace Scanner

def inFlow (s : Scanner) : Bool := 1 < s.pending.length

/-- The tokens in order. -/
def tokens (s : Scanner) : List Token := s.slots.toList.flatten

/-- Put tokens in front of a slot. -/
def insertAt (s : Scanner) (slot : Nat) (ts : List Token) : Scanner :=
  { s with slots := s.slots.modify slot (ts ++ ·) }

/-- Go over blanks, comments and line ends. In a block a new line may start with a key; a
tab may not stand where one may start. A line may start with a byte order mark, which takes
up a column. -/
def skipSpace : (fuel : Nat) → Scanner → Scanner
  | 0, s => s
  | fuel + 1, s =>
    let source :=
      if s.source.column = 0 && s.source.rest.head? == some '\ufeff' then s.source.next
      else s.source
    let mayTab := s.inFlow || !s.keyAllowed
    let (_, source) := source.take fun c => c == ' ' || (mayTab && c == '\t')
    let source := if source.rest.head? == some '#' then (source.take (!isBreak ·)).2 else source
    if source.rest.head?.any isBreak then
      skipSpace fuel { s with source := source.next, keyAllowed := s.keyAllowed || !s.inFlow }
    else { s with source }

/-- Whether a pending key can no longer be one: its line is over, or it is too long. -/
def isStale (s : Scanner) (k : PendingKey) : Bool :=
  k.line < s.source.line || k.column + 1024 < s.source.column

end Scanner

namespace Scan

def emit (t : Token) : Scan Unit :=
  modify fun s => { s with slots := s.slots.push [t] }

/-- Go on behind a number of characters. -/
def skip (n : Nat) : Scan Unit :=
  modify fun s => { s with source := s.source.drop n }

def allowKey (allowed : Bool) : Scan Unit :=
  modify fun s => { s with keyAllowed := allowed }

/-- Read something at the source. -/
def reading {α : Type} (read : Scanner → Option (α × Source)) : Scan α := do
  let (a, source) ← read (← get)
  modify fun s => { s with source }
  return a

/-! ## Pending keys -/

/-- Forget the pending keys that can no longer be keys. -/
def dropStaleKeys : Scan Unit := do
  let s ← get
  guard (s.pending.all fun k => !(k.any fun k => k.isRequired && s.isStale k))
  set { s with pending := s.pending.map (Option.filter fun k => !s.isStale k) }

/-- What stands here is no key of the braces or the block it is in. -/
def dropKey : Scan Unit := do
  let s ← get
  guard !(s.pending.head?.join.any (·.isRequired))
  set { s with pending := none :: s.pending.tail }

/-- What starts here may be a key, if one is allowed. -/
def saveKey : Scan Unit := do
  let s ← get
  if s.keyAllowed then
    dropKey
    let k : PendingKey :=
      { slot := s.slots.size, line := s.source.line, column := s.source.column
        isRequired := !s.inFlow && s.level == s.source.column + 1 }
    modify fun s => { s with pending := some k :: s.pending.tail }

/-! ## Blocks -/

/-- Close the blocks whose contents start behind a column. -/
def closeBlocks (least : Nat) : (outer : List Nat) → Scan Unit
  | [] => pure ()
  | above :: outer => do
    if least < (← get).level then
      emit .blockEnd
      modify fun s => { s with level := above, outer }
      closeBlocks least outer

/-- Close the blocks that do not reach a column; braces hold no blocks. -/
def closeBlocksTo (least : Nat) : Scan Unit := do
  let s ← get
  if !s.inFlow then closeBlocks least s.outer

/-- The opening of a block mapping at a column, unless it is open. -/
def openBlock (column : Nat) : Scan (List Token) := do
  let s ← get
  if s.inFlow || column < s.level then return []
  set { s with level := column + 1, outer := s.level :: s.outer }
  return [.blockStart]

/-! ## Single tokens -/

/-- A mark of one character behind which no key can start. -/
def mark (t : Token) (length : Nat) (thenKey : Bool) : Scan Unit := do
  dropKey
  allowKey thenKey
  emit t
  skip length

def braceOpen : Scan Unit := do
  saveKey
  modify fun s => { s with pending := none :: s.pending }
  allowKey true
  emit .braceOpen
  skip 1

def braceClose : Scan Unit := do
  dropKey
  modify fun s => { s with pending := if s.inFlow then s.pending.tail else s.pending }
  allowKey false
  emit .braceClose
  skip 1

/-- The mark of a key that does not show by its colon alone. -/
def explicitKey : Scan Unit := do
  let s ← get
  guard (s.inFlow || s.keyAllowed)
  (← openBlock s.source.column).forM emit
  mark .key 1 !s.inFlow

/-- A colon, which makes a key of what is pending. -/
def value : Scan Unit := do
  let s ← get
  match s.pending.head?.join with
  | some k =>
    let opening ← openBlock k.column
    modify fun s => (s.insertAt k.slot (opening ++ [.key]))
    modify fun s => { s with pending := none :: s.pending.tail, keyAllowed := false }
  | none =>
    guard (s.inFlow || s.keyAllowed)
    (← openBlock s.source.column).forM emit
    allowKey !s.inFlow
  emit .value
  skip 1

/-- A name behind its mark, and what may follow one. -/
def name? (s : Source) : Option (String × Source) := do
  let (cs, s) := s.next.take isNameChar
  guard (!cs.isEmpty && (atGap s.rest || s.rest.head?.any fun c => "?:,]\x7d%@\x60".contains c))
  return (.ofList cs, s)

/-- Something that may be a key or belong to one. -/
def nodePart (read : Scanner → Option (Token × Source)) : Scan Unit := do
  saveKey
  allowKey false
  emit (← reading read)

def plainScalar : Scan Unit := do
  saveKey
  allowKey false
  let s ← get
  let (text, onNewLine, source) ←
    plain? s.inFlow s.level (s.source.rest.length + 1) [] s.source
  set { s with source, keyAllowed := onNewLine }
  emit (.scalar .plain (.ofList text))

def blockScalar (isFolded : Bool) : Scan Unit := do
  dropKey
  allowKey true
  let text ← reading fun s => blockScalar? isFolded s.level s.source.next
  emit (.scalar (if isFolded then .folded else .literal) (.ofList text))

/-- The version behind the name of its directive. -/
def version? (s : Source) : Option (Token × Source) := do
  let digits (s : Source) : Option (Nat × Source) := do
    let (cs, s) := s.take Char.isDigit
    guard (cs.length ≤ 9)
    return (← digits? 10 cs, s)
  let (major, s) ← digits s
  guard (s.rest.head? == some '.')
  let (minor, s) ← digits s.next
  return (.version major minor, s)

/-- The line of a directive with its end: a version or a handle, and behind it a comment at
most. Others are refused. -/
def directive? (s : Source) : Option (Token × Source) := do
  let (name, s) := s.next.take isNameChar
  guard (atGap s.rest)
  let (_, s) := s.take isBlank
  let (t, s) ←
    if name == "YAML".toList then version? s
    else if name == "TAG".toList then
      (Tag.declared? s).map fun ((handle, lead), s) => (.handle handle lead, s)
    else none
  let (_, s) := s.take isBlank
  guard (s.rest.head?.all fun c => c == '#' || isBreak c)
  return (t, (s.take (!isBreak ·)).2.next)

/-! ## All tokens -/

/-- Read the next token, if there is one. -/
def token? : Scan Bool := do
  modify fun s => s.skipSpace (s.source.rest.length + 1)
  dropStaleKeys
  let s ← get
  closeBlocksTo (s.source.column + 1)
  let cs := s.source.rest
  match cs with
  | [] =>
    closeBlocksTo 0
    dropKey
    return false
  | c :: rest =>
    if s.source.column = 0 && c == '%' then
      closeBlocksTo 0
      dropKey
      allowKey false
      emit (← reading fun s => directive? s.source)
    else if s.source.isAt "---" then
      closeBlocksTo 0
      mark .documentStart 3 false
    else if s.source.isAt "..." then
      closeBlocksTo 0
      mark .documentEnd 3 false
    else if c == '\x7b' then braceOpen
    else if c == '\x7d' then braceClose
    else if c == ',' then mark .separator 1 true
    else if c == '-' && atGap rest then failure
    else if c == '?' && (s.inFlow || atGap rest) then explicitKey
    else if c == ':' && (s.inFlow || atGap rest) then value
    else if c == '*' then nodePart fun s => (name? s.source).map fun (n, s) => (.alias n, s)
    else if c == '&' then nodePart fun s => (name? s.source).map fun (n, s) => (.anchor n, s)
    else if c == '!' then
      nodePart fun s => (Tag.written? s.inFlow s.source).map fun (w, s) => (.tag w, s)
    else if c == '|' && !s.inFlow then blockScalar false
    else if c == '>' && !s.inFlow then blockScalar true
    else if c == '\'' then
      nodePart fun s => (singleQuoted? cs.length s.source.next).map fun (text, s) =>
        (.scalar .quoted (.ofList text), s)
    else if c == '"' then
      nodePart fun s => (doubleQuoted? cs.length s.source.next).map fun (text, s) =>
        (.scalar .quoted (.ofList text), s)
    else if startsPlain s.inFlow cs then plainScalar
    else failure
    return true

/-- Read all tokens. -/
def all : (fuel : Nat) → Scan Unit
  | 0 => failure
  | fuel + 1 => do if ← token? then all fuel

end Scan

/-- The tokens of a text. -/
def Token.ofText? (text : String) : Option (List Token) := do
  let cs := text.toList
  guard (cs.all isAllowed)
  let (_, s) ← (Scan.all (cs.length + 2)).run { source := { rest := unifyBreaks cs } }
  return s.tokens

end Concolic.Yaml
