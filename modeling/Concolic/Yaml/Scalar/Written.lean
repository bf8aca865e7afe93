import Concolic.Yaml.Source

/-!
# Written forms of scalars

A scalar is written plain, between single or double quotes, or as a block of lines behind a
bar or an angle. Each reader gives the text and what follows, and none where the form is
broken. A text may go on over several lines; `level` is the least column at which the lines
of a scalar may start.

A line end between two lines stands for a blank, or, where blank lines follow it, for those
blank lines. Only the two separators of Unicode stand for themselves.
-/

namespace Concolic.Yaml

/-- What a gap between two words stands for. -/
def fold (gap : List Char) : List Char :=
  match gap.filter isBreak with
  | [] => gap
  | ['\n'] => [' ']
  | '\n' :: more => more
  | breaks => breaks

/-! ## Plain scalars -/

/-- Whether a plain scalar may start here. -/
def startsPlain (inFlow : Bool) : List Char → Bool
  | [] => false
  | '-' :: rest => !(rest.head?.any isBlank)
  | c :: rest =>
    if c == '?' || c == ':' then !inFlow && !atGap rest
    else !(isGap c || isFlowMark c || "#&*!|>'\"%@\x60".contains c)

/-- The characters of a word of a plain scalar. A colon before a gap ends it and, within
braces, so do flow marks; a colon before one of those is refused. -/
def plainWord? (inFlow : Bool) : List Char → Option (List Char)
  | [] => some []
  | c :: rest =>
    if isGap c then some []
    else if inFlow && c == ':' && rest.head?.any (fun c => isFlowMark c || c == '?') then none
    else if (c == ':' && atGap rest) || (inFlow && isFlowMark c) then some []
    else (plainWord? inFlow rest).map (c :: ·)

/-- Whether a tab stands in the indentation of a line of a gap; `column` is known from the
first line end on. -/
def hasTabBefore (level : Nat) : (column : Option Nat) → (gap : List Char) → Bool
  | _, [] => false
  | column, c :: rest =>
    if isBreak c then hasTabBefore level (some 0) rest
    else (c == '\t' && column.any (· < level)) || hasTabBefore level (column.map (· + 1)) rest

/-- The words of a plain scalar after a gap; also whether the source has come to a new line
behind the last of them. -/
def plain? (inFlow : Bool) (level : Nat) :
    (fuel : Nat) → (gap : List Char) → Source → Option (List Char × Bool × Source)
  | 0, _, _ => none
  | fuel + 1, gap, s =>
    if s.isAtMarker || s.rest.head? == some '#' then some ([], gap.any isBreak, s)
    else do
      let word ← plainWord? inFlow s.rest
      if word.isEmpty then return ([], gap.any isBreak, s)
      let (gap', s) := (s.drop word.length).take isGap
      guard !(hasTabBefore level none gap')
      let (more, onNewLine, s) ←
        if gap'.isEmpty || (!inFlow && s.column < level) then
          some ([], gap'.any isBreak, s)
        else plain? inFlow level fuel gap' s
      return (fold gap ++ word ++ more, onNewLine, s)

/-! ## Quoted scalars -/

/-- The rest of a scalar in single quotes, where a quote is written twice. -/
def singleQuoted? : (fuel : Nat) → Source → Option (List Char × Source)
  | 0, _ => none
  | fuel + 1, s =>
    if s.isAtMarker then none
    else
      match s.rest with
      | '\'' :: '\'' :: _ => do
        let (text, s) ← singleQuoted? fuel (s.drop 2)
        return ('\'' :: text, s)
      | '\'' :: _ => some ([], s.next)
      | c :: _ => do
        let (gap, after) := s.take isGap
        let (text, s) ← singleQuoted? fuel (if isGap c then after else s.next)
        return ((if isGap c then fold gap else [c]) ++ text, s)
      | [] => none

/-- The character that an escape of one letter stands for. -/
def escaped? (c : Char) : Option Char :=
  List.lookup c
    [('0', '\x00'), ('a', '\x07'), ('b', '\x08'), ('t', '\t'), ('\t', '\t'), ('n', '\n'),
      ('v', '\x0b'), ('f', '\x0c'), ('r', '\r'), ('e', '\x1b'), (' ', ' '), ('"', '"'),
      ('/', '/'), ('\\', '\\'), ('N', '\u0085'), ('_', '\u00a0'), ('L', '\u2028'),
      ('P', '\u2029')]

/-- The number of hexadecimal digits after the letter of an escape. -/
def escapeWidth? (c : Char) : Option Nat :=
  List.lookup c [('x', 2), ('u', 4), ('U', 8)]

/-- The character of an escape behind its backslash, and the length of the escape. -/
def escape? : List Char → Option (Char × Nat)
  | [] => none
  | c :: rest =>
    match escapeWidth? c with
    | some width => do
      let code ← digits? 16 (rest.take width)
      guard (width ≤ rest.length && code.isValidChar)
      return (.ofNat code, width + 1)
    | none => (escaped? c).map (·, 1)

/-- The rest of a scalar in double quotes. A backslash at the end of a line takes the line
end out of the text. -/
def doubleQuoted? : (fuel : Nat) → Source → Option (List Char × Source)
  | 0, _ => none
  | fuel + 1, s =>
    if s.isAtMarker then none
    else
      match s.rest with
      | '"' :: _ => some ([], s.next)
      | '\\' :: rest =>
        if rest.head?.any isBreak then do
          let (gap, s) := (s.drop 2).take isGap
          let (text, s) ← doubleQuoted? fuel s
          return (gap.filter isBreak ++ text, s)
        else do
          let (c, length) ← escape? rest
          let (text, s) ← doubleQuoted? fuel (s.drop (1 + length))
          return (c :: text, s)
      | c :: _ => do
        let (gap, after) := s.take isGap
        let (text, s) ← doubleQuoted? fuel (if isGap c then after else s.next)
        return ((if isGap c then fold gap else [c]) ++ text, s)
      | [] => none

/-! ## Block scalars -/

/-- What becomes of the line ends behind the last line of a block. -/
inductive Chomping where
  | strip
  | clip
  | keep

/-- What the head of a block says: how it is chomped, and by how much it is indented, if
that is said. -/
def blockHead? : List Char → Option (Chomping × Option Nat × List Char)
  | '+' :: rest => (blockIndent? rest).map fun (n, rest) => (.keep, n, rest)
  | '-' :: rest => (blockIndent? rest).map fun (n, rest) => (.strip, n, rest)
  | cs => do
    let (n, rest) ← blockIndent? cs
    match n, rest with
    | some _, '+' :: rest => return (.keep, n, rest)
    | some _, '-' :: rest => return (.strip, n, rest)
    | _, _ => return (.clip, n, rest)
where
  /-- The digit for the indentation, which is not zero. -/
  blockIndent? : List Char → Option (Option Nat × List Char)
    | c :: rest =>
      if c == '0' then none
      else if c.isDigit then some (some (c.toNat - '0'.toNat), rest)
      else some (none, c :: rest)
    | [] => some (none, [])

/-- Go over blank lines and the indentation of the next line, up to the given column if
there is one. Gives the rightmost column reached and the line ends passed. -/
def blankLines? (column : Option Nat) :
    (fuel : Nat) → (reached : Nat) → Source → Option (Nat × List Char × Source)
  | 0, _, _ => none
  | fuel + 1, reached, s =>
    let blanks := (s.rest.takeWhile (· == ' ')).length
    let s := s.drop (column.elim blanks fun column => min blanks (column - s.column))
    let reached := max reached s.column
    match s.rest with
    | [] => some (reached, [], s)
    | c :: _ =>
      if isBreak c then do
        let (reached, breaks, s) ← blankLines? column fuel reached s.next
        return (reached, c :: breaks, s)
      else if c == '\t' && column.all (s.column < ·) then none
      else some (reached, [], s)

/-- The lines of a block that start at a column. `pending` is the end of the line before,
`breaks` those of the blank lines since; where lines are folded, the end of a line goes into
a blank unless one of the two lines starts with one. Gives also the line ends that are left
in the end. -/
def blockLines? (isFolded : Bool) (column : Nat) :
    (fuel : Nat) → (pending breaks : List Char) → (afterBlank : Bool) → Source →
      Option (List Char × List Char × List Char × Source)
  | 0, _, _, _, _ => none
  | fuel + 1, pending, breaks, afterBlank, s =>
    if s.rest.isEmpty || s.column ≠ column then some ([], pending, breaks, s)
    else do
      let startsBlank := s.rest.head?.any isBlank
      let joint :=
        if isFolded && pending == ['\n'] && !afterBlank && !startsBlank then
          if breaks.isEmpty then [' '] else []
        else pending
      let (line, s) := s.take (!isBreak ·)
      let pending := s.rest.take 1
      let (_, breaks', s) ← blankLines? (some column) (s.rest.length + 1) 0 s.next
      let (more, left, s) ← blockLines? isFolded column fuel pending breaks' startsBlank s
      return (joint ++ breaks ++ line ++ more, left, s)

/-- A block scalar behind its mark, inside a block whose least column is `level`. -/
def blockScalar? (isFolded : Bool) (level : Nat) (s : Source) : Option (List Char × Source) := do
  let (chomping, indent, rest) ← blockHead? s.rest
  let (_, s) := (s.drop (s.rest.length - rest.length)).take isBlank
  let s := if s.rest.head? == some '#' then (s.take (!isBreak ·)).2 else s
  guard (s.rest.head?.all isBreak)
  let fuel := s.rest.length + 2
  let (reached, breaks, s) ← blankLines? (indent.map (level - 1 + ·)) fuel 0 s.next
  let column := indent.elim (max reached (max level 1)) (level - 1 + ·)
  let (text, pending, breaks, s) ← blockLines? isFolded column fuel [] breaks false s
  match chomping with
  | .strip => return (text, s)
  | .clip => return (text ++ pending, s)
  | .keep => return (text ++ pending ++ breaks, s)

end Concolic.Yaml
