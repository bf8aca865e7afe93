/-!
# Reading a text in place

What is left of a text, with the line and the column at which it starts. Columns matter in
YAML because indentation does.
-/

namespace Concolic.Yaml

/-! ## Characters -/

def isBlank (c : Char) : Bool := c == ' ' || c == '\t'

/-- The characters that end a line, once `unifyBreaks` has made most of them line feeds. -/
def isBreak (c : Char) : Bool := c == '\n' || c == '\u2028' || c == '\u2029'

def isGap (c : Char) : Bool := isBlank c || isBreak c

/-- Characters that a document may hold. -/
def isAllowed (c : Char) : Bool :=
  c == '\t' || c == '\n' || c == '\r' || (' ' ≤ c && c ≤ '~') || c == '\u0085' ||
    ('\u00a0' ≤ c && c != '\ufffe' && c != '\uffff')

/-- Characters with a meaning of their own inside braces and brackets. -/
def isFlowMark (c : Char) : Bool := ",[]\x7b\x7d".contains c

/-- The characters of names of anchors. -/
def isNameChar (c : Char) : Bool := c.isAlphanum || c == '_' || c == '-'

/-- The value of digits in a base. -/
def digits? (base : Nat) (cs : List Char) : Option Nat :=
  let value (c : Char) : Nat :=
    if c.isDigit then c.toNat - '0'.toNat
    else if c.isAlpha then c.toLower.toNat - 'a'.toNat + 10
    else base
  if !cs.isEmpty && cs.all (value · < base) then
    some (cs.foldl (fun n c => base * n + value c) 0)
  else
    none

/-- A carriage return with or without a line feed, and a next-line character, are written
as a line feed. -/
def unifyBreaks : List Char → List Char
  | '\r' :: '\n' :: rest => '\n' :: unifyBreaks rest
  | '\r' :: rest => '\n' :: unifyBreaks rest
  | '\u0085' :: rest => '\n' :: unifyBreaks rest
  | c :: rest => c :: unifyBreaks rest
  | [] => []

/-- Nothing more of a token comes here. -/
def atGap : List Char → Bool
  | [] => true
  | c :: _ => isGap c

/-! ## Sources -/

structure Source where
  rest : List Char
  line : Nat := 0
  column : Nat := 0

namespace Source

/-- After the next character. -/
def next (s : Source) : Source :=
  match s.rest with
  | [] => s
  | c :: rest =>
    if isBreak c then ⟨rest, s.line + 1, 0⟩ else ⟨rest, s.line, s.column + 1⟩

def drop : Nat → Source → Source
  | 0, s => s
  | n + 1, s => drop n s.next

/-- The longest run of characters that pass the test, and what follows. -/
def take (test : Char → Bool) (s : Source) : List Char × Source :=
  let taken := s.rest.takeWhile test
  (taken, s.drop taken.length)

/-- Whether a line starts here with the given mark of a document. -/
def isAt (mark : String) (s : Source) : Bool :=
  s.column == 0 && mark.toList.isPrefixOf s.rest && atGap (s.rest.drop mark.length)

/-- Whether a document starts or ends here. -/
def isAtMarker (s : Source) : Bool := s.isAt "---" || s.isAt "..."

theorem rest_drop (n : Nat) (s : Source) : (s.drop n).rest = s.rest.drop n := by
  induction n generalizing s with
  | zero => rfl
  | succ n ih =>
    rw [drop, ih]
    unfold next
    split
    · next h => simp [h]
    · next c rest h =>
      rw [h]
      split <;> rfl

/-- What follows a run of characters that pass a test starts where the run ends. -/
theorem rest_take (test : Char → Bool) (s : Source) :
    (s.take test).2.rest = s.rest.dropWhile test := by
  simp only [take, rest_drop]
  induction s.rest with
  | nil => rfl
  | cons c rest ih => by_cases h : test c <;> simp [h, ih]

/-- Nothing is lost: what was taken and what follows make up the source. -/
theorem take_append_rest (test : Char → Bool) (s : Source) :
    (s.take test).1 ++ (s.take test).2.rest = s.rest := by
  rw [rest_take]
  exact List.takeWhile_append_dropWhile

end Source
end Concolic.Yaml
