import Concolic.Yaml.Tag

/-!
# Scalars of YAML documents

A scalar is a text with a style and a tag, which decide what the text may stand for: plain
text spells numbers, truth values and null as well as itself, and a local tag makes a choice
in the place of the text.
-/

namespace Concolic.Yaml

/-- The ways of writing a scalar, the blocks of lines apart from each other. -/
inductive Style where
  | plain
  | quoted
  | literal
  | folded
  deriving DecidableEq

structure Scalar where
  style : Style := .plain
  tag : Option Tag := none
  text : String := ""

namespace Scalar

/-- Nothing at all. -/
def isVoid (s : Scalar) : Bool := s.style = .plain && s.text.isEmpty

def spellsNull (s : Scalar) : Bool := ["~", "null", "Null", "NULL"].contains s.text

/-- Whether a value that may be missing is there. A plain scalar without a tag is none if it
is empty or spells null; one that is tagged as null has to spell it. -/
def isGiven? (s : Scalar) : Option Bool :=
  if s.style ≠ .plain then some true
  else
    match s.tag with
    | none => some !(s.text.isEmpty || s.spellsNull)
    | some tag =>
      if tag ≠ .standard "null" then some true
      else if s.spellsNull then some false
      else none

/-- Whether the text may spell a value of a kind: plain, or in a literal block that is tagged
as that kind. -/
def maySpell (kind : String) (s : Scalar) : Bool :=
  s.style = .plain || (s.style = .literal && s.tag = some (.standard kind))

/-- The truth value that a scalar spells. -/
def truth? (s : Scalar) : Option Bool :=
  if !s.maySpell "bool" then none
  else if ["true", "True", "TRUE"].contains s.text then some true
  else if ["false", "False", "FALSE"].contains s.text then some false
  else none

/-- The number that a scalar spells, if it is below the limit: decimal without a leading zero,
or in base 16, 8 or 2 behind `0x`, `0o` or `0b`, with a plus sign or without. -/
def natural? (limit : Nat) (s : Scalar) : Option Nat :=
  let unsigned :=
    match s.text.toList with
    | '+' :: rest => rest
    | cs => cs
  let value? :=
    match unsigned with
    | '0' :: 'x' :: rest => digits? 16 rest
    | '0' :: 'o' :: rest => digits? 8 rest
    | '0' :: 'b' :: rest => digits? 2 rest
    | '0' :: _ :: _ => none
    | cs => digits? 10 cs
  value?.filter fun n => s.maySpell "int" && n < limit

/-- The choice that a scalar makes: its local tag, and then it has no other content, or else
its text. -/
def choice? (s : Scalar) : Option String :=
  match s.tag.bind Tag.localName? with
  | none => some s.text
  | some name => if s.isVoid || (s.style = .plain && s.spellsNull) then some name else none

end Scalar

end Concolic.Yaml
