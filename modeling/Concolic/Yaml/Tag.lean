import Concolic.Yaml.Source

/-!
# Tags

A tag says what kind of value a node is. It is written in full between angles, or behind a
handle, for which it has a prefix in common with other tags: a single mark for local tags,
two marks for the standard ones, or a name between marks that the document declares. A mark
alone is a tag of its own.

Written tags may hold escaped octets, so a tag is a list of octets. It ends at a zero octet.
-/

namespace Concolic.Yaml

structure Tag where
  octets : List UInt8
  deriving DecidableEq

/-! ## Octets -/

/-- The octets of a text. -/
def octets (text : String) : List UInt8 := text.toUTF8.toList

/-- The number of octets that belong to a character behind its first one. -/
def continuations? (first : UInt8) : Option Nat :=
  if first < 0x80 then some 0
  else if first &&& 0xe0 = 0xc0 then some 1
  else if first &&& 0xf0 = 0xe0 then some 2
  else if first &&& 0xf8 = 0xf0 then some 3
  else none

/-- The octets of a written tag, in which a percent sign and two digits stand for an octet.
`due` is the number of octets that the character in front still lacks; they have to be
escaped too. -/
def unescape? : (due : Nat) → List Char → Option (List UInt8)
  | due, '%' :: high :: low :: rest => do
    let octet := (← digits? 16 [high, low]).toUInt8
    let due ←
      match due with
      | 0 => continuations? octet
      | due + 1 => if octet &&& 0xc0 = 0x80 then some due else none
    return octet :: (← unescape? due rest)
  | 0, c :: rest =>
    if c = '%' then none else (unescape? 0 rest).map (c.toNat.toUInt8 :: ·)
  | 0, [] => some []
  | _ + 1, _ => none

/-- Text without escapes stands for its own characters. -/
theorem unescape?_of_not_mem {cs : List Char} (h : '%' ∉ cs) :
    unescape? 0 cs = some (cs.map fun c => c.toNat.toUInt8) := by
  induction cs with
  | nil => rfl
  | cons c rest ih =>
    have hc : c ≠ '%' := fun hc => h (hc ▸ List.mem_cons_self)
    rw [unescape?, ih fun hr => h (List.mem_cons_of_mem _ hr)]
    · simp [hc]
    · rintro _ _ _ rfl
      exact absurd rfl hc

/-- What comes before the first zero octet. -/
def upToZero (octets : List UInt8) : List UInt8 := octets.takeWhile (· ≠ 0)

/-! ## Kinds -/

namespace Tag

/-- The prefix of the standard tags. -/
def standardPrefix : List UInt8 := Yaml.octets "tag:yaml.org,2002:"

/-- The standard tag of a kind of values. -/
def standard (kind : String) : Tag := ⟨standardPrefix ++ Yaml.octets kind⟩

/-- The name of a local tag, which starts with a mark. -/
def localName? (t : Tag) : Option String :=
  match t.octets with
  | mark :: name => if mark = 0x21 then String.fromUTF8? name.toByteArray else none
  | [] => none

/-- Standard tags are not local. -/
theorem localName?_standard (kind : String) : (standard kind).localName? = none := by
  have : standardPrefix = 0x74 :: standardPrefix.tail := by decide +kernel
  rw [localName?, standard, this]
  rfl

/-! ## Written tags -/

/-- A tag as it is written: its handle, which is empty where it needs none, and what stands
behind the handle. -/
structure Written where
  handle : String
  rest : List UInt8
  deriving DecidableEq

/-- What the handles of a document stand for. -/
abbrev Handles := List (String × List UInt8)

/-- The handles that need not be declared. -/
def Handles.standard : Handles := [("!", Yaml.octets "!"), ("!!", standardPrefix)]

/-- The tag that is written, if its handle is known. -/
def ofWritten? (handles : Handles) (w : Written) : Option Tag :=
  if w.handle.isEmpty then some ⟨upToZero w.rest⟩
  else (handles.lookup w.handle).map fun lead => ⟨upToZero lead ++ upToZero w.rest⟩

/-- The characters of written tags; some only where no flow mark is meant. -/
def isChar (withFlowMarks : Bool) (c : Char) : Bool :=
  isNameChar c || ";/?:@&=+$.%!~*'()".contains c || (withFlowMarks && ",[]".contains c)

/-- The longest written tag or prefix, with its escapes read. -/
def unescaped? (withFlowMarks : Bool) (s : Source) : Option (List UInt8 × Source) := do
  let (cs, s) := s.take (isChar withFlowMarks)
  return (← unescape? 0 cs, s)

/-- The same, which may not be empty. -/
def nonempty? (withFlowMarks : Bool) (s : Source) : Option (List UInt8 × Source) :=
  (unescaped? withFlowMarks s).filter (!·.1.isEmpty)

/-- A handle behind its first mark; also whether it is closed by another mark. -/
def handle (s : Source) : String × Bool × Source :=
  let (name, s) := s.next.take isNameChar
  if s.rest.head? == some '!' then (.ofList ('!' :: name ++ ['!']), true, s.next)
  else (.ofList ('!' :: name), false, s)

/-- A written tag; a gap follows it or, inside braces, a comma. -/
def written? (inFlow : Bool) (s : Source) : Option (Written × Source) := do
  let (w, s) ←
    if s.next.rest.head? == some '<' then do
      let (rest, s) ← nonempty? true (s.drop 2)
      guard (s.rest.head? == some '>')
      some (⟨"", rest⟩, s.next)
    else
      let (handle, isClosed, after) := handle s
      if isClosed then (nonempty? false after).map fun (rest, s) => (⟨handle, rest⟩, s)
      else (unescaped? false s.next).map fun (rest, s) =>
        (if (upToZero rest).isEmpty then ⟨"", Yaml.octets "!"⟩ else ⟨"!", rest⟩, s)
  guard (atGap s.rest || (inFlow && s.rest.head? == some ','))
  return (w, s)

/-- A declared handle with its prefix. -/
def declared? (s : Source) : Option ((String × List UInt8) × Source) := do
  guard (s.rest.head? == some '!')
  let (handle, isClosed, s) := handle s
  guard (isClosed || handle == "!")
  let (blanks, s) := s.take isBlank
  guard (!blanks.isEmpty)
  let (lead, s) ← nonempty? true s
  guard (atGap s.rest)
  return ((handle, lead), s)

end Tag
end Concolic.Yaml
