/-
Tokens: the marks and words of a YAML text, once its indentation is spelled out
by opening and closing tokens.

This module holds the tokens, and the readers of those that are neither scalars
nor single marks: names of anchors, tags and directives.
-/
import StyledChat.Yaml.Scalar

namespace StyledChat.Yaml

/-- Octets, which spell a text if they are its UTF-8 form. -/
abbrev Octets := List UInt8

namespace Octets

/-- The octets of a text without accents: one for each character. -/
def ofAscii (t : Text) : Octets := t.map Char.toUInt8

/-- The text that octets spell. -/
def text? (octets : Octets) : Option Text :=
  (String.fromUTF8? octets.toByteArray).map String.toList

/-- The octets before the first that is zero. -/
def untilZero (octets : Octets) : Octets := octets.takeWhile (· != 0)

end Octets

/-- A tag as written: a handle, and a suffix behind it.  A suffix may be given by
octets that spell no text. -/
structure TagText where
  handle : Text
  suffix : Octets
deriving DecidableEq, Repr

inductive Token where
  /-- The version of YAML a document asks for. -/
  | version (major minor : Nat)
  /-- What a handle stands for in a document. -/
  | handle (handle : Text) (expansion : Octets)
  | documentStart
  | documentEnd
  | blockSequence
  | blockMapping
  /-- Ends a block sequence or a block mapping. -/
  | blockEnd
  | flowSequence
  | flowSequenceEnd
  | flowMapping
  | flowMappingEnd
  /-- Stands before an item of a block sequence. -/
  | entry
  /-- Stands between two items of a flow collection. -/
  | comma
  | key
  | value
  | reference (name : Text)
  | anchor (name : Text)
  | tag (tag : TagText)
  | scalar (style : ScalarStyle) (text : Text)
deriving DecidableEq, Repr

namespace Token

/-- The name at the start of a text, and what follows it. -/
def readName (t : Text) : Text × Text := (t.takeWhile isNameChar, t.dropWhile isNameChar)

/-- Reads the name of an anchor.  It ends at spacing or at an indicator. -/
def readAnchor (t : Text) : Option (Text × Text) :=
  let (name, rest) := readName t
  let ends := rest.head?.all fun c => isSpacing c || "?:,]\x7d%@\x60".toList.contains c
  if !name.isEmpty && ends then some (name, rest) else none

/-! ## Tags -/

/-- The characters of a tag; between `<` and `>` there are three more. -/
def isTagChar (verbatim : Bool) (c : Char) : Bool :=
  isNameChar c || ";/?:@&=+$.%!~*\x27()".toList.contains c || (verbatim && ",[]".toList.contains c)

/-- The octet written as `%` and two hexadecimal digits. -/
def octet? : Text → Option UInt8
  | '%' :: a :: b :: _ => (Text.number? 16 [a, b]).map UInt8.ofNat
  | _ => none

/-- The number of octets that follow a first one in UTF-8. -/
def followers? (first : UInt8) : Option Nat :=
  if first < 0x80 then some 0
  else if first / 0x20 = 0x6 then some 1
  else if first / 0x10 = 0xe then some 2
  else if first / 0x08 = 0x1e then some 3
  else none

/-- So many octets that may follow a first one. -/
def readFollowers : (count : Nat) → Text → Option Octets
  | 0, _ => some []
  | count + 1, t => do
    let octet ← octet? t
    if octet / 0x40 = 0x2 then return octet :: (← readFollowers count (t.drop 3)) else none

/-- Reads the characters of a tag, and `%` with two digits as an octet.  Behind a
first octet stand as many as its kind asks for, but they need not spell a
character. -/
def readTagChars (verbatim : Bool) : Text → Option (Octets × Text)
  | [] => some ([], [])
  | c :: rest =>
    if c = '%' then do
      let first ← octet? (c :: rest)
      let count ← followers? first
      let followers ← readFollowers count (rest.drop 2)
      let (octets, after) ← readTagChars verbatim (rest.drop (2 + 3 * count))
      return (first :: followers ++ octets, after)
    else if isTagChar verbatim c then do
      let (octets, after) ← readTagChars verbatim rest
      return (c.toUInt8 :: octets, after)
    else some ([], c :: rest)
termination_by t => t.length
decreasing_by
  · simp only [List.length_cons, List.length_drop]; omega
  · simp

/-- Reads a part of a tag that may not be empty.  A zero octet ends what it
says. -/
def readTagPart (verbatim : Bool) (t : Text) : Option (Octets × Text) := do
  let (octets, rest) ← readTagChars verbatim t
  if rest.length < t.length then return (octets.untilZero, rest) else none

/-- Reads what follows the `!` of a tag: `<…>` for a whole tag, a handle closed by
another `!` with a suffix, or a suffix alone.  A lone `!` is a tag too. -/
def readTagText (t : Text) : Option (TagText × Text) :=
  match t with
  | '<' :: rest => do
    let (suffix, after) ← readTagPart true rest
    match after with
    | '>' :: after => return (⟨[], suffix⟩, after)
    | _ => none
  | _ =>
    let (name, rest) := readName t
    match rest with
    | '!' :: rest => do
      let (suffix, after) ← readTagPart false rest
      return (⟨'!' :: name ++ ['!'], suffix⟩, after)
    | _ => do
      let (octets, after) ← readTagChars false rest
      let suffix := Octets.ofAscii name ++ octets.untilZero
      if suffix.isEmpty then return (⟨[], Octets.ofAscii ['!']⟩, after)
      else return (⟨['!'], suffix⟩, after)

/-- Reads what follows the `!` of a tag.  It ends at spacing, or at a comma within
a flow collection. -/
def readTag (inFlow : Bool) (t : Text) : Option (TagText × Text) := do
  let (written, rest) ← readTagText t
  if atSpacing rest || (inFlow && rest.head? == some ',') then return (written, rest) else none

/-! ## Directives -/

/-- Reads a number of at most nine digits. -/
def readNumber (t : Text) : Option (Nat × Text) := do
  let digits := t.takeWhile Char.isDigit
  let n ← Text.number? 10 digits
  if digits.length ≤ 9 then return (n, t.drop digits.length) else none

/-- Reads what follows `%YAML`. -/
def readVersion (t : Text) : Option (Token × Text) := do
  let (major, rest) ← readNumber (t.dropWhile isBlank)
  match rest with
  | '.' :: rest => do
    let (minor, rest) ← readNumber rest
    return (version major minor, rest)
  | _ => none

/-- Reads what follows `%TAG`: a handle, and what it stands for. -/
def readHandle (t : Text) : Option (Token × Text) :=
  match t.dropWhile isBlank with
  | '!' :: rest => do
    let (name, rest) := readName rest
    let (written, rest) ← match rest with
      | '!' :: rest => some ('!' :: name ++ ['!'], rest)
      | rest => if name.isEmpty then some (['!'], rest) else none
    if rest.head?.any isBlank then
      let (expansion, rest) ← readTagPart true (rest.dropWhile isBlank)
      if atSpacing rest then return (handle written expansion, rest) else none
    else none
  | _ => none

/-- Reads a line that starts with `%`, behind that character.  The name of the
directive is a word of its own. -/
def readDirective (t : Text) : Option (Token × Text) := do
  let (name, rest) := readName t
  let (token, rest) ←
    if !atSpacing rest then none
    else if name = "YAML".toList then readVersion rest
    else if name = "TAG".toList then readHandle rest
    else none
  return (token, ← Scalar.skipLine? rest)

end Token

end StyledChat.Yaml
