/-
Text decorations, and the three states each of them has on a node: on, off, or
left to what surrounds the node.
-/
import StyledChat.Text

namespace StyledChat

inductive Decoration where
  | bold | italic | underlined | strikethrough | obfuscated
deriving DecidableEq, Repr

namespace Decoration

def all : List Decoration := [bold, italic, underlined, strikethrough, obfuscated]

/-- The canonical tag name, also the key in JSON. -/
def name : Decoration → Text
  | bold => "bold".toList
  | italic => "italic".toList
  | underlined => "underlined".toList
  | strikethrough => "strikethrough".toList
  | obfuscated => "obfuscated".toList

/-- Every spelling of a decoration: its name first, then its short forms. -/
def spellings : Decoration → List Text
  | bold => ["bold".toList, "b".toList]
  | italic => ["italic".toList, "i".toList, "em".toList]
  | underlined => ["underlined".toList, "u".toList]
  | strikethrough => ["strikethrough".toList, "st".toList]
  | obfuscated => ["obfuscated".toList, "obf".toList]

/-- The decoration of a lower-case tag name or short form. -/
def ofName? (t : Text) : Option Decoration :=
  all.find? fun d => d.spellings.contains t

end Decoration

/-- The state of every decoration on a node; `none` leaves it to the
surroundings. -/
structure Decorations where
  bold : Option Bool := none
  italic : Option Bool := none
  underlined : Option Bool := none
  strikethrough : Option Bool := none
  obfuscated : Option Bool := none
deriving DecidableEq, Repr

namespace Decorations

/-- The state of one decoration. -/
def get (s : Decorations) : Decoration → Option Bool
  | .bold => s.bold
  | .italic => s.italic
  | .underlined => s.underlined
  | .strikethrough => s.strikethrough
  | .obfuscated => s.obfuscated

/-- The states with one decoration switched on or off. -/
def set (s : Decorations) (on : Bool) : Decoration → Decorations
  | .bold => { s with bold := some on }
  | .italic => { s with italic := some on }
  | .underlined => { s with underlined := some on }
  | .strikethrough => { s with strikethrough := some on }
  | .obfuscated => { s with obfuscated := some on }

/-- Every decoration that `s` leaves open, taken from `parent`. -/
def inherit (s parent : Decorations) : Decorations where
  bold := s.bold.or parent.bold
  italic := s.italic.or parent.italic
  underlined := s.underlined.or parent.underlined
  strikethrough := s.strikethrough.or parent.strikethrough
  obfuscated := s.obfuscated.or parent.obfuscated

/-- Whether a decoration is explicitly on. -/
def has (s : Decorations) (d : Decoration) : Bool := s.get d == some true

end Decorations

end StyledChat
