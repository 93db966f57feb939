/-
Styled text for a terminal.

Each run is written in a style of the terminal, which knows a colour of the palette and
some attributes and nothing else.  How such a style is written is said by `ConsoleStyle`:
the escape sequences that switch it on, the text, and the one that switches everything
off.  Which of them a run is written in is said by `Style.console`.
-/
import StyledChat.Component.Spans

namespace StyledChat

/-! ## Escape sequences -/

namespace Ansi

def escape : Char := '\x1b'

/-- The escape sequence with this parameter text. -/
def sequence (parameters : Text) : Text := escape :: '[' :: (parameters ++ ['m'])

/-- Selects a colour of the 256-colour palette for the text that follows. -/
def foreground (index : Nat) : Text := sequence ("38;5;".toList ++ Text.decimal index)

/-- Switches everything off. -/
def reset : Text := sequence "0".toList

/-- What text can have on a terminal beside a colour. -/
inductive Attribute where
  | bold | italic | underlined | blink | strikethrough
deriving DecidableEq, Repr

namespace Attribute

/-- The number that switches an attribute on. -/
def number : Attribute → Nat
  | bold => 1
  | italic => 3
  | underlined => 4
  | blink => 5
  | strikethrough => 9

/-- All attributes, lowest number first. -/
def all : List Attribute := [bold, italic, underlined, blink, strikethrough]

/-- Switches an attribute on for the text that follows. -/
def switchOn (a : Attribute) : Text := sequence (Text.decimal a.number)

end Attribute

end Ansi

/-! ## Styles of a terminal -/

/-- A colour of the palette and some attributes. -/
structure ConsoleStyle where
  color : Option Nat := none
  attributes : List Ansi.Attribute := []
deriving DecidableEq, Repr

namespace ConsoleStyle

/-- The sequences that switch the style on: its colour, then its attributes, lowest number
first. -/
def opening (s : ConsoleStyle) : Text :=
  (match s.color with
    | some index => Ansi.foreground index
    | none => [])
  ++ (Ansi.Attribute.all.filter s.attributes.contains).flatMap Ansi.Attribute.switchOn

/-- A text in the style; a style that switches nothing on leaves the text as it is. -/
def apply (s : ConsoleStyle) (t : Text) : Text :=
  if s.opening.isEmpty then t else s.opening ++ t ++ Ansi.reset

end ConsoleStyle

/-! ## Runs and trees -/

/-- What a decoration is on a terminal; obfuscated text blinks. -/
def Decoration.attribute : Decoration → Ansi.Attribute
  | bold => .bold
  | italic => .italic
  | underlined => .underlined
  | strikethrough => .strikethrough
  | obfuscated => .blink

/-- The style of a terminal for text of a style: its colour and the decorations that are
on. -/
def Style.console (s : Style) : ConsoleStyle where
  color := s.color.map Color.ansi256
  attributes := (Decoration.all.filter s.has).map Decoration.attribute

/-- One run. -/
def Ansi.run (span : Span) : Text := span.style.console.apply span.text

/-- The tree as text for a terminal. -/
def Component.toAnsi (c : Component) : Text := c.spans.flatMap Ansi.run

end StyledChat
