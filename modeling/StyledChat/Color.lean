/-
Colours attached to text: a named colour or a 24-bit one, with their written
forms.
-/
import StyledChat.Color.Named

namespace StyledChat

inductive Color where
  | named (c : NamedColor)
  | rgb (c : Rgb)
deriving DecidableEq, Repr

/-- Why a text denotes no colour.  Each cause keeps the text that was read,
without the blanks around it and without a leading `#`. -/
inductive ColorError where
  | unknownName (name : Text)
  | invalidHex (digits : Text)
deriving DecidableEq, Repr

/-- The wording of a colour error. -/
def ColorError.message : ColorError → Text
  | unknownName name => "Unknown color name: ".toList ++ name
  | invalidHex digits =>
    "Invalid hex color: #".toList ++ digits ++ " (must be 6 digits)".toList

namespace Color

/-- Reads a colour: `#` and six hex digits, or a colour name; blanks around it
do not count. -/
def parse (t : Text) : Except ColorError Color :=
  match Text.trim t with
  | '#' :: digits =>
    match Rgb.ofHex? digits with
    | some c => .ok (.rgb c)
    | none => .error (.invalidHex digits)
  | word =>
    match NamedColor.ofName? word with
    | some c => .ok (.named c)
    | none => .error (.unknownName word)

/-- The colour a text denotes, if it denotes one. -/
def parse? (t : Text) : Option Color := (parse t).toOption

/-- The channels of a colour. -/
def toRgb : Color → Rgb
  | named c => c.rgb
  | rgb c => c

/-- The written form of a colour: its name, or `#rrggbb`. -/
def text : Color → Text
  | named c => c.name
  | rgb c => c.hex

/-- The palette index a colour is shown with on a terminal. -/
def ansi256 : Color → Nat
  | named c => c.ansi256
  | rgb c => c.ansi256

end Color

end StyledChat
