/-
The sixteen named chat colours: their names, channels and palette indices.
-/
import StyledChat.Color.Rgb

namespace StyledChat

inductive NamedColor where
  | black | darkBlue | darkGreen | darkAqua | darkRed | darkPurple | gold | gray
  | darkGray | blue | green | aqua | red | lightPurple | yellow | white
deriving DecidableEq, Repr

namespace NamedColor

/-- All named colours, in the order of their one-character codes
(`0`-`9`, then `a`-`f`). -/
def all : List NamedColor :=
  [black, darkBlue, darkGreen, darkAqua, darkRed, darkPurple, gold, gray,
   darkGray, blue, green, aqua, red, lightPurple, yellow, white]

/-- The name a colour is written with. -/
def name : NamedColor → Text
  | black => "black".toList
  | darkBlue => "dark_blue".toList
  | darkGreen => "dark_green".toList
  | darkAqua => "dark_aqua".toList
  | darkRed => "dark_red".toList
  | darkPurple => "dark_purple".toList
  | gold => "gold".toList
  | gray => "gray".toList
  | darkGray => "dark_gray".toList
  | blue => "blue".toList
  | green => "green".toList
  | aqua => "aqua".toList
  | red => "red".toList
  | lightPurple => "light_purple".toList
  | yellow => "yellow".toList
  | white => "white".toList

/-- The other spelling of gray, brought to the canonical one. -/
def canonicalName (t : Text) : Text :=
  if t = "grey".toList then "gray".toList
  else if t = "dark_grey".toList then "dark_gray".toList
  else t

/-- The colour of a name, in any letter case and with either spelling of gray. -/
def ofName? (t : Text) : Option NamedColor :=
  all.find? fun c => c.name == canonicalName (Text.lower t)

/-- The channels chat clients show for a colour. -/
def rgb : NamedColor → Rgb
  | black => ⟨0x00, 0x00, 0x00⟩
  | darkBlue => ⟨0x00, 0x00, 0xaa⟩
  | darkGreen => ⟨0x00, 0xaa, 0x00⟩
  | darkAqua => ⟨0x00, 0xaa, 0xaa⟩
  | darkRed => ⟨0xaa, 0x00, 0x00⟩
  | darkPurple => ⟨0xaa, 0x00, 0xaa⟩
  | gold => ⟨0xff, 0xaa, 0x00⟩
  | gray => ⟨0xaa, 0xaa, 0xaa⟩
  | darkGray => ⟨0x55, 0x55, 0x55⟩
  | blue => ⟨0x55, 0x55, 0xff⟩
  | green => ⟨0x55, 0xff, 0x55⟩
  | aqua => ⟨0x55, 0xff, 0xff⟩
  | red => ⟨0xff, 0x55, 0x55⟩
  | lightPurple => ⟨0xff, 0x55, 0xff⟩
  | yellow => ⟨0xff, 0xff, 0x55⟩
  | white => ⟨0xff, 0xff, 0xff⟩

/-- The palette index of a named colour: the dark half on the basic terminal
colours `0`-`7`, the bright half on `8`-`15`. -/
def ansi256 : NamedColor → Nat
  | black => 0
  | darkRed => 1
  | darkGreen => 2
  | gold => 3
  | darkBlue => 4
  | darkPurple => 5
  | darkAqua => 6
  | gray => 7
  | darkGray => 8
  | red => 9
  | green => 10
  | yellow => 11
  | blue => 12
  | lightPurple => 13
  | aqua => 14
  | white => 15

end NamedColor

end StyledChat
