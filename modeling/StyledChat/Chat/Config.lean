/-
Configurations: the switches and the templates a formatter works with.
-/
import StyledChat.Chat.Template

namespace StyledChat

/-- Switches that may change while the templates stay. -/
structure Settings where
  /-- Whether every message is reported. -/
  debug : Bool := false
  /-- Whether codes and flags count in what players type. -/
  legacyMixing : Bool := false
deriving DecidableEq, Repr

/-- What is configured. -/
structure Config where
  settings : Settings := {}
  /-- The templates, in the order they are tried. -/
  templates : List Template := []
  /-- The file the configuration was read from. -/
  source : Option Text := none
deriving DecidableEq, Repr

/-- Why there is no configuration. -/
inductive ConfigFault where
  /-- The file is not there, or is no text. -/
  | unreadableFile
  /-- The text is no configuration. -/
  | malformed
  | entry (fault : EntryFault)
deriving DecidableEq, Repr

end StyledChat
