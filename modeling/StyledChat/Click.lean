/-
What happens when a reader clicks a piece of text.
-/
import StyledChat.Text

namespace StyledChat

inductive ClickAction where
  | openUrl | runCommand | suggestCommand | copyToClipboard | changePage
deriving DecidableEq, Repr

namespace ClickAction

def all : List ClickAction :=
  [openUrl, runCommand, suggestCommand, copyToClipboard, changePage]

/-- The name an action is written with, in tags and in JSON. -/
def name : ClickAction → Text
  | openUrl => "open_url".toList
  | runCommand => "run_command".toList
  | suggestCommand => "suggest_command".toList
  | copyToClipboard => "copy_to_clipboard".toList
  | changePage => "change_page".toList

/-- The action of a lower-case name. -/
def ofName? (t : Text) : Option ClickAction := all.find? fun a => a.name == t

end ClickAction

/-- An action together with its argument: a link, a command, a page. -/
structure ClickEvent where
  action : ClickAction
  value : Text
deriving DecidableEq, Repr

end StyledChat
