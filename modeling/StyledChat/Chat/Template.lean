/-
Format templates: the markup around a chat message, and who may use it.
-/
import StyledChat.Chat.Diagnostic

namespace StyledChat

/-- A format written by an administrator.  The text is trusted markup with
placeholders for the sender's name and the message; any other `{…}` is kept as
written. -/
structure Template where
  id : Text
  text : Text
  /-- The permission node needed to use the template. -/
  permission : Option Text := none
deriving DecidableEq, Repr

namespace Template

/-- Stands for the sender's display name. -/
def namePlaceholder : Text := "{display_name}".toList

/-- Stands for the message. -/
def messagePlaceholder : Text := "{message}".toList

/-- The id of the template that needs no permission. -/
def defaultId : Text := "default".toList

/-- The text of the default template when none is configured. -/
def defaultText : Text := "<gray>{display_name}</gray> <white>{message}</white>".toList

/-- The text that replaces one which never shows the message. -/
def fallbackText : Text := namePlaceholder ++ ": ".toList ++ messagePlaceholder

/-- The template behind a permission.  A blank node is no gate. -/
def gate (t : Template) (node : Text) : Template :=
  { t with permission := if Text.isBlank node then none else some node }

/-- A template of this text, behind the permission if there is one. -/
def made (id text : Text) (permission : Option Text) : Template :=
  match permission with
  | none => ⟨id, text, none⟩
  | some node => gate ⟨id, text, none⟩ node

/-- A template from configured values.  A text that never shows the message is
replaced by `fallbackText` without a gate, and that is reported. -/
def checked (id text : Text) (permission : Option Text) : Logged Diagnostic Template :=
  if Text.hasInfix messagePlaceholder text then Logged.pure (made id text permission)
  else do
    Logged.report (.messageMissing id)
    return ⟨id, fallbackText, none⟩

/-- The default template when none is configured. -/
def builtin : Template := ⟨defaultId, defaultText, none⟩

/-- Whether a permission is needed to use the template. -/
def isGated (t : Template) : Bool := t.permission.isSome

def isDefault (t : Template) : Bool := t.id == defaultId

end Template

/-- The written form of a diagnostic. -/
def Diagnostic.report : Diagnostic → Report
  | messageMissing id =>
    ⟨.warn, "format has no ".toList ++ Template.messagePlaceholder ++ " placeholder, using '".toList
        ++ Template.fallbackText ++ "'".toList,
      [("template".toList, .text id)]⟩
  | duplicateTemplate id =>
    ⟨.warn, "duplicate format id, keeping the first".toList, [("template".toList, .text id)]⟩
  | neverSelected id =>
    ⟨.warn, "format has no permission and is not the default; it will never be selected".toList,
      [("template".toList, .text id)]⟩
  | noDefaultTemplate =>
    ⟨.warn, "no '".toList ++ Template.defaultId
        ++ "' format configured, using the built-in one".toList, []⟩
  | noTemplateSection =>
    ⟨.warn, "no 'formats' section in config, using the built-in default format".toList, []⟩
  | entrySkipped fault =>
    ⟨.warn, "skipping format entry".toList, [("error".toList, .text fault.message)]⟩
  | checkFailed node error =>
    ⟨.debug, "permission check failed, treating as denied".toList,
      [("node".toList, .text node), ("error".toList, .text error.message)]⟩

end StyledChat
