/-
Diagnostics: what the library has to report beside its results.

Each diagnostic keeps its cause; the wording stands in one place.
-/
import StyledChat.Logged
import StyledChat.Text

namespace StyledChat

/-! ## Causes -/

/-- A permission backend could not answer for a node. -/
structure CheckFailure where
  node : Text
  reason : Text
deriving DecidableEq, Repr

/-- The wording of a failed permission check. -/
def CheckFailure.message (e : CheckFailure) : Text :=
  "Permission check for '".toList ++ e.node ++ "' failed: ".toList ++ e.reason

/-- Why an entry of the configuration is unusable. -/
inductive EntryFault where
  /-- The id is not a string, a number or a truth value. -/
  | idNotPlain
  /-- The entry of this id is not a mapping. -/
  | notMapping (id : Text)
  /-- A field of the entry of this id does not read. -/
  | unreadable (id : Text)
  /-- A configuration that came from no file was asked to read it again. -/
  | noSource
deriving DecidableEq, Repr

namespace EntryFault

/-- The entry at fault; an id that is no plain text is shown as `*`. -/
def id : EntryFault → Text
  | idNotPlain => ['*']
  | notMapping id => id
  | unreadable id => id
  | noSource => "<config>".toList

/-- The reason; details of a field that does not read are not spelled out. -/
def reason : EntryFault → Text
  | idNotPlain => "format ids must be plain strings".toList
  | notMapping _ => "expected a mapping with a \x27format\x27 key".toList
  | unreadable _ => ['*']
  | noSource => "cannot refresh: not loaded from a file".toList

def message (f : EntryFault) : Text :=
  "Invalid format entry '".toList ++ f.id ++ "': ".toList ++ f.reason

end EntryFault

/-! ## Diagnostics -/

inductive Severity where
  | debug | info | warn
deriving DecidableEq, Repr

/-- A value reported with a diagnostic. -/
inductive FieldValue where
  | text (t : Text)
  | flag (b : Bool)
  | count (n : Nat)
deriving DecidableEq, Repr

/-- A report in its written form. -/
structure Report where
  severity : Severity
  message : Text
  fields : List (Text × FieldValue)
deriving DecidableEq, Repr

/-- What templates, configurations and permission checks report. -/
inductive Diagnostic where
  /-- The template never shows the message and was replaced. -/
  | messageMissing (template : Text)
  /-- A later template with an id already taken was dropped. -/
  | duplicateTemplate (template : Text)
  /-- Neither gated nor the default, so never chosen. -/
  | neverSelected (template : Text)
  | noDefaultTemplate
  | noTemplateSection
  | entrySkipped (fault : EntryFault)
  /-- The failed check of a node was taken for a refusal. -/
  | checkFailed (node : Text) (error : CheckFailure)
deriving DecidableEq, Repr

end StyledChat
