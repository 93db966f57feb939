/-
Reading configurations: from YAML text, and from files.

The entries of the section of formats become templates in the order in which
they stand.  An entry that is unusable is skipped and reported; anything else
that is wrong makes the whole text malformed.

What a YAML text holds is up to a `YamlReader`.
-/
import StyledChat.Chat.Config
import StyledChat.Yaml.Value

namespace StyledChat

open Yaml (Value Number)

/-! ## What is written -/

/-- What is configured of a template beside its id. -/
structure TemplateFields where
  format : Text := []
  permission : Option Text := none
deriving DecidableEq, Repr

/-- A configuration as it is written. -/
structure ConfigText where
  debug : Bool := false
  /-- Whether codes and flags count in what players type; not given without a
  section of settings. -/
  playerColors : Option Bool := none
  /-- The entries of `formats`, if that section is given. -/
  formats : Option (List (Value × Value)) := none

/-- A reader of YAML. -/
structure YamlReader where
  /-- The configuration that a text holds. -/
  config? : Text → Option ConfigText
  /-- The fields that the value of an entry holds. -/
  fields? : Value → Option TemplateFields
  /-- A number as text. -/
  numberText : Number → Text

/-! ## Single entries -/

/-- The id a key names: a text, or a number or a truth value as text. -/
def templateId? (yaml : YamlReader) : Value → Option Text
  | .string t => some t
  | .number n => some (yaml.numberText n)
  | .bool b => some (if b then "true".toList else "false".toList)
  | _ => none

/-- What an entry of `formats` says, or what is wrong with it.  The tags of its value
do not matter, but an id has none. -/
def readEntry (yaml : YamlReader) (key value : Value) :
    Except EntryFault (Text × TemplateFields) :=
  match templateId? yaml key with
  | none => .error .idNotPlain
  | some id =>
    if value.isMapping then
      match yaml.fields? value with
      | some fields => .ok (id, fields)
      | none => .error (.unreadable id)
    else .error (.notMapping id)

/-- The template of an entry; one that is unusable is skipped and reported. -/
def loadEntry (yaml : YamlReader) (key value : Value) : Logged Diagnostic (Option Template) :=
  match readEntry yaml key value with
  | .ok (id, fields) => do
    return some (← Template.checked id fields.format fields.permission)
  | .error fault => do
    Logged.report (.entrySkipped fault)
    return none

/-- The templates of the entries of `formats`. -/
def loadEntries (yaml : YamlReader) : List (Value × Value) → Logged Diagnostic (List Template)
  | [] => return []
  | (key, value) :: rest => do
    let t ← loadEntry yaml key value
    let ts ← loadEntries yaml rest
    return t.toList ++ ts

/-! ## Whole configurations -/

namespace ConfigText

/-- The templates, with what is wrong in their entries. -/
def loadTemplates (yaml : YamlReader) (written : ConfigText) :
    Logged Diagnostic (List Template) :=
  match written.formats with
  | some entries => loadEntries yaml entries
  | none => do
    Logged.report .noTemplateSection
    return []

/-- The configuration, with what is wrong in its entries. -/
def load (yaml : YamlReader) (written : ConfigText) : Logged Diagnostic Config := do
  let templates ← written.loadTemplates yaml
  let settings := { debug := written.debug, legacyMixing := written.playerColors.getD false }
  return { settings, templates }

end ConfigText

namespace Config

/-- A configuration from YAML text; a blank text gives nothing. -/
def ofYaml (yaml : YamlReader) (t : Text) : Except ConfigFault (Logged Diagnostic Config) :=
  if Text.isBlank t then .ok (ConfigText.load yaml {})
  else
    match yaml.config? t with
    | some written => .ok (written.load yaml)
    | none => .error .malformed

/-! ## Files -/

/-- What the files hold at present; a path that cannot be read holds nothing. -/
abbrev Files := Text → Option ByteArray

/-- The configuration in a file, which must be a text. -/
def ofFile (yaml : YamlReader) (files : Files) (path : Text) :
    Except ConfigFault (Logged Diagnostic Config) :=
  match (files path).bind String.fromUTF8? with
  | none => .error .unreadableFile
  | some text => do
    let loaded ← ofYaml yaml text.toList
    return do return { ← loaded with source := some path }

/-- The configuration as its file gives it now. -/
def refresh (yaml : YamlReader) (files : Files) (c : Config) :
    Except ConfigFault (Logged Diagnostic Config) :=
  match c.source with
  | none => .error (.entry .noSource)
  | some path => ofFile yaml files path

end Config

end StyledChat
