/-
The shape of a configuration in YAML.

    debug: false
    settings:
      parse-player-colors: true
    formats:
      default:
        format: "…"
        permission: …

Of a mapping the fields below are read, each at most once, and other keys are
passed over.
-/
import StyledChat.Chat.Config.Read

namespace StyledChat

open Yaml (Value Document AnchorTable Node Decode)

/-! ## Entries -/

namespace TemplateFields

/-- The text of a value, whatever its tags. -/
def text? (v : Value) : Option Text :=
  match v.untagged with
  | .string t => some t
  | _ => none

/-- The text of a value, or nothing for the null value. -/
def optionalText? (v : Value) : Option (Option Text) :=
  match v with
  | .null => some none
  | v => (text? v).map some

/-- The value of a field, or none at all if it is given twice. -/
def unique? (name : Text) (fields : List (Text × Value)) : Option (Option Value) :=
  match fields.filter fun field => field.1 == name with
  | [] => some none
  | [field] => some (some field.2)
  | _ => none

/-- The fields of an entry.  Keys that are no field are passed over, but each must
be a text. -/
def ofEntries? (entries : List (Value × Value)) : Option TemplateFields := do
  let fields ← entries.mapM fun (key, value) => return (← text? key, value)
  let format ← match ← unique? "format".toList fields with
    | none => some []
    | some v => text? v
  let permission ← match ← unique? "permission".toList fields with
    | none => some none
    | some v => optionalText? v
  let _ ← match ← unique? "legacy-format".toList fields with
    | none => some none
    | some v => optionalText? v
  return { format, permission }

/-- The fields of a mapping, whatever its tags. -/
def ofValue? (v : Value) : Option TemplateFields :=
  match v.untagged with
  | .mapping entries => ofEntries? entries
  | _ => none

end TemplateFields

/-! ## Whole configurations -/

namespace ConfigText

/-- The levels of collections that may stand within an entry of `formats`: two of
128 are around it. -/
def entryDepth : Nat := 126

/-- The switch in the section of settings. -/
def readSettings (table : AnchorTable) (node : Node) : Decode Bool := do
  match ← Yaml.field? "parse-player-colors".toList (← table.fields node) with
  | none => return true
  | some value => table.flag value

/-- The entries in the section of formats, of which no two have one id. -/
def readFormats (table : AnchorTable) (node : Node) : Decode (List (Value × Value)) := do
  let entries ← (← table.entries node).mapM fun (key, value) =>
    return (← table.value entryDepth key, ← table.value entryDepth value)
  if Value.distinctKeys entries then return entries else failure

/-- A section that may be missing or null. -/
def readSection {α : Type} (table : AnchorTable) (read : AnchorTable → Node → Decode α)
    (given : Option Node) : Decode (Option α) := do
  match given with
  | none => return none
  | some node =>
    match ← table.unlessNull node with
    | none => return none
    | some node => return some (← read table node)

def read (table : AnchorTable) (root : Node) : Decode ConfigText := do
  let fields ← table.fields root
  let debug ← match ← Yaml.field? "debug".toList fields with
    | none => pure false
    | some value => table.flag value
  let settings ← Yaml.field? "settings".toList fields
  let playerColors ← readSection table readSettings settings
  let formats ← Yaml.field? "formats".toList fields
  let formats ← readSection table readFormats formats
  return { debug, playerColors, formats }

/-- A configuration as a YAML text gives it. -/
def ofYaml? (t : Text) : Option ConfigText := do (← Document.ofText? t).decode read

end ConfigText

/-- The reader for this shape. -/
def YamlReader.standard : YamlReader where
  config? := ConfigText.ofYaml?
  fields? := TemplateFields.ofValue?
  numberText := Yaml.Number.text

end StyledChat
