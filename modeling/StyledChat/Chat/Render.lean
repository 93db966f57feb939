/-
Rendering: one message, one template, one tree.

The message is read with the styling vocabulary, the template with the whole
one, and then both placeholders are replaced in a single pass over the
template's tree.  What is put in is never read again, so a player who types a
placeholder or a click tag gets exactly that text back.
-/
import StyledChat.Component.Splice
import StyledChat.Markup.Flag
import StyledChat.Markup.Parse
import StyledChat.Chat.Config
import StyledChat.Chat.Snapshot

namespace StyledChat

/-- A hook over the raw text of a template, run before its markup is read.  It
is given the display name and the text. -/
abbrev Expander := Text → Text → Text

/-- The display name of the console. -/
def consoleName : Text := "Console".toList

/-- The markup of a message as it will be read.  With legacy mixing, codes and
flags count. -/
def preparedMarkup (raw : Text) (mixing : Bool) : Text :=
  if mixing then spellOut raw else raw

/-- The tree of a message; an absent message is an empty tree. -/
def messageTree (raw : Option Text) (mixing : Bool) : Component :=
  parse? .restricted (raw.map fun t => preparedMarkup t mixing)

/-- The tree of a template's text, before anything is put in. -/
def templateTree (text : Text) : Component := parse .trusted (spellOut text)

/-- What takes the place of the two placeholders. -/
def fillings (name : Text) (message : Component) : List Replacement :=
  [⟨Template.namePlaceholder, Component.leaf name⟩,
   ⟨Template.messagePlaceholder, message⟩]

/-- The tree of a template's text with both placeholders filled. -/
def filledTree (text name : Text) (message : Component) : Component :=
  (templateTree text).splice (fillings name message)

/-- A template filled for a player: the hook, if there is one, sees its text
first. -/
def Template.fill (t : Template) (expander : Option Expander) (name : Text)
    (message : Component) : Component :=
  match expander with
  | some expand => filledTree (expand name t.text) name message
  | none => filledTree t.text name message

/-- What a message is rendered against. -/
structure Renderer where
  snapshot : Snapshot
  expander : Option Expander := none

namespace Renderer

/-- The message of a player, or of the console when there is no name.  The hook
is not run for the console: there is no player to expand placeholders for. -/
def render (r : Renderer) (name : Option Text) (raw : Option Text) (perms : Permissions)
    (mixing : Bool) : Logged Diagnostic Component := do
  let t ← r.snapshot.resolve perms
  let message := messageTree raw mixing
  match name with
  | some name => return t.fill r.expander name message
  | none => return filledTree t.text consoleName message

/-! ## A renderer by itself -/

/-- A renderer for some templates. -/
def ofTemplates (templates : List Template) (expander : Option Expander) :
    Logged Diagnostic Renderer := do
  return { snapshot := ← Snapshot.build templates, expander }

/-- A message sent under a name. -/
def renderNamed (r : Renderer) (name : Text) (raw : Option Text) (perms : Permissions)
    (mixing : Bool) : Logged Diagnostic Component :=
  r.render (some name) raw perms mixing

/-- A message of the console; the hook is left out. -/
def renderConsole (r : Renderer) (raw : Option Text) (perms : Permissions) (mixing : Bool) :
    Logged Diagnostic Component :=
  Renderer.render { r with expander := none } none raw perms mixing

end Renderer

/-- What a renderer set up for a configuration alone makes of a message. -/
def Config.rendered (config : Config) (expander : Option Expander) (name raw : Option Text)
    (perms : Permissions) : Component :=
  let fresh := (Renderer.ofTemplates config.templates expander).value
  let mixing := config.settings.legacyMixing
  match name with
  | some name => (fresh.renderNamed name raw perms mixing).value
  | none => (fresh.renderConsole raw perms mixing).value

end StyledChat
