/-
From marked-up text to a tree, in two vocabularies.

Text that administrators write is read with the whole vocabulary; text that
players type is read with the styling tags only.  Both share one grammar.  A tag
that is unknown, not allowed, or closes nothing is kept as literal text, so
reading never fails.

* An open tag without a closing tag reaches to the end.
* A closing tag ends the innermost open tag it matches, and every tag opened
  inside it.
* `<reset>` ends everything that is open.
-/
import StyledChat.Markup.Tag

namespace StyledChat

/-- Which tags count in a text. -/
inductive Vocabulary where
  /-- The whole vocabulary: text of administrators. -/
  | trusted
  /-- Styling tags only: text of players. -/
  | restricted
deriving DecidableEq, Repr

namespace Vocabulary

/-- The groups of tags in a vocabulary. -/
def groups : Vocabulary → List TagGroup
  | trusted => TagGroup.all
  | restricted => TagGroup.styling

/-- Whether the tags of a group count. -/
def allows (v : Vocabulary) (g : TagGroup) : Bool := v.groups.contains g

end Vocabulary

/-! ## The tree under construction -/

/-- An open tag, and what its parent held before it. -/
structure OpenTag where
  name : Text
  key : Text
  style : Style
  before : List Component

namespace OpenTag

/-- The children of the parent once the tag ends around `inside`. -/
def wrap (tag : OpenTag) (inside : List Component) : List Component :=
  tag.before ++ [Component.node tag.style inside]

/-- Whether a closing tag of this name ends the tag: it has the same name, or it
ends all tags of the key. -/
def endedBy (name : Text) (tag : OpenTag) : Bool :=
  tag.name == name || Tag.genericKey? name == some tag.key

end OpenTag

/-- A tree that is being read: what the innermost open tag holds so far, and the
open tags, innermost first. -/
structure Draft where
  here : List Component := []
  openTags : List OpenTag := []

namespace Draft

/-- Adds text to the end of a list of children, joining it with a leaf of plain
text that stands last. -/
def addText (children : List Component) (t : Text) : List Component :=
  if t.isEmpty then children
  else
    match children.getLast? with
    | some last =>
      if last.isLeaf then children.dropLast ++ [Component.leaf (last.text ++ t)]
      else children ++ [Component.leaf t]
    | none => [Component.leaf t]

def text (d : Draft) (t : Text) : Draft := { d with here := addText d.here t }

def openTag (d : Draft) (name key : Text) (style : Style) : Draft :=
  ⟨[], ⟨name, key, style, d.here⟩ :: d.openTags⟩

/-- Ends every open tag: the children of the root. -/
def endAll (here : List Component) : List OpenTag → List Component
  | [] => here
  | tag :: outer => endAll (tag.wrap here) outer

/-- Ends the innermost open tag that `name` matches and those inside it; `none`
when it matches none. -/
def endThrough? (name : Text) (here : List Component) : List OpenTag → Option Draft
  | [] => none
  | tag :: outer =>
    if tag.endedBy name then some ⟨tag.wrap here, outer⟩
    else endThrough? name (tag.wrap here) outer

/-- Ends everything that is open. -/
def reset (d : Draft) : Draft := ⟨endAll d.here d.openTags, []⟩

/-- The tree read so far, everything that is open ended. -/
def finish (d : Draft) : Component := Component.node Style.empty (endAll d.here d.openTags)

end Draft

/-! ## Reading tokens -/

/-- The one-property style of a tag; hover markup is read by `read`. -/
def Tag.style (read : Text → Component) : Tag → Style
  | .color c => { color := some c }
  | .decoration d on => Style.empty.decorate d on
  | .fill f => { fill := some f }
  | .click event => { click := some event }
  | .hover markup => { hover := some (read markup) }
  | .insertion t => { insertion := some t }
  | .font key => { font := some key }
  | .reset | .newline => {}

namespace Draft

/-- An opening tag that means `tag`. -/
def opened (read : Text → Component) (d : Draft) (name : Text) : Tag → Draft
  | .reset => d.reset
  | .newline => d.text ['\n']
  | tag => d.openTag name tag.closeKey (tag.style read)

/-- The tag an opening tag means, if it means any that is in the vocabulary. -/
def allowedTag? (v : Vocabulary) (tag : Tagged) : Option Tag :=
  (Tag.resolve? tag).filter fun t => v.allows t.group

/-- One token. -/
def step (v : Vocabulary) (read : Text → Component) (d : Draft) : Token → Draft
  | .text raw => d.text (Token.unescape raw)
  | .opening tag =>
    match allowedTag? v tag with
    | none => d.text tag.raw
    | some meaning => d.opened read tag.name meaning
  | .closing tag =>
    match endThrough? tag.name d.here d.openTags with
    | none => d.text tag.raw
    | some closed => closed

end Draft

/-- Reads a text whose hover markup is read by `read`. -/
def parseWith (v : Vocabulary) (read : Text → Component) (t : Text) : Component :=
  ((Token.ofText t).foldl (Draft.step v read) {}).finish

/-- Reads a text.  Hover markup is shorter than the text it stands in, so the
reading of hover markup inside hover markup comes to an end. -/
def parse (v : Vocabulary) (t : Text) : Component :=
  parseWith v
    (fun markup => if _shorter : markup.length < t.length then parse v markup
      else Component.empty) t
termination_by t.length

/-- Reads a text that may be absent; an absent text is an empty tree. -/
def parse? (v : Vocabulary) (t : Option Text) : Component :=
  (t.map (parse v)).getD Component.empty

end StyledChat
