/-
The tag vocabulary: which names there are, what a tag with its arguments means,
which group each tag belongs to, and which closing tags end it.
-/
import StyledChat.Component
import StyledChat.Markup.Token

namespace StyledChat

/-- The groups of tags that are allowed or refused together. -/
inductive TagGroup where
  | color | decoration | gradient | rainbow | reset
  | click | hover | insertion | newline | font
deriving DecidableEq, Repr

namespace TagGroup

/-- The groups that change only how text looks. -/
def styling : List TagGroup := [color, decoration, gradient, rainbow, reset]

def all : List TagGroup :=
  [color, decoration, gradient, rainbow, reset, click, hover, insertion, newline, font]

/-- Whether tags of the group make text clickable or hoverable, or insert
something. -/
def isInteractive (g : TagGroup) : Bool := g == click || g == hover || g == insertion

end TagGroup

/-! ## Names -/

/-- What a tag name stands for. -/
inductive TagName where
  | decoration (d : Decoration)
  /-- A colour name or hex code used as a tag name. -/
  | plainColor
  | color | gradient | rainbow | reset | click | hover | insertion | newline | font
deriving DecidableEq, Repr

namespace TagName

/-- The names that are neither decorations nor colours. -/
def table : List (Text × TagName) :=
  [("color".toList, color), ("colour".toList, color), ("c".toList, color),
   ("gradient".toList, gradient), ("rainbow".toList, rainbow), ("reset".toList, reset),
   ("click".toList, click), ("hover".toList, hover),
   ("insert".toList, insertion), ("insertion".toList, insertion),
   ("font".toList, font), ("newline".toList, newline), ("br".toList, newline)]

/-- The meaning of a lower-case name. -/
def ofText? (t : Text) : Option TagName :=
  match Decoration.ofName? t with
  | some d => some (decoration d)
  | none =>
    if t.head? = some '#' ∨ (NamedColor.ofName? t).isSome then some plainColor
    else table.lookup t

end TagName

/-! ## Tags -/

/-- A tag whose name and arguments make sense together. -/
inductive Tag where
  | color (c : Color)
  | decoration (d : Decoration) (on : Bool)
  | fill (f : Fill)
  | reset
  | click (event : ClickEvent)
  /-- The hover text is markup, still to be read. -/
  | hover (markup : Text)
  | insertion (t : Text)
  | font (key : Text)
  | newline
deriving DecidableEq

namespace Tag

def group : Tag → TagGroup
  | color _ => .color
  | decoration _ _ => .decoration
  | fill (.gradient _) => .gradient
  | fill (.rainbow _ _) => .rainbow
  | reset => .reset
  | click _ => .click
  | hover _ => .hover
  | insertion _ => .insertion
  | font _ => .font
  | newline => .newline

/-! ### Arguments -/

/-- Whether a decoration tag switches on: without argument it does unless it is
negated; `true` and `false` are the only arguments, and not of a negated tag. -/
def switch? (negated : Bool) : List Text → Option Bool
  | [] => some !negated
  | [value] =>
    if negated then none
    else if Text.sameLetters value "true".toList then some true
    else if Text.sameLetters value "false".toList then some false
    else none
  | _ => none

/-- The stops of a gradient: white to black without arguments, else at least
two colours. -/
def stops? : List Text → Option (List Color)
  | [] => some [.rgb Rgb.white, .rgb Rgb.black]
  | [_] => none
  | args => args.mapM Color.parse?

/-- A 32-bit number in base ten, with or without a `+` in front. -/
def phase? (t : Text) : Option UInt32 :=
  let digits :=
    match t with
    | '+' :: rest => rest
    | _ => t
  match Text.number? 10 digits with
  | none => none
  | some n => if n < UInt32.size then some (UInt32.ofNat n) else none

/-- The rainbow of an argument: `!` reverses, and a phase may follow. -/
def rainbow? (t : Text) : Option Fill :=
  let (reversed, phase) :=
    match t with
    | '!' :: rest => (true, rest)
    | _ => (false, t)
  if phase.isEmpty then some (.rainbow 0 reversed)
  else (phase? phase).map fun n => .rainbow n reversed

/-! ### Meaning -/

/-- The meaning of a tag by what its name stands for; `none` when the arguments
do not fit.  Only decorations can be negated. -/
def ofName? (tag : Tagged) : TagName → Option Tag
  | .decoration d => (switch? tag.negated tag.args).map (decoration d)
  | name =>
    if tag.negated then none
    else
      match name, tag.args with
      | .plainColor, [] => (Color.parse? tag.name).map color
      | .color, [value] => (Color.parse? value).map color
      | .gradient, args => (stops? args).map fun stops => fill (.gradient stops)
      | .rainbow, [] => some (fill (.rainbow 0 false))
      | .rainbow, [value] => (rainbow? value).map fill
      | .reset, [] => some reset
      | .click, [action, value] =>
        (ClickAction.ofName? (Text.lower action)).map fun a => click ⟨a, value⟩
      | .hover, [action, markup] =>
        if Text.sameLetters action "show_text".toList then some (hover markup) else none
      | .insertion, [value] => some (insertion value)
      | .font, [key] => if key.isEmpty then none else some (font key)
      | .newline, [] => some newline
      | _, _ => none

/-- The meaning of a tag; `none` for unknown names and for arguments that do not
fit. -/
def resolve? (tag : Tagged) : Option Tag :=
  match TagName.ofText? tag.name with
  | none => none
  | some name => ofName? tag name

/-! ### Closing -/

/-- The key of a tag, shared by all spellings of its kind. -/
def closeKey : Tag → Text
  | color _ => "color".toList
  | decoration d _ => d.name
  | fill (.gradient _) => "gradient".toList
  | fill (.rainbow _ _) => "rainbow".toList
  | reset => "reset".toList
  | click _ => "click".toList
  | hover _ => "hover".toList
  | insertion _ => "insertion".toList
  | font _ => "font".toList
  | newline => "newline".toList

/-- The names of closing tags that end every tag of a key, decorations apart. -/
def genericKeys : List (Text × Text) :=
  [("color".toList, "color".toList), ("colour".toList, "color".toList),
   ("c".toList, "color".toList), ("gradient".toList, "gradient".toList),
   ("rainbow".toList, "rainbow".toList), ("click".toList, "click".toList),
   ("hover".toList, "hover".toList), ("insert".toList, "insertion".toList),
   ("insertion".toList, "insertion".toList), ("font".toList, "font".toList)]

/-- The key of the tags that a closing tag of this name ends, whatever they were
written with.  The name of a colour has none: it ends only a tag of that very
name. -/
def genericKey? (name : Text) : Option Text :=
  match Decoration.ofName? name with
  | some d => some d.name
  | none => genericKeys.lookup name

end Tag

end StyledChat
