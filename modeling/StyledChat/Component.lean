/-
Styled text as a tree.

A component is a node with text of its own, a style and children.  Styles
inherit downwards: a child overrides only what it sets.  A node's own text comes
before its children in reading order.  The hover text of a style is a component
too, so styles and components are defined together.
-/
import StyledChat.Fill
import StyledChat.Decoration
import StyledChat.Click

namespace StyledChat

mutual

/-- The properties a node sets; `none` means "as in the surroundings". -/
structure Style where
  color : Option Color := none
  fill : Option Fill := none
  decorations : Decorations := {}
  click : Option ClickEvent := none
  hover : Option Component := none
  insertion : Option Text := none
  font : Option Text := none

/-- A node of styled text. -/
structure Component where
  text : Text
  style : Style
  children : List Component

end

/-! ## Equality is decidable

One function per type that occurs in a component, each by cases on both sides. -/

mutual

def Style.decEq : (s t : Style) → Decidable (s = t)
  | ⟨c, f, d, k, h, i, o⟩, ⟨c', f', d', k', h', i', o'⟩ =>
    if same : c = c' ∧ f = f' ∧ d = d' ∧ k = k' ∧ i = i' ∧ o = o' then
      match decEqHover h h' with
      | isTrue e => isTrue (by
          obtain ⟨rfl, rfl, rfl, rfl, rfl, rfl⟩ := same
          subst e
          rfl)
      | isFalse n => isFalse (fun e => n (by injection e))
    else isFalse (fun e => same (by
      injection e with h₁ h₂ h₃ h₄ _ h₆ h₇
      exact ⟨h₁, h₂, h₃, h₄, h₆, h₇⟩))

def decEqHover : (h h' : Option Component) → Decidable (h = h')
  | none, none => isTrue rfl
  | none, some _ => isFalse (fun e => nomatch e)
  | some _, none => isFalse (fun e => nomatch e)
  | some c, some c' =>
    match Component.decEq c c' with
    | isTrue e => isTrue (congrArg some e)
    | isFalse n => isFalse (fun e => n (Option.some.inj e))

def Component.decEq : (c c' : Component) → Decidable (c = c')
  | ⟨t, s, cs⟩, ⟨t', s', cs'⟩ =>
    if same : t = t' then
      match Style.decEq s s' with
      | isFalse n => isFalse (fun e => n (by injection e))
      | isTrue es =>
        match decEqChildren cs cs' with
        | isTrue ec => isTrue (by subst same; subst es; subst ec; rfl)
        | isFalse n => isFalse (fun e => n (by injection e))
    else isFalse (fun e => same (by injection e))

def decEqChildren : (cs cs' : List Component) → Decidable (cs = cs')
  | [], [] => isTrue rfl
  | [], _ :: _ => isFalse (fun e => nomatch e)
  | _ :: _, [] => isFalse (fun e => nomatch e)
  | c :: cs, c' :: cs' =>
    match Component.decEq c c' with
    | isFalse n => isFalse (fun e => n (List.cons.inj e).1)
    | isTrue eh =>
      match decEqChildren cs cs' with
      | isTrue et => isTrue (by subst eh; subst et; rfl)
      | isFalse n => isFalse (fun e => n (List.cons.inj e).2)

end

instance : DecidableEq Style := Style.decEq

instance : DecidableEq Component := Component.decEq

namespace Style

/-- The style that sets nothing. -/
def empty : Style := {}

/-- Whether nothing is set. -/
def isEmpty (s : Style) : Bool := s == empty

/-- Whether the text can be clicked or hovered over, or inserts something. -/
def isInteractive (s : Style) : Bool :=
  s.click.isSome || s.hover.isSome || s.insertion.isSome

/-- The style with one decoration switched on or off. -/
def decorate (s : Style) (d : Decoration) (on : Bool) : Style :=
  { s with decorations := s.decorations.set on d }

/-- Whether a decoration is explicitly on. -/
def has (s : Style) (d : Decoration) : Bool := s.decorations.has d

/-- Every property that `s` leaves open, taken from `parent`.  A fill is not
handed down: it is spread over all text below its node at once. -/
def inherit (s parent : Style) : Style where
  color := s.color.or parent.color
  fill := none
  decorations := s.decorations.inherit parent.decorations
  click := s.click.or parent.click
  hover := s.hover.or parent.hover
  insertion := s.insertion.or parent.insertion
  font := s.font.or parent.font

end Style

namespace Component

/-- No text, no style, no children. -/
def empty : Component := ⟨[], Style.empty, []⟩

/-- A leaf of plain text. -/
def leaf (t : Text) : Component := ⟨t, Style.empty, []⟩

/-- A node without text of its own. -/
def node (style : Style) (children : List Component) : Component := ⟨[], style, children⟩

/-- Whether the node is a leaf of plain text. -/
def isLeaf (c : Component) : Bool := c.style.isEmpty && c.children.isEmpty

/-- The same node with another style. -/
def withStyle (c : Component) (style : Style) : Component := { c with style }

/-- The node with one more child at its end. -/
def append (c child : Component) : Component :=
  { c with children := c.children ++ [child] }

end Component

/-! ## Reading a tree -/

mutual

/-- The text of the whole tree, all styling dropped. -/
def Component.plainText : Component → Text
  | ⟨text, _, children⟩ => text ++ plainTexts children

/-- The texts of the trees of a list, one after the other. -/
def plainTexts : List Component → Text
  | [] => []
  | c :: rest => c.plainText ++ plainTexts rest

end

mutual

/-- The number of characters in the tree. -/
def Component.charCount : Component → Nat
  | ⟨text, _, children⟩ => text.length + charCounts children

def charCounts : List Component → Nat
  | [] => 0
  | c :: rest => c.charCount + charCounts rest

end

mutual

/-- Whether the tree holds no text at all. -/
def Component.isBlank : Component → Bool
  | ⟨text, _, children⟩ => text.isEmpty && allBlank children

def allBlank : List Component → Bool
  | [] => true
  | c :: rest => c.isBlank && allBlank rest

end

mutual

/-- Whether any node of the tree can be clicked or hovered over, or inserts
something. -/
def Component.isInteractive : Component → Bool
  | ⟨_, style, children⟩ => style.isInteractive || anyInteractive children

def anyInteractive : List Component → Bool
  | [] => false
  | c :: rest => c.isInteractive || anyInteractive rest

end

end StyledChat
