/-
Flattening a tree into runs of text with one resolved style each.

The walk carries two things down the tree: the style that the surroundings give
to unset properties, and the place reached in the innermost fill that has been
opened.  Every character below the filled node counts, whether the fill colours
it or not, so that a fill goes on behind explicitly coloured text, and behind
fills nested inside it, as if they had been its own.
-/
import StyledChat.Component

namespace StyledChat

/-- A run of text with its resolved style. -/
structure Span where
  text : Text
  style : Style
deriving DecidableEq

/-- A place in a fill: the next character it meets is number `index` of
`length`. -/
structure FillPlace where
  fill : Fill
  length : Nat
  index : Nat

namespace FillPlace

/-- A fill at the first of `length` characters. -/
def start (fill : Fill) (length : Nat) : FillPlace := ⟨fill, length, 0⟩

/-- The place after `n` more characters. -/
def advance (p : FillPlace) (n : Nat) : FillPlace := { p with index := p.index + n }

/-- The colour of the next character. -/
def color (p : FillPlace) : Color := p.fill.colorAt p.index p.length

end FillPlace

namespace Span

/-- One run per character, each in the colour that the fill gives it. -/
def paint (style : Style) : FillPlace → Text → List Span
  | _, [] => []
  | place, c :: rest =>
    ⟨[c], { style with color := some place.color }⟩ :: paint style (place.advance 1) rest

/-- The runs of a node's own text: painted by the innermost fill when the
resolved style has no colour, one run otherwise. -/
def ofText (text : Text) (style : Style) (place : Option FillPlace) : List Span :=
  if text.isEmpty then []
  else
    match place, style.color with
    | some place, none => paint style place text
    | _, _ => [⟨text, style⟩]

/-- Joins neighbouring runs of equal style. -/
def merge : List Span → List Span
  | [] => []
  | s :: rest =>
    match merge rest with
    | [] => [s]
    | t :: more =>
      if s.style = t.style then ⟨s.text ++ t.text, s.style⟩ :: more else s :: t :: more

end Span

/-- The style of a node's own text.  A fill cuts off the colours inherited from
above, but not a colour set on the filled node itself. -/
def Style.resolve (own parent : Style) : Style :=
  match own.fill with
  | none => own.inherit parent
  | some _ => { own.inherit parent with color := own.color }

mutual

/-- The runs of a tree in reading order, not yet joined, and the place of the
surrounding fill behind them. -/
def Component.flatten (parent : Style) (outer : Option FillPlace) :
    Component → List Span × Option FillPlace
  | ⟨text, style, children⟩ =>
    let resolved := style.resolve parent
    match style.fill with
    | none =>
      let here := Span.ofText text resolved outer
      let (below, after) :=
        flattenAll resolved (outer.map (·.advance text.length)) children
      (here ++ below, after)
    | some fill =>
      let inner := FillPlace.start fill (text.length + charCounts children)
      let here := Span.ofText text resolved (some inner)
      let (below, after) :=
        flattenAll resolved (some (inner.advance text.length)) children
      let done := (after.map (·.index)).getD 0
      (here ++ below, outer.map (·.advance done))

/-- The runs of the trees of a list, one after the other. -/
def flattenAll (parent : Style) (outer : Option FillPlace) :
    List Component → List Span × Option FillPlace
  | [] => ([], outer)
  | c :: rest =>
    let (here, between) := c.flatten parent outer
    let (below, after) := flattenAll parent between rest
    (here ++ below, after)

end

/-- The runs of a tree: neighbours differ in style, and no run is empty. -/
def Component.spans (c : Component) : List Span :=
  Span.merge (c.flatten Style.empty none).1

end StyledChat
