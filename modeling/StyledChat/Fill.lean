/-
Fills: colours spread over the characters below a node.

A fill is asked for the colour of character `index` out of `length`.  Only the
position matters, so the same fill can be spread over text that is not known
when the fill is written.
-/
import StyledChat.Color

namespace StyledChat

inductive Fill where
  /-- Colour stops at even distances. -/
  | gradient (stops : List Color)
  /-- A sweep of the hue wheel; `phase` moves its start by whole characters. -/
  | rainbow (phase : UInt32) (reversed : Bool)
deriving DecidableEq, Repr

namespace Fill

/-- The number as a single-precision value, rounded to nearest. -/
def single (n : Nat) : Float32 := (UInt64.ofNat n).toFloat32

/-- The stop below position `scaled`, counted in segments, such that the stop
after it exists too. -/
def segment (scaled : Float32) (stops : Nat) : Nat :=
  min scaled.floor.toUInt64.toNat (stops - 2)

/-- The colour of a gradient at `index` of `length`.  With fewer than two stops,
or fewer than two characters, it is the first stop, or white when there is
none. -/
def gradientAt (stops : List Color) (index length : Nat) : Color :=
  if h : stops.length < 2 ∨ length < 2 then
    stops.head?.getD (.rgb Rgb.white)
  else
    let position := single index / single (length - 1)
    let scaled := position * single (stops.length - 1)
    let i := segment scaled stops.length
    have hi : i + 1 < stops.length := by
      have : i ≤ stops.length - 2 := Nat.min_le_right _ _
      omega
    .rgb (Rgb.lerp stops[i].toRgb stops[i + 1].toRgb (scaled - single i))

/-- How many characters into the sweep a character of a rainbow stands. -/
def rainbowStep (phase : UInt32) (reversed : Bool) (index length : Nat) : Nat :=
  let step := if reversed then length - 1 - min index (length - 1) else index
  (step + phase.toNat) % length

/-- The colour of a rainbow at `index` of `length`; an empty text counts as one
character long. -/
def rainbowAt (phase : UInt32) (reversed : Bool) (index length : Nat) : Color :=
  let length := max length 1
  let hue := single (rainbowStep phase reversed index length) / single length
  .rgb (Rgb.ofHsv hue 1.0 1.0)

/-- The colour of character `index` out of `length`. -/
def colorAt : Fill → Nat → Nat → Color
  | gradient stops => gradientAt stops
  | rainbow phase reversed => rainbowAt phase reversed

end Fill

end StyledChat
