/-
24-bit colours: blending, the hue wheel, and the 256-colour palette.

The arithmetic on channels is IEEE single precision throughout, step by step as
written: gradients promise the same byte on every machine, so no step may be
reassociated or carried out in another precision.
-/
import StyledChat.Text

namespace StyledChat

/-- A colour of three eight-bit channels. -/
structure Rgb where
  r : UInt8
  g : UInt8
  b : UInt8
deriving DecidableEq, Repr

namespace Rgb

def white : Rgb := ⟨255, 255, 255⟩

def black : Rgb := ⟨0, 0, 0⟩

/-! ## Single-precision steps -/

/-- `x` held to `0 … 1`; a NaN stays one. -/
def clampUnit (x : Float32) : Float32 :=
  if x < 0.0 then 0.0 else if x > 1.0 then 1.0 else x

/-- The part of `x` above the whole number below it: the remainder by one, taken
toward zero and then lifted when it is negative. -/
def fraction (x : Float32) : Float32 :=
  let whole := if x < 0.0 then x.ceil else x.floor
  let rest := x - whole
  if rest < 0.0 then rest + 1.0 else rest

/-- The nearest byte, halves away from zero; values outside `0 … 255` go to the
nearer end and a NaN to `0`. -/
def toByte (x : Float32) : UInt8 := x.round.toUInt8

/-! ## Blending -/

/-- The channel a fraction `t` of the way from `a` to `b`. -/
def mixChannel (t : Float32) (a b : UInt8) : UInt8 :=
  toByte (a.toFloat32 + (b.toFloat32 - a.toFloat32) * t)

/-- The colour a fraction `t` of the way from `x` to `y`, with `t` held to
`0 … 1`. -/
def lerp (x y : Rgb) (t : Float32) : Rgb :=
  let t := clampUnit t
  ⟨mixChannel t x.r y.r, mixChannel t x.g y.g, mixChannel t x.b y.b⟩

/-- The colour of hue `h` (one turn per unit), saturation `s` and value `v`. -/
def ofHsv (h s v : Float32) : Rgb :=
  let h := fraction h * 6.0
  let sector := h.floor
  let f := h - sector
  let p := v * (1.0 - s)
  let q := v * (1.0 - s * f)
  let t := v * (1.0 - s * (1.0 - f))
  let byte (c : Float32) : UInt8 := toByte (c * 255.0)
  match sector.toUInt8.toNat with
  | 0 => ⟨byte v, byte t, byte p⟩
  | 1 => ⟨byte q, byte v, byte p⟩
  | 2 => ⟨byte p, byte v, byte t⟩
  | 3 => ⟨byte p, byte q, byte v⟩
  | 4 => ⟨byte t, byte p, byte v⟩
  | _ => ⟨byte v, byte p, byte q⟩

/-! ## The 256-colour palette -/

/-- The palette index a colour is shown with: equal channels go to the ramp of
24 grays or to the black and white corners of the cube, all others to the
6 × 6 × 6 cube, each channel scaled down to `0 … 5`. -/
def ansi256 (c : Rgb) : Nat :=
  let r := c.r.toNat
  let g := c.g.toNat
  let b := c.b.toNat
  if r = g ∧ g = b then
    if r < 8 then 16
    else if r > 248 then 231
    else 232 + (r - 8) * 24 / 247
  else
    16 + 36 * (r * 5 / 255) + 6 * (g * 5 / 255) + b * 5 / 255

/-! ## Written form -/

/-- A channel as two lower-case hex digits. -/
def hexByte (n : UInt8) : Text :=
  [Nat.digitChar (n.toNat / 16), Nat.digitChar (n.toNat % 16)]

/-- A colour as `#rrggbb`. -/
def hex (c : Rgb) : Text := '#' :: (hexByte c.r ++ hexByte c.g ++ hexByte c.b)

/-- The channel two hex digits denote. -/
def byteOfHex? (hi lo : Char) : Option UInt8 := do
  let h ← Text.digitValue? hi
  let l ← Text.digitValue? lo
  return UInt8.ofNat (16 * h + l)

/-- The colour six hex digits denote, in either case. -/
def ofHex? : Text → Option Rgb
  | [r₁, r₂, g₁, g₂, b₁, b₂] => do
    return ⟨← byteOfHex? r₁ r₂, ← byteOfHex? g₁ g₂, ← byteOfHex? b₁ b₂⟩
  | _ => none

end Rgb

end StyledChat
