/-
Fills in words of 64 bits.

`Fill.colorAt` counts without a bound.  Here the same steps are taken in words.  A sum or a
difference that does not fit wraps around, and that is reported beside the answer; a remainder by
zero and a stop that does not exist have no answer, and the computation stops there.

The steps in single precision always have an answer.  What they answer is left open, so that
nothing said about the words can rest on a rounding; `SingleSteps.single` are the ones that run.
-/
import StyledChat.Fill
import StyledChat.Logged

namespace StyledChat

/-- How a step in words goes around the end of the words. -/
inductive Wrap where
  | overflow
  | underflow
deriving DecidableEq, Repr

/-- Why a computation in words stops. -/
inductive Stop where
  | zeroDivisor
  | outOfRange
deriving DecidableEq, Repr

/-- A computation in words, with what wrapped around on the way. -/
abbrev InWords := ExceptT Stop (Logged Wrap)

/-- An answer, some steps to which wrapped around. -/
def InWords.answer {α : Type} (a : α) (wrapped : List Wrap) : InWords α :=
  ExceptT.mk ⟨.ok a, wrapped⟩

/-! ## Steps in words -/

namespace Word

def add (a b : UInt64) : InWords UInt64 :=
  .answer (a + b) (if a.toNat + b.toNat < UInt64.size then [] else [.overflow])

def sub (a b : UInt64) : InWords UInt64 :=
  .answer (a - b) (if b ≤ a then [] else [.underflow])

def rem (a b : UInt64) : InWords UInt64 := if b = 0 then throw .zeroDivisor else return a % b

/-- The number of items of a list, which is no longer than a word can tell. -/
def count {α : Type} (items : List α) : UInt64 := UInt64.ofNat items.length

def item {α : Type} (items : List α) (i : UInt64) : InWords α :=
  match items[i.toNat]? with
  | some a => return a
  | none => throw .outOfRange

end Word

/-! ## Steps in single precision -/

/-- The steps of a fill in single precision; `F` holds the numbers. -/
structure SingleSteps (F : Type) where
  ofWord : UInt64 → F
  div : F → F → F
  mul : F → F → F
  sub : F → F → F
  /-- Rounded down, and to the nearest word when there is none for it. -/
  floorWord : F → UInt64
  /-- The colour a part of the way from one to the other. -/
  blend : Rgb → Rgb → F → Rgb
  /-- The colour on the hue wheel. -/
  wheel : F → Rgb

def SingleSteps.single : SingleSteps Float32 where
  ofWord n := n.toFloat32
  div := (· / ·)
  mul := (· * ·)
  sub := (· - ·)
  floorWord x := x.floor.toUInt64
  blend := Rgb.lerp
  wheel hue := Rgb.ofHsv hue 1.0 1.0

/-! ## Fills -/

namespace Fill

variable {F : Type} (steps : SingleSteps F)

def checkedGradient (stops : List Color) (index length : UInt64) : InWords Color :=
  if Word.count stops < 2 ∨ length < 2 then
    return stops.head?.getD (.rgb Rgb.white)
  else do
    let last ← Word.sub length 1
    let position := steps.div (steps.ofWord index) (steps.ofWord last)
    let segments ← Word.sub (Word.count stops) 1
    let scaled := steps.mul position (steps.ofWord segments)
    let highest ← Word.sub (Word.count stops) 2
    let segment := min (steps.floorWord scaled) highest
    let rest := steps.sub scaled (steps.ofWord segment)
    let below ← Word.item stops segment
    let next ← Word.add segment 1
    let above ← Word.item stops next
    return .rgb (steps.blend below.toRgb above.toRgb rest)

def checkedStep (reversed : Bool) (index length : UInt64) : InWords UInt64 :=
  if reversed then do
    let last ← Word.sub length 1
    Word.sub last (min index last)
  else
    return index

def checkedRainbow (phase : UInt32) (reversed : Bool) (index length : UInt64) :
    InWords Color := do
  let length := max length 1
  let step ← checkedStep reversed index length
  let sum ← Word.add step phase.toUInt64
  let turned ← Word.rem sum length
  return .rgb (steps.wheel (steps.div (steps.ofWord turned) (steps.ofWord length)))

/-- The colour of character `index` out of `length`, each step in words or in single precision. -/
def checkedAt : Fill → UInt64 → UInt64 → InWords Color
  | gradient stops => checkedGradient steps stops
  | rainbow phase reversed => checkedRainbow steps phase reversed

end Fill

end StyledChat
