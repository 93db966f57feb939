/-
Binary64: the finite numbers with 53 significant bits, and their decimal forms.

Both directions are exact: reading takes the number nearest to a decimal, and
writing takes the shortest decimal that reads as the number, and of the shortest
the nearest.  A tie goes to the even neighbour either way.
-/
import StyledChat.Text

namespace StyledChat

/-- `digits · 10 ^ exponent`. -/
structure Decimal where
  digits : Nat
  exponent : Int
deriving DecidableEq, Repr

/-- `± mantissa · 2 ^ exponent`.  The mantissa has 53 bits, or fewer where the
exponent is the least there is. -/
structure Binary64 where
  negative : Bool
  mantissa : Nat
  exponent : Int
deriving DecidableEq, Repr

namespace Binary64

/-- The least exponent. -/
def leastExponent : Int := -1074

/-- The greatest exponent. -/
def greatestExponent : Int := 971

/-- The first bit of a mantissa of 53 bits. -/
def leadingBit : Nat := Nat.pow 2 52

/-- Equality of numbers: the two zeros are one. -/
def same (a b : Binary64) : Bool := a == b || (a.mantissa == 0 && b.mantissa == 0)

/-! ## Quotients -/

/-- The whole number nearest to a quotient, the even one of two. -/
def roundDiv (num den : Nat) : Nat :=
  let q := num / den
  let twice := 2 * (num % den)
  if twice < den then q else if twice > den then q + 1 else q + q % 2

/-- A quotient divided by a power of a base. -/
def scale (base : Nat) (power : Int) (num den : Nat) : Nat × Nat :=
  (num * Nat.pow base (-power).toNat, den * Nat.pow base power.toNat)

/-- The number of decimal digits of a number. -/
def digitCount (n : Nat) : Nat := (Nat.toDigits 10 n).length

/-! ## Reading -/

/-- The exponent for the number nearest to a quotient. -/
def exponentOf (num den : Nat) : Int :=
  let guess : Int := (num.log2 : Int) - den.log2 - 52
  let (n, d) := scale 2 guess num den
  max leastExponent (if n / d < leadingBit then guess - 1 else guess)

/-- The number nearest to a quotient, with a sign; a quotient that is too large
has none. -/
def nearest? (negative : Bool) (num den : Nat) : Option Binary64 :=
  let exponent := exponentOf num den
  let (n, d) := scale 2 exponent num den
  let mantissa := roundDiv n d
  let (mantissa, exponent) :=
    if mantissa < 2 * leadingBit then (mantissa, exponent) else (mantissa / 2, exponent + 1)
  if exponent ≤ greatestExponent then some ⟨negative, mantissa, exponent⟩ else none

/-- The number nearest to a decimal.  Far beyond the greatest number and far below
the least, the power of ten is not worked out. -/
def ofDecimal? (negative : Bool) (x : Decimal) : Option Binary64 :=
  let magnitude : Int := digitCount x.digits + x.exponent
  if x.digits = 0 ∨ magnitude < -400 then some ⟨negative, 0, leastExponent⟩
  else if magnitude > 400 then none
  else
    let (num, den) := scale 10 (-x.exponent) x.digits 1
    nearest? negative num den

/-! ## Writing -/

/-- Whether a decimal reads as the number, up to its sign: it lies between the
points half-way to the neighbours, or on one if the mantissa is even.  Below a
power of two the neighbour is half as far. -/
def reads (x : Binary64) (d : Decimal) : Bool :=
  let below := if x.mantissa = leadingBit ∧ x.exponent > leastExponent then 1 else 2
  let (n, one) := scale 10 (-d.exponent) d.digits 1
  let (n, one) := scale 2 (x.exponent - 2) n one
  let low := (4 * x.mantissa - below) * one
  let high := (4 * x.mantissa + 2) * one
  (low < n && n < high) || (x.mantissa % 2 == 0 && (n == low || n == high))

/-- The number as a quotient, up to its sign. -/
def toRatio (x : Binary64) : Nat × Nat := scale 2 (-x.exponent) x.mantissa 1

/-- Of the two neighbours of a number among the multiples of `10 ^ exponent`, the
nearer one that reads as it. -/
def onGrid? (x : Binary64) (exponent : Int) : Option Decimal :=
  let (num, den) := x.toRatio
  let (n, d) := scale 10 exponent num den
  let nearer := roundDiv n d
  let other := if nearer = n / d then nearer + 1 else n / d
  [nearer, other].map (Decimal.mk · exponent) |>.find? x.reads

/-- The exponent of ten of the leading digit of a quotient. -/
def leadingExponent (num den : Nat) : Int :=
  if den ≤ num then digitCount (num / den) - 1 else -digitCount ((den - 1) / num)

/-- A decimal without the zeros at its end. -/
def stripZeros (d : Decimal) : Decimal :=
  if _h : d.digits ≠ 0 ∧ d.digits % 10 = 0 then stripZeros ⟨d.digits / 10, d.exponent + 1⟩ else d
termination_by d.digits
decreasing_by exact Nat.div_lt_self (Nat.pos_of_ne_zero _h.1) (by decide)

/-- The shortest decimal that reads as the number.  Seventeen digits always do. -/
def shortest (x : Binary64) : Decimal :=
  if x.mantissa = 0 then ⟨0, 0⟩
  else
    let (num, den) := x.toRatio
    let leading := leadingExponent num den
    let found := (List.range 17).findSome? fun (n : Nat) => x.onGrid? (leading - (n : Int))
    stripZeros (found.getD ⟨num, 0⟩)

end Binary64

end StyledChat
