/-
Text as a list of characters.

Everything this library reads and writes is scanned one character at a time, so
text is kept as the list of its characters: a scanner is then a recursion on the
list, and a statement about text is a statement about lists.  `String` is met
only where a literal is written down (`"red".toList`) and at the outer border.
-/

namespace StyledChat

/-- A text: its characters in reading order. -/
abbrev Text := List Char

namespace Text

/-! ## Letter case -/

/-- The text with `A`-`Z` lowered; every other character, accented letters
included, is kept. -/
def lower (t : Text) : Text := t.map Char.toLower

/-- Equality up to the case of `A`-`Z`. -/
def sameLetters (a b : Text) : Bool := lower a == lower b

/-! ## Blanks -/

/-- The Unicode property `White_Space`: 25 characters. -/
def isBlankChar (c : Char) : Bool :=
  let n := c.toNat
  (0x09 ≤ n && n ≤ 0x0d) || n == 0x20 || n == 0x85 || n == 0xa0 || n == 0x1680
    || (0x2000 ≤ n && n ≤ 0x200a) || n == 0x2028 || n == 0x2029 || n == 0x202f
    || n == 0x205f || n == 0x3000

/-- A text of blanks only; the empty text is one. -/
def isBlank (t : Text) : Bool := t.all isBlankChar

/-- The text without the blanks at its end. -/
def trimEnd (t : Text) : Text := (t.reverse.dropWhile isBlankChar).reverse

/-- The text without the blanks at either end. -/
def trim (t : Text) : Text := trimEnd (t.dropWhile isBlankChar)

/-! ## Searching and cutting -/

/-- Cuts at the first `c`, which neither part keeps. -/
def cutAt? (c : Char) : Text → Option (Text × Text)
  | [] => none
  | d :: rest =>
    if d = c then some ([], rest)
    else (cutAt? c rest).map fun (before, after) => (d :: before, after)

theorem cutAt?_eq {c : Char} {t : Text} (h : c ∉ t) (u : Text) :
    cutAt? c (t ++ c :: u) = some (t, u) := by
  induction t with
  | nil => exact if_pos rfl
  | cons d rest ih =>
      have hd : d ≠ c := fun e => h (e ▸ List.mem_cons_self)
      rw [List.cons_append, cutAt?, if_neg hd, ih fun hmem => h (List.mem_cons_of_mem d hmem)]
      rfl

theorem cutAt?_of_not_mem {c : Char} {t : Text} (h : c ∉ t) : cutAt? c t = none := by
  induction t with
  | nil => rfl
  | cons d rest ih =>
      have hd : d ≠ c := fun e => h (e ▸ List.mem_cons_self)
      rw [cutAt?, if_neg hd, ih fun hmem => h (List.mem_cons_of_mem d hmem)]
      rfl

/-- What follows `start` in a text that starts with it. -/
def after? : (start t : Text) → Option Text
  | [], t => some t
  | _ :: _, [] => none
  | a :: start, c :: t => if a = c then after? start t else none

theorem after?_eq_some_iff : ∀ {start t rest : Text}, after? start t = some rest ↔ t = start ++ rest
  | [], t, rest => by simp [after?]
  | a :: start, [], rest => by simp [after?]
  | a :: start, c :: t, rest => by
    by_cases h : a = c
    · simp [after?, h, after?_eq_some_iff]
    · simp [after?, h, Ne.symm h]

/-- Cuts at the first occurrence of `needle`, which neither part keeps. -/
def cutAround? (needle : Text) : Text → Option (Text × Text)
  | [] => if needle.isEmpty then some ([], []) else none
  | c :: rest =>
    match after? needle (c :: rest) with
    | some behind => some ([], behind)
    | none => (cutAround? needle rest).map fun (before, behind) => (c :: before, behind)

/-- A cut loses the needle and nothing else. -/
theorem eq_of_cutAround? {needle : Text} :
    ∀ {t before behind : Text}, cutAround? needle t = some (before, behind) →
      t = before ++ needle ++ behind
  | [], before, behind, h => by
    simp only [cutAround?] at h
    split at h
    · next hn =>
      simp only [Option.some.injEq, Prod.mk.injEq] at h
      obtain ⟨rfl, rfl⟩ := h
      simp [List.isEmpty_iff.mp hn]
    · simp at h
  | c :: rest, before, behind, h => by
    simp only [cutAround?] at h
    split at h
    · next ha =>
      simp only [Option.some.injEq, Prod.mk.injEq] at h
      obtain ⟨rfl, rfl⟩ := h
      simpa using after?_eq_some_iff.mp ha
    · simp only [Option.map_eq_some_iff, Prod.mk.injEq, Prod.exists] at h
      obtain ⟨b, a, hcut, rfl, rfl⟩ := h
      simp [eq_of_cutAround? hcut]

/-- Whether `needle` occurs in the text. -/
def hasInfix (needle t : Text) : Bool := (cutAround? needle t).isSome

/-- The texts in order, with `sep` between neighbours. -/
def join (sep : Text) : List Text → Text
  | [] => []
  | [t] => t
  | t :: rest => t ++ sep ++ join sep rest

/-! ## Digits -/

/-- The value of a digit in base 16, either case. -/
def digitValue? (c : Char) : Option Nat :=
  if '0' ≤ c ∧ c ≤ '9' then some (c.toNat - '0'.toNat)
  else if 'a' ≤ c ∧ c ≤ 'f' then some (c.toNat - 'a'.toNat + 10)
  else if 'A' ≤ c ∧ c ≤ 'F' then some (c.toNat - 'A'.toNat + 10)
  else none

/-- `0`-`9`, `a`-`f` or `A`-`F`. -/
def isHexDigit (c : Char) : Bool := (digitValue? c).isSome

/-- The number a text of digits below `base` denotes; the empty text and texts
with any other character denote none. -/
def number? (base : Nat) (t : Text) : Option Nat :=
  if t.isEmpty then none
  else t.foldlM (fun acc c => do
    let d ← digitValue? c
    if d < base then some (acc * base + d) else none) 0

/-- A number in base ten, with no leading zero. -/
def decimal (n : Nat) : Text := Nat.toDigits 10 n

end Text

end StyledChat
