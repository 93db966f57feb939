/-
The characters of a YAML text: which are admitted, which end a line, and what
stands between two words of a scalar.

Every spelling of a line break but two is read as `\n`; the two separators
U+2028 and U+2029 end a line too but stay what they are.
-/
import StyledChat.Text

namespace StyledChat.Yaml

/-! ## Characters -/

/-- The characters a YAML text may consist of. -/
def isAdmitted (c : Char) : Bool :=
  let n := c.toNat
  n == 0x09 || n == 0x0a || n == 0x0d || (0x20 ≤ n && n ≤ 0x7e) || n == 0x85
    || (0xa0 ≤ n && n ≤ 0xd7ff) || (0xe000 ≤ n && n ≤ 0xfffd) || 0x10000 ≤ n

/-- The text with `\n` for every carriage return, alone or before a `\n`, and
for every U+0085. -/
def unifyBreaks : Text → Text
  | [] => []
  | '\r' :: '\n' :: rest => '\n' :: unifyBreaks rest
  | c :: rest => (if c == '\r' || c.toNat == 0x85 then '\n' else c) :: unifyBreaks rest

/-- A space or a tab. -/
def isBlank (c : Char) : Bool := c == ' ' || c == '\t'

/-- Whether a character ends a line, once breaks are unified. -/
def isBreak (c : Char) : Bool := c == '\n' || c.toNat == 0x2028 || c.toNat == 0x2029

/-- A blank or a line break. -/
def isSpacing (c : Char) : Bool := isBlank c || isBreak c

/-- Whether no word goes on here: at spacing, or at the end of the text. -/
def atSpacing (t : Text) : Bool := t.head?.all isSpacing

/-- Letters, digits, `-` and `_`: what the names of anchors, handles and
directives are made of. -/
def isNameChar (c : Char) : Bool :=
  ('0' ≤ c && c ≤ '9') || ('A' ≤ c && c ≤ 'Z') || ('a' ≤ c && c ≤ 'z') || c == '-' || c == '_'

/-- Whether a text starts with the given three characters as a word of their
own. -/
def startsWithWord (marker t : Text) : Bool := ((Text.after? marker t).map atSpacing).getD false

/-- Opens a document. -/
def documentStart : Text := "---".toList

/-- Closes a document. -/
def documentEnd : Text := "...".toList

/-- Whether a line that starts here opens or closes a document. -/
def atDocumentMarker (t : Text) : Bool :=
  startsWithWord documentStart t || startsWithWord documentEnd t

/-! ## Between two words -/

/-- The spacing between two words of a scalar. -/
structure Gap where
  /-- The blanks on the line of the word before. -/
  blanks : Text
  /-- The line breaks, each with the blanks behind it. -/
  lines : List (Char × Text)

namespace Gap

/-- The lines at the start of a text, as far as there are but blanks on them. -/
def readLines : Text → List (Char × Text) × Text
  | [] => ([], [])
  | c :: rest =>
    if isBreak c then
      let (lines, after) := readLines (rest.dropWhile isBlank)
      ((c, rest.takeWhile isBlank) :: lines, after)
    else ([], c :: rest)
termination_by t => t.length
decreasing_by
  simp only [List.length_cons]
  have := (List.dropWhile_sublist isBlank (l := rest)).length_le
  omega

/-- The spacing at the start of a text, and what follows it. -/
def read (t : Text) : Gap × Text :=
  let (lines, after) := readLines (t.dropWhile isBlank)
  (⟨t.takeWhile isBlank, lines⟩, after)

theorem length_readLines (t : Text) : (readLines t).2.length ≤ t.length := by
  fun_induction readLines t with
  | case1 => simp
  | case2 c rest _ lines after hr ih =>
    rw [hr] at ih
    have := (List.dropWhile_sublist isBlank (l := rest)).length_le
    simp only [List.length_cons]
    simp only at ih
    omega
  | case3 => simp

theorem length_read (t : Text) : (read t).2.length ≤ t.length :=
  Nat.le_trans (length_readLines _) (List.dropWhile_sublist isBlank).length_le

/-- Spacing is not empty. -/
theorem length_read_cons {c : Char} {rest : Text} (h : isSpacing c) :
    (read (c :: rest)).2.length < (c :: rest).length := by
  simp only [isSpacing, Bool.or_eq_true] at h
  by_cases hb : isBlank c
  · have h1 := length_readLines (rest.dropWhile isBlank)
    have h2 := (List.dropWhile_sublist isBlank (l := rest)).length_le
    simp only [read, List.dropWhile_cons_of_pos hb, List.length_cons]
    omega
  · have hk : isBreak c := h.resolve_left hb
    have h1 := length_readLines (rest.dropWhile isBlank)
    have h2 := (List.dropWhile_sublist isBlank (l := rest)).length_le
    rw [read, List.dropWhile_cons_of_neg hb, readLines, if_pos hk]
    simp only [List.length_cons]
    omega

/-- Whether a line ends in the gap. -/
def isBroken (g : Gap) : Bool := !g.lines.isEmpty

/-- The line breaks of the gap. -/
def breaks (g : Gap) : Text := g.lines.map (·.1)

/-- The blanks before the word behind a broken gap: its column. -/
def column (g : Gap) : Nat := (g.lines.getLast?.map (·.2.length)).getD 0

/-- Whether the word behind the gap stands at the start of a line. -/
def reachesMargin (g : Gap) : Bool := g.isBroken && g.column == 0

/-- Whether a tab takes part in the first `indent` columns of a line. -/
def hasTabWithin (indent : Nat) (g : Gap) : Bool :=
  g.lines.any fun (_, blanks) => (blanks.take indent).contains '\t'

/-- What the gap is in the text of the scalar.  On one line it is what it is; a
single line break is a space; of more, the first is dropped.  Only `\n` folds in
this way. -/
def folded (g : Gap) : Text :=
  match g.breaks with
  | [] => g.blanks
  | ['\n'] => [' ']
  | '\n' :: more => more
  | breaks => breaks

end Gap

end StyledChat.Yaml
