/-
Scalars: the written forms of a text in YAML.

There are four, and each reader below takes the text that starts with a scalar
and gives what the scalar says and what follows it:

* plain, without quotes, which ends where an indicator begins;
* quoted, by `'` or by `"`;
* literal (`|`), lines taken as they are;
* folded (`>`), lines joined to paragraphs.
-/
import StyledChat.Yaml.Source

namespace StyledChat.Yaml

/-- The written forms of a scalar. -/
inductive ScalarStyle where
  | plain | singleQuoted | doubleQuoted | literal | folded
deriving DecidableEq, Repr

namespace Scalar

/-! ## Plain -/

/-- The indicators of flow collections. -/
def isFlowIndicator (c : Char) : Bool :=
  c == ',' || c == '[' || c == ']' || c == '{' || c == '}'

/-- The word of a plain scalar at the start of a text, and what follows it.
Within a flow collection a `:` just before an indicator is refused. -/
def readWord (inFlow : Bool) : Text → Option (Text × Text)
  | [] => some ([], [])
  | c :: rest =>
    if isSpacing c then some ([], c :: rest)
    else if inFlow && c == ':' && rest.head?.any (fun d => isFlowIndicator d || d == '?') then none
    else if (c == ':' && atSpacing rest) || (inFlow && isFlowIndicator c) then some ([], c :: rest)
    else (readWord inFlow rest).map fun (word, after) => (c :: word, after)

theorem length_readWord {inFlow : Bool} : ∀ {t word after : Text},
    readWord inFlow t = some (word, after) → after.length ≤ t.length
  | [], word, after, h => by
    simp only [readWord, Option.some.injEq, Prod.mk.injEq] at h
    simp [← h.2]
  | c :: rest, word, after, h => by
    simp only [readWord] at h
    split at h
    · simp_all
    split at h
    · simp at h
    split at h
    · simp_all
    · simp only [Option.map_eq_some_iff, Prod.mk.injEq, Prod.exists] at h
      obtain ⟨w, a, hw, _, rfl⟩ := h
      have := length_readWord hw
      simp only [List.length_cons]
      omega

/-- A plain scalar that was read. -/
structure Plain where
  text : Text
  /-- Whether a line ends between the last word and what follows. -/
  isBroken : Bool
  rest : Text

/-- Reads a plain scalar: words with gaps between them.  Outside flow collections
it ends before a line indented by less than `indent`; it ends before a comment
and before a document marker too.  A tab within the indentation is refused. -/
def readPlain (inFlow : Bool) (indent : Nat) (t : Text) : Option Plain :=
  match _hw : readWord inFlow t with
  | none => none
  | some (word, []) => some ⟨word, false, []⟩
  | some (word, c :: rest) =>
    if _hc : isSpacing c then
      let gap := (Gap.read (c :: rest)).1
      let next := (Gap.read (c :: rest)).2
      let ends := (!inFlow && gap.isBroken && gap.column < indent) || next.head? == some '#'
        || (gap.reachesMargin && atDocumentMarker next)
      if gap.hasTabWithin indent then none
      else if ends then some ⟨word, gap.isBroken, next⟩
      else do
        let more ← readPlain inFlow indent next
        if more.text.isEmpty then return ⟨word, gap.isBroken, next⟩
        else return { more with text := word ++ gap.folded ++ more.text }
    else some ⟨word, false, c :: rest⟩
termination_by t.length
decreasing_by
  have h1 := length_readWord _hw
  have h2 : (Gap.read (c :: rest)).2.length < (c :: rest).length := Gap.length_read_cons _hc
  omega

/-! ## Quoted -/

/-- What a character behind a backslash stands for. -/
inductive Escape where
  | char (c : Char)
  /-- The character of the number written in that many hexadecimal digits. -/
  | code (digits : Nat)
deriving DecidableEq, Repr

/-- The escapes of double-quoted scalars. -/
def Escape.table : List (Char × Escape) :=
  [('0', .char '\x00'), ('a', .char '\x07'), ('b', .char '\x08'), ('t', .char '\t'),
   ('\t', .char '\t'), ('n', .char '\n'), ('v', .char '\x0b'), ('f', .char '\x0c'),
   ('r', .char '\r'), ('e', .char '\x1b'), (' ', .char ' '), ('\x22', .char '\x22'),
   ('/', .char '/'), ('\\', .char '\\'), ('N', .char '\u0085'), ('_', .char '\u00a0'),
   ('L', .char '\u2028'), ('P', .char '\u2029'), ('x', .code 2), ('u', .code 4),
   ('U', .code 8)]

/-- The character of a number; surrogates and numbers beyond the last character
have none. -/
def charOf? (n : Nat) : Option Char := if n.isValidChar then some (Char.ofNat n) else none

/-- The character that `digits` hexadecimal digits at the start of a text name. -/
def codePoint? (digits : Nat) (t : Text) : Option Char :=
  if digits ≤ t.length then (Text.number? 16 (t.take digits)).bind charOf? else none

/-- Reads what follows the opening `'`: two quotes in a row are one. -/
def readSingleQuoted (atMargin : Bool) (t : Text) : Option (Text × Text) :=
  if atMargin && atDocumentMarker t then none
  else match t with
    | [] => none
    | '\x27' :: '\x27' :: rest =>
      (readSingleQuoted false rest).map fun (text, after) => ('\x27' :: text, after)
    | '\x27' :: rest => some ([], rest)
    | c :: rest =>
      if isSpacing c then
        let gap := (Gap.read (c :: rest)).1
        (readSingleQuoted gap.reachesMargin (Gap.read (c :: rest)).2).map
          fun (text, after) => (gap.folded ++ text, after)
      else (readSingleQuoted false rest).map fun (text, after) => (c :: text, after)
termination_by t.length
decreasing_by
  · simp only [List.length_cons]; omega
  · exact Gap.length_read_cons ‹_›
  · simp

/-- Reads what follows the opening `"`.  A backslash at the end of a line joins
the next line to it; other escapes are those of the table. -/
def readDoubleQuoted (atMargin : Bool) (t : Text) : Option (Text × Text) :=
  if atMargin && atDocumentMarker t then none
  else match t with
    | [] => none
    | '\x22' :: rest => some ([], rest)
    | ['\\'] => none
    | '\\' :: c :: rest =>
      if isBreak c then
        let gap := (Gap.read rest).1
        (readDoubleQuoted (if gap.isBroken then gap.column == 0 else gap.blanks.isEmpty)
            (Gap.read rest).2).map
          fun (text, after) => (gap.breaks ++ text, after)
      else match Escape.table.lookup c with
        | none => none
        | some (.char d) =>
          (readDoubleQuoted false rest).map fun (text, after) => (d :: text, after)
        | some (.code digits) => do
          let d ← codePoint? digits rest
          let (text, after) ← readDoubleQuoted false (rest.drop digits)
          return (d :: text, after)
    | c :: rest =>
      if isSpacing c then
        let gap := (Gap.read (c :: rest)).1
        (readDoubleQuoted gap.reachesMargin (Gap.read (c :: rest)).2).map
          fun (text, after) => (gap.folded ++ text, after)
      else (readDoubleQuoted false rest).map fun (text, after) => (c :: text, after)
termination_by t.length
decreasing_by
  · have := Gap.length_read rest
    simp only [List.length_cons]
    omega
  · simp only [List.length_cons]; omega
  · simp only [List.length_cons, List.length_drop]; omega
  · exact Gap.length_read_cons ‹_›
  · simp

/-! ## Literal and folded -/

/-- What becomes of the line breaks at the end of a block scalar. -/
inductive Chomping where
  /-- None is kept. -/
  | strip
  /-- The one behind the last line is kept. -/
  | clip
  /-- All are kept. -/
  | keep
deriving DecidableEq, Repr

/-- The line behind `|` or `>`. -/
structure BlockHeader where
  chomping : Chomping := .clip
  /-- How much deeper than its parent the scalar is indented, if given. -/
  increment : Option Nat := none

/-- The chomping an indicator stands for. -/
def chomping? (c : Char) : Option Chomping :=
  if c = '+' then some .keep else if c = '-' then some .strip else none

/-- The indentation an indicator stands for: any digit but `0`, which is
refused. -/
def increment? (c : Char) : Option Nat :=
  if '1' ≤ c ∧ c ≤ '9' then Text.digitValue? c else none

/-- Reads the indicators, at most one of each kind and in either order. -/
def readIndicators : Text → BlockHeader × Text
  | [] => ({}, [])
  | c :: rest =>
    match chomping? c, increment? c with
    | some chomping, _ =>
      match rest.head?.bind increment? with
      | some n => ({ chomping, increment := some n }, rest.tail)
      | none => ({ chomping }, rest)
    | none, some n =>
      match rest.head?.bind chomping? with
      | some chomping => ({ chomping, increment := some n }, rest.tail)
      | none => ({ increment := some n }, rest)
    | none, none => ({}, c :: rest)

/-- The text behind the rest of a line that holds blanks and a comment at most. -/
def skipLine? (t : Text) : Option Text :=
  match t.dropWhile isBlank with
  | [] => some []
  | '#' :: rest => some (rest.dropWhile fun c => !isBreak c).tail
  | c :: rest => if isBreak c then some rest else none

/-- The empty lines before a line of a block scalar. -/
structure Lead where
  breaks : Text
  /-- The spaces before the line that follows, as far as they are indentation. -/
  column : Nat
  /-- The most spaces on any of these lines. -/
  widest : Nat
  rest : Text

/-- Reads empty lines and the indentation behind them: `limit` spaces, or all
there are.  A tab within the indentation is refused. -/
def readLead (limit : Option Nat) (t : Text) : Option Lead :=
  let spaces := t.takeWhile (· == ' ')
  let column := min spaces.length (limit.getD spaces.length)
  match _h : t.drop column with
  | [] => some ⟨[], column, column, []⟩
  | c :: rest =>
    if c == '\t' && limit.all (column < ·) then none
    else if isBreak c then do
      let lead ← readLead limit rest
      return { lead with breaks := c :: lead.breaks, widest := max column lead.widest }
    else some ⟨[], column, column, c :: rest⟩
termination_by t.length
decreasing_by
  have := congrArg List.length _h
  simp only [List.length_drop, List.length_cons] at this
  omega

theorem length_readLead {limit : Option Nat} {t : Text} {lead : Lead}
    (h : readLead limit t = some lead) : lead.rest.length ≤ t.length := by
  fun_induction readLead limit t generalizing lead with
  | case1 =>
    simp only [Option.some.injEq] at h
    simp [← h]
  | case2 => simp at h
  | case3 t spaces column c rest hd _ _ =>
    rename_i ih
    simp only [Option.bind_eq_bind, Option.bind_eq_some_iff] at h
    obtain ⟨inner, hi, hl⟩ := h
    have := ih hi
    have hd := congrArg List.length hd
    simp only [List.length_drop, List.length_cons] at hd
    simp only [pure, Option.some.injEq] at hl
    subst hl
    simp only
    omega
  | case4 t spaces column c rest hd _ =>
    simp only [Option.some.injEq] at h
    have hd := congrArg List.length hd
    simp only [List.length_drop, List.length_cons] at hd
    simp only [← h, List.length_cons]
    omega

/-- The content of a block scalar, its last line breaks apart. -/
structure BlockText where
  text : Text
  /-- The break behind the last line; none before the first. -/
  lastBreak : Text
  /-- The empty lines behind it. -/
  emptyLines : Text
  rest : Text

/-- What stands between two lines of a block scalar.  Folding joins two lines
that start with no blank by a space, or by the empty lines between them. -/
def lineGap (folds : Bool) (lastBreak emptyLines : Text) : Text :=
  if folds && lastBreak == ['\n'] then if emptyLines.isEmpty then [' '] else emptyLines
  else lastBreak ++ emptyLines

/-- Reads lines as long as they are indented by `indent`.  Before the line to be
read there were `lastBreak` and the empty lines of `lead`; `indented` says
whether the line before started with a blank. -/
def readBlockLines (folded : Bool) (indent : Nat) (lastBreak : Text) (indented : Bool)
    (lead : Lead) : Option BlockText :=
  match _hr : lead.rest with
  | [] => some ⟨[], lastBreak, lead.breaks, []⟩
  | c :: rest =>
    if lead.column = indent then
      let line := rest.takeWhile fun d => !isBreak d
      let after := rest.dropWhile fun d => !isBreak d
      match _hl : readLead (some indent) after.tail with
      | none => none
      | some next => do
        let more ← readBlockLines folded indent (after.take 1) (isBlank c) next
        return { more with
          text := lineGap (folded && !indented && !isBlank c) lastBreak lead.breaks
            ++ c :: line ++ more.text }
    else some ⟨[], lastBreak, lead.breaks, c :: rest⟩
termination_by lead.rest.length
decreasing_by
  have h1 := length_readLead _hl
  have h2 := (List.dropWhile_sublist (fun d => !isBreak d) (l := rest)).length_le
  have h3 : after.tail.length ≤ rest.length := by
    simp only [List.length_tail, after]
    omega
  rw [_hr]
  simp only [List.length_cons]
  omega

/-- Reads what follows `|` or `>` in a collection indented by `parent`: none
outside all collections. -/
def readBlock (folded : Bool) (parent : Option Nat) (t : Text) : Option (Text × Text) := do
  let (header, afterIndicators) := readIndicators t
  let body ← skipLine? afterIndicators
  let limit := header.increment.map (parent.getD 0 + ·)
  let lead ← readLead limit body
  let indent := limit.getD (max (max lead.widest ((parent.map (· + 1)).getD 0)) 1)
  let content ← readBlockLines folded indent [] false lead
  return (content.text ++ match header.chomping with
    | .strip => []
    | .clip => content.lastBreak
    | .keep => content.lastBreak ++ content.emptyLines, content.rest)

end Scalar

end StyledChat.Yaml
