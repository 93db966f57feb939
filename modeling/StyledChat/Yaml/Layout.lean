/-
Layout: from a YAML text to its tokens.

Two things in the text are not written where they are read.  Indentation opens
and closes collections, and the `:` behind a key is what makes it one.  So the
reader keeps the indentations that are open, innermost first, and for every flow
collection around it the token that may still turn out to be a key.  When the `:`
comes, the tokens of the key are put in before it.
-/
import StyledChat.Yaml.Token

namespace StyledChat.Yaml

/-- A place in a text. -/
structure Position where
  line : Nat := 0
  /-- The number of characters before it on its line. -/
  column : Nat := 0
  /-- The number of octets before it in the text. -/
  offset : Nat := 0

/-- The position behind one more character. -/
def Position.next (p : Position) (c : Char) : Position :=
  let offset := p.offset + c.utf8Size
  if isBreak c then { line := p.line + 1, column := 0, offset }
  else { p with column := p.column + 1, offset }

/-- A token that is a key if a `:` follows it on its line. -/
structure KeyCandidate extends Position where
  /-- The number of tokens before it. -/
  index : Nat
  /-- Whether nothing else can stand here: outside flow collections, at the column
  of the innermost indentation. -/
  required : Bool

/-- A YAML text that is being read. -/
structure Layout extends Position where
  rest : Text
  tokens : Array Token := #[]
  /-- Whether a key may start here. -/
  keyAllowed : Bool := true
  candidate : Option KeyCandidate := none
  /-- The candidates around the flow collections we are in, innermost first. -/
  outer : List (Option KeyCandidate) := []
  /-- The columns of the open block collections, innermost first. -/
  indents : List Nat := []

namespace Layout

/-- A text at its start. -/
def start (t : Text) : Layout := { rest := t }

def inFlow (l : Layout) : Bool := !l.outer.isEmpty

/-! ## Moving on -/

/-- Goes on to a later place, given by what is left there. -/
def moveTo (l : Layout) (rest : Text) : Layout :=
  let passed := l.rest.take (l.rest.length - rest.length)
  { l with rest, toPosition := passed.foldl Position.next l.toPosition }

/-- The text behind a byte order mark, which says nothing. -/
def skipMark : Text → Text
  | '\ufeff' :: rest => rest
  | t => t

theorem length_skipMark (t : Text) : (skipMark t).length ≤ t.length := by
  unfold skipMark
  split
  · simp
  · exact Nat.le_refl _

/-- Skips spacing and comments, and says whether a key is allowed behind them:
outside flow collections a new line allows one.  A tab is spacing only where no
key is allowed.  At the start of a line a byte order mark is skipped, but takes
its column. -/
def skipSpacing (inFlow keyAllowed atMargin : Bool) (t : Text) : Bool × Text :=
  let afterMark := if atMargin then skipMark t else t
  let afterBlanks :=
    afterMark.dropWhile fun c => c == ' ' || (c == '\t' && (inFlow || !keyAllowed))
  let afterComment :=
    if afterBlanks.head? == some '#' then afterBlanks.dropWhile (fun c => !isBreak c)
    else afterBlanks
  match _h : afterComment with
  | [] => (keyAllowed, [])
  | c :: rest =>
    if isBreak c then skipSpacing inFlow (keyAllowed || !inFlow) true rest
    else (keyAllowed, c :: rest)
termination_by t.length
decreasing_by
  have h0 : afterMark.length ≤ t.length := by
    simp only [afterMark]
    split
    · exact length_skipMark t
    · exact Nat.le_refl _
  have h1 := (List.dropWhile_sublist (l := afterMark)
    fun c => c == ' ' || (c == '\t' && (inFlow || !keyAllowed))).length_le
  have h2 := (List.dropWhile_sublist (l := afterBlanks) fun c => !isBreak c).length_le
  have h3 : afterComment.length ≤ afterBlanks.length := by
    simp only [afterComment]
    split <;> omega
  have h4 := congrArg List.length _h
  simp only [List.length_cons] at h4
  simp only [afterBlanks] at h2 h3
  omega

/-! ## Candidates for keys -/

/-- A candidate as far as it still is one: it must not be followed by the end of
its line, nor by more than 1024 octets.  One that is required must not expire. -/
def expire (l : Layout) : Option KeyCandidate → Option (Option KeyCandidate)
  | none => some none
  | some k =>
    if k.line < l.line || k.offset + 1024 < l.offset then
      if k.required then none else some none
    else some (some k)

def expireAll (l : Layout) : Option Layout := do
  return { l with candidate := ← l.expire l.candidate, outer := ← l.outer.mapM l.expire }

/-- Gives up the candidate. -/
def dropCandidate (l : Layout) : Option Layout :=
  if l.candidate.any (·.required) then none else some { l with candidate := none }

/-- Makes the token that starts here a candidate, where keys are allowed. -/
def noteCandidate (l : Layout) : Option Layout :=
  if l.keyAllowed then do
    let required := !l.inFlow && l.indents.head? == some l.column
    let candidate := ⟨l.toPosition, l.tokens.size, required⟩
    return { ← l.dropCandidate with candidate := some candidate }
  else some l

/-! ## Indentation -/

/-- Opens a block collection at a column, with its token at an index, unless one
is open there. -/
def openBlock (l : Layout) (column index : Nat) (token : Token) : Layout :=
  if !l.inFlow && l.indents.head?.all (· < column) then
    { l with indents := column :: l.indents, tokens := l.tokens.insertIdxIfInBounds index token }
  else l

/-- Closes the block collections of which `closes` tells to. -/
def closeBlocks (l : Layout) (closes : Nat → Bool) : Layout :=
  if l.inFlow then l
  else
    { l with
      indents := l.indents.dropWhile closes
      tokens := l.tokens ++ (l.indents.takeWhile closes).map fun _ => Token.blockEnd }

/-! ## Single tokens -/

/-- Adds a token and goes on behind it. -/
def push (l : Layout) (token : Token) (rest : Text) : Layout :=
  { l.moveTo rest with tokens := l.tokens.push token }

/-- Closes everything before a directive or a document marker. -/
def leaveDocument (l : Layout) : Option Layout := do
  return { ← (l.closeBlocks fun _ => true).dropCandidate with keyAllowed := false }

/-- A token that may be a key: a scalar, an anchor, a tag or a reference. -/
def pushNode (l : Layout) (read : Option (Token × Text)) : Option Layout := do
  let (token, rest) ← read
  return { (← l.noteCandidate).push token rest with keyAllowed := false }

def openFlow (l : Layout) (token : Token) (rest : Text) : Option Layout := do
  let l ← l.noteCandidate
  return { l.push token rest with
    candidate := none, outer := l.candidate :: l.outer, keyAllowed := true }

def closeFlow (l : Layout) (token : Token) (rest : Text) : Option Layout := do
  let l ← l.dropCandidate
  return { l.push token rest with
    candidate := l.outer.head?.getD none, outer := l.outer.tail, keyAllowed := false }

def readComma (l : Layout) (rest : Text) : Option Layout := do
  return { (← l.dropCandidate).push .comma rest with keyAllowed := true }

/-- Opens a block collection here for a mark that stands alone; outside flow
collections it may only stand where a key may. -/
def openHere (l : Layout) (token : Token) : Option Layout :=
  if l.inFlow || l.keyAllowed then some (l.openBlock l.column l.tokens.size token) else none

/-- A `-` before an item. -/
def readEntry (l : Layout) (rest : Text) : Option Layout := do
  let l ← l.openHere .blockSequence
  return { (← l.dropCandidate).push .entry rest with keyAllowed := true }

/-- A `?` before a key. -/
def readKey (l : Layout) (rest : Text) : Option Layout := do
  let l ← l.openHere .blockMapping
  return { (← l.dropCandidate).push .key rest with keyAllowed := !l.inFlow }

/-- A `:` before a value.  If there is a candidate, it is the key. -/
def readValue (l : Layout) (rest : Text) : Option Layout :=
  match l.candidate with
  | some k =>
    let l := { l with tokens := l.tokens.insertIdxIfInBounds k.index .key, candidate := none }
    some { (l.openBlock k.column k.index .blockMapping).push .value rest with keyAllowed := false }
  | none => do
    let l ← l.openHere .blockMapping
    return { l.push .value rest with keyAllowed := !l.inFlow }

/-- A scalar behind `|` or `>`. -/
def readBlockScalar (l : Layout) (style : ScalarStyle) (rest : Text) : Option Layout := do
  let l ← l.dropCandidate
  let (text, rest) ← Scalar.readBlock (style == .folded) l.indents.head? rest
  return { l.push (.scalar style text) rest with keyAllowed := true }

/-- The indicators that no plain scalar starts with, three of which may start one
outside flow collections. -/
def isIndicator (c : Char) : Bool := "-?:,[]\x7b\x7d#&*!|>\x27\x22%@\x60".toList.contains c

/-- Whether a plain scalar starts with `c` before `rest`. -/
def startsPlain (inFlow : Bool) (c : Char) (rest : Text) : Bool :=
  !(isSpacing c || isIndicator c)
    || (c == '-' && !rest.head?.any isBlank)
    || (!inFlow && (c == '?' || c == ':') && !atSpacing rest)

def readPlainScalar (l : Layout) : Option Layout := do
  let indent := (l.indents.head?.map (· + 1)).getD 0
  let plain ← Scalar.readPlain l.inFlow indent l.rest
  let l := (← l.noteCandidate).push (.scalar .plain plain.text) plain.rest
  return { l with keyAllowed := plain.isBroken }

/-! ## All tokens -/

/-- Reads the token that starts with `c`, before `rest`. -/
def readToken (l : Layout) (c : Char) (rest : Text) : Option Layout :=
  if l.column = 0 ∧ c = '%' then do
    let (token, rest) ← Token.readDirective rest
    return (← l.leaveDocument).push token rest
  else if l.column = 0 ∧ startsWithWord documentStart l.rest then do
    return (← l.leaveDocument).push .documentStart (l.rest.drop 3)
  else if l.column = 0 ∧ startsWithWord documentEnd l.rest then do
    return (← l.leaveDocument).push .documentEnd (l.rest.drop 3)
  else if c = '[' then l.openFlow .flowSequence rest
  else if c = '{' then l.openFlow .flowMapping rest
  else if c = ']' then l.closeFlow .flowSequenceEnd rest
  else if c = '}' then l.closeFlow .flowMappingEnd rest
  else if c = ',' then l.readComma rest
  else if c = '-' ∧ atSpacing rest then l.readEntry rest
  else if c = '?' ∧ (l.inFlow ∨ atSpacing rest) then l.readKey rest
  else if c = ':' ∧ (l.inFlow ∨ atSpacing rest) then l.readValue rest
  else if c = '*' then
    l.pushNode ((Token.readAnchor rest).map fun (name, rest) => (.reference name, rest))
  else if c = '&' then
    l.pushNode ((Token.readAnchor rest).map fun (name, rest) => (.anchor name, rest))
  else if c = '!' then
    l.pushNode ((Token.readTag l.inFlow rest).map fun (tag, rest) => (.tag tag, rest))
  else if c = '|' ∧ !l.inFlow then l.readBlockScalar .literal rest
  else if c = '>' ∧ !l.inFlow then l.readBlockScalar .folded rest
  else if c = '\x27' then
    l.pushNode ((Scalar.readSingleQuoted false rest).map
      fun (text, rest) => (.scalar .singleQuoted text, rest))
  else if c = '\x22' then
    l.pushNode ((Scalar.readDoubleQuoted false rest).map
      fun (text, rest) => (.scalar .doubleQuoted text, rest))
  else if startsPlain l.inFlow c rest then l.readPlainScalar
  else none

/-- Goes on to the next token: candidates that are too far behind expire, and
block collections indented deeper than the token are closed. -/
def settle (l : Layout) : Option Layout := do
  let (keyAllowed, rest) := skipSpacing l.inFlow l.keyAllowed (l.column == 0) l.rest
  let l ← expireAll { l.moveTo rest with keyAllowed }
  return l.closeBlocks (l.column < ·)

/-- Reads all tokens.  Each takes at least one character. -/
def readAll (l : Layout) : Option (List Token) := do
  let here ← l.settle
  match here.rest with
  | [] => return (← here.leaveDocument).tokens.toList
  | c :: rest =>
    let next ← here.readToken c rest
    if _h : next.rest.length < l.rest.length then readAll next else none
termination_by l.rest.length

end Layout

/-- The tokens of a text, if it has any reading. -/
def tokens? (t : Text) : Option (List Token) :=
  if t.all isAdmitted then (Layout.start (unifyBreaks t)).readAll else none

end StyledChat.Yaml
