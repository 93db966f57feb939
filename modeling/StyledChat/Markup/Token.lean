/-
Tokens: the pieces that marked-up text falls into.

A tag is what stands between `<` and the `>` that ends it, when that reads as a
name with arguments; everything else is text.  So every text has tokens, and
each token keeps the piece of text it was read from.

Two scanners look at quotes.  The one that searches the end of a tag
(`Token.cutTag?`) takes any quote for the start of a quoted stretch; the one that
splits the arguments (`Token.splitAtColons`) only a quote that stands first in its
argument.
-/
import StyledChat.Text

namespace StyledChat

/-- The two quote characters around an argument. -/
inductive Quote where
  | single | double
deriving DecidableEq, Repr

namespace Quote

def char : Quote → Char
  | single => '\x27'
  | double => '\x22'

/-- The quote a character is. -/
def ofChar? (c : Char) : Option Quote :=
  if c = single.char then some single
  else if c = double.char then some double
  else none

end Quote

/-- Where a scanner stands with respect to quotes. -/
inductive Quoting where
  | outside
  | inside (q : Quote)
  /-- Inside, right behind a `\`. -/
  | escaped (q : Quote)
deriving DecidableEq, Repr

namespace Quoting

/-- The place behind one more character, when any quote opens. -/
def step : Quoting → Char → Quoting
  | outside, c => ((Quote.ofChar? c).map inside).getD outside
  | inside q, c => if c = '\\' then escaped q else if c = q.char then outside else inside q
  | escaped q, _ => inside q

end Quoting

/-- A tag as written, split into name and arguments. -/
structure Tagged where
  /-- The tag as written, from `<` to `>`. -/
  raw : Text
  /-- The name, lowered. -/
  name : Text
  /-- The arguments, without their quotes. -/
  args : List Text
  /-- Whether the tag was written `<!name>`. -/
  negated : Bool
deriving DecidableEq, Repr

inductive Token where
  /-- A stretch of text as written. -/
  | text (raw : Text)
  | opening (tag : Tagged)
  | closing (tag : Tagged)
deriving DecidableEq, Repr

namespace Token

/-- The piece of text a token was read from. -/
def raw : Token → Text
  | text raw => raw
  | opening tag => tag.raw
  | closing tag => tag.raw

/-! ## The end of a tag -/

/-- The content of a tag up to the `>` that ends it, and what follows, both read
behind the `<`.  Between quotes nothing ends a tag and `\` takes the next
character with it; outside, a `<` says that there is no tag. -/
def cutTag? (place : Quoting) : Text → Option (Text × Text)
  | [] => none
  | c :: rest =>
    if place = .outside ∧ c = '>' then some ([], rest)
    else if place = .outside ∧ c = '<' then none
    else (cutTag? (place.step c) rest).map fun (inner, behind) => (c :: inner, behind)

/-! ## The arguments of a tag -/

/-- Puts a character in front of the first argument. -/
def consArg (c : Char) : List Text → List Text
  | [] => [[c]]
  | arg :: more => (c :: arg) :: more

/-- Splits the content of a tag at every `:` outside quotes.  `fresh` says that
nothing of the current argument has been read yet: only then does a quote open,
and the argument is what stands between it and its match.  There `\` escapes the
quote and itself, and is kept before any other character. -/
def splitAtColons (place : Quoting) (fresh : Bool) : Text → List Text
  | [] =>
    match place with
    | .escaped _ => [['\\']]
    | _ => [[]]
  | c :: rest =>
    match place with
    | .escaped q =>
      let more := consArg c (splitAtColons (.inside q) false rest)
      if c = q.char ∨ c = '\\' then more else consArg '\\' more
    | .inside q =>
      if c = '\\' then splitAtColons (.escaped q) fresh rest
      else if c = q.char then splitAtColons .outside fresh rest
      else consArg c (splitAtColons (.inside q) false rest)
    | .outside =>
      match Quote.ofChar? c, fresh with
      | some q, true => splitAtColons (.inside q) true rest
      | _, _ =>
        if c = ':' then [] :: splitAtColons .outside true rest
        else consArg c (splitAtColons .outside false rest)

/-! ## Reading a tag -/

def isNameStart (c : Char) : Bool := c.isAlpha || c == '_' || c == '#'

def isNameRest (c : Char) : Bool := c.isAlphanum || c == '_' || c == '-'

/-- Names start with a letter, `_` or `#` and go on with letters, digits, `_`
and `-`. -/
def isName : Text → Bool
  | [] => false
  | c :: rest => isNameStart c && rest.all isNameRest

/-- Reads the content of a tag: a `/` in front closes, a `!` in front of an
opening tag negates, then follow the name and its arguments. -/
def ofContent? (content : Text) : Option Token :=
  let (closes, negated, body) :=
    match content with
    | '/' :: body => (true, false, body)
    | '!' :: body => (false, true, body)
    | _ => (false, false, content)
  match splitAtColons .outside true body with
  | [] => none
  | name :: args =>
    if isName name then
      let tag : Tagged := ⟨'<' :: (content ++ ['>']), Text.lower name, args, negated⟩
      some (if closes then .closing tag else .opening tag)
    else none

/-- The tag behind a `<`, and what follows it. -/
def tag? (t : Text) : Option (Token × Text) :=
  match cutTag? .outside t with
  | none => none
  | some (content, behind) => (ofContent? content).map fun token => (token, behind)

/-! ## Reading text -/

/-- The stretch of text up to the next `<` that no `\` stands before, and what
follows.  `escaped` says that a `\` stands before the first character. -/
def cutText (escaped : Bool) : Text → Text × Text
  | [] => ([], [])
  | c :: rest =>
    if c = '<' ∧ !escaped then ([], c :: rest)
    else
      let (run, behind) := cutText (c == '\\') rest
      (c :: run, behind)

/-- A stretch of text as it reads: without the `\` that stands before a `<`. -/
def unescape : Text → Text
  | [] => []
  | c :: rest =>
    if c = '\\' ∧ rest.head? = some '<' then unescape rest else c :: unescape rest

/-! ## All tokens -/

/-- The first token of a text, and what follows.  A `<` that starts no tag is a
token of its own. -/
def first (c : Char) (rest : Text) : Token × Text :=
  if c = '<' then (tag? rest).getD (.text ['<'], rest)
  else
    let (run, behind) := cutText false (c :: rest)
    (.text run, behind)

theorem length_cutTag? : ∀ {t : Text} {place : Quoting} {inner behind : Text},
    cutTag? place t = some (inner, behind) → behind.length < t.length
  | [], _, _, _, h => by simp [cutTag?] at h
  | c :: rest, place, inner, behind, h => by
    simp only [cutTag?] at h
    split at h
    · simp only [Option.some.injEq, Prod.mk.injEq] at h
      obtain ⟨_, rfl⟩ := h
      simp
    · split at h
      · simp at h
      · simp only [Option.map_eq_some_iff, Prod.mk.injEq, Prod.exists] at h
        obtain ⟨i, b, hb, _, rfl⟩ := h
        have := length_cutTag? hb
        simp only [List.length_cons]
        omega

theorem length_cutText : ∀ (t : Text) (escaped : Bool), (cutText escaped t).2.length ≤ t.length
  | [], _ => by simp [cutText]
  | c :: rest, escaped => by
    unfold cutText
    split
    · exact Nat.le_refl _
    · have := length_cutText rest (c == '\\')
      simp only [List.length_cons]
      omega

theorem length_first (c : Char) (rest : Text) : (first c rest).2.length ≤ rest.length := by
  unfold first
  split
  · cases h : tag? rest with
    | none => simp
    | some r =>
      obtain ⟨token, behind⟩ := r
      unfold tag? at h
      split at h
      · simp at h
      · next content b hcut =>
        simp only [Option.map_eq_some_iff, Prod.mk.injEq] at h
        obtain ⟨_, _, _, rfl⟩ := h
        have := length_cutTag? hcut
        show b.length ≤ rest.length
        omega
  · next hc =>
    have := length_cutText rest (c == '\\')
    simpa [cutText, hc] using this

/-- All tokens of a text. -/
def ofText : Text → List Token
  | [] => []
  | c :: rest => (first c rest).1 :: ofText (first c rest).2
termination_by t => t.length
decreasing_by
  have := length_first c rest
  simp only [List.length_cons]
  omega

end Token

end StyledChat
