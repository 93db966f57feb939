/-
Nodes: what the tokens of a YAML text spell.

A node is a scalar, a sequence, a mapping, or a reference to a node that was
anchored before.  A node that is missing where the grammar wants one is an empty
plain scalar.
-/
import StyledChat.Yaml.Layout

namespace StyledChat.Yaml

/-! ## Nodes -/

/-- What a tag says about its node. -/
inductive Tag where
  | null | bool | int | float
  /-- A tag of the writer's own, which starts with `!`.  One that spells no text
  has no name. -/
  | custom (name : Option Text)
  | other
deriving DecidableEq, Repr

/-- What stands before the content of a node. -/
structure Properties where
  anchor : Option Nat := none
  tag : Option Tag := none
deriving DecidableEq, Repr

inductive Node where
  | reference (anchor : Nat)
  | scalar (props : Properties) (style : ScalarStyle) (text : Text)
  | sequence (props : Properties) (items : List Node)
  | mapping (props : Properties) (entries : List (Node × Node))

namespace Tag

/-- What the tags of the standard vocabulary start with. -/
def standard : Octets := Octets.ofAscii "tag:yaml.org,2002:".toList

/-- A tag of the standard vocabulary. -/
def standardTag (name : String) : Octets := standard ++ Octets.ofAscii name.toList

/-- The name without the `!` before it, which is kept where it is the name. -/
def unmarked : Text → Text
  | ['!'] => ['!']
  | '!' :: rest => rest
  | t => t

/-- The octet of `!`. -/
def bang : UInt8 := 0x21

/-- What a tag says. -/
def ofOctets (octets : Octets) : Tag :=
  if octets = standardTag "null" then null
  else if octets = standardTag "bool" then bool
  else if octets = standardTag "int" then int
  else if octets = standardTag "float" then float
  else if octets.head? = some bang then
    custom (octets.text?.map fun t => unmarked (unmarked t))
  else other

end Tag

namespace Node

/-- Stands where a node is missing. -/
def missing : Node := scalar {} .plain []

mutual

/-- The anchored nodes in a node, in the order in which they start. -/
def anchored : Node → List (Nat × Node)
  | reference _ => []
  | scalar props style text =>
    (props.anchor.map fun id => (id, scalar props style text)).toList
  | sequence props items =>
    (props.anchor.map fun id => (id, sequence props items)).toList ++ anchoredItems items
  | mapping props entries =>
    (props.anchor.map fun id => (id, mapping props entries)).toList ++ anchoredEntries entries

def anchoredItems : List Node → List (Nat × Node)
  | [] => []
  | item :: rest => anchored item ++ anchoredItems rest

def anchoredEntries : List (Node × Node) → List (Nat × Node)
  | [] => []
  | (key, value) :: rest => anchored key ++ anchored value ++ anchoredEntries rest

end

mutual

/-- The marks a node is made of: its parts, and one at either end of every
collection. -/
def weight : Node → Nat
  | reference _ => 1
  | scalar .. => 1
  | sequence _ items => 2 + weightItems items
  | mapping _ entries => 2 + weightEntries entries

def weightItems : List Node → Nat
  | [] => 0
  | item :: rest => weight item + weightItems rest

def weightEntries : List (Node × Node) → Nat
  | [] => 0
  | (key, value) :: rest => weight key + weight value + weightEntries rest

end

end Node

/-! ## What the reader of nodes keeps -/

/-- The anchors a text has named so far, each with the number that references to it
now mean.  A name that is given again moves to a new number. -/
abbrev Anchors := List (Text × Nat)

namespace Anchors

/-- Gives a name to the node that starts here.  Its number is the number of names
known. -/
def declare (a : Anchors) (name : Text) : Nat × Anchors :=
  (a.length, (name, a.length) :: a.filter fun known => known.1 != name)

end Anchors

/-- What the handles of tags stand for; of two entries the first counts. -/
abbrev Handles := List (Text × Octets)

namespace Handles

/-- The handles known in every document. -/
def standard : Handles := [(['!'], [Tag.bang]), ("!!".toList, Tag.standard)]

/-- The whole tag, if its handle is known. -/
def resolve (handles : Handles) (written : TagText) : Option Octets :=
  if written.handle.isEmpty then some written.suffix
  else (handles.lookup written.handle).map (· ++ written.suffix)

end Handles

/-- Where a node stands, which decides what it may be. -/
inductive Place where
  /-- In a flow collection: no block collections. -/
  | inFlow
  | inBlock
  /-- In a block mapping: the items of a sequence need no indentation. -/
  | inBlockMapping
deriving DecidableEq

/-- What is left when fewer than `bound` tokens are. -/
structure Left (bound : Nat) where
  tokens : List Token
  anchors : Anchors
  short : tokens.length < bound

namespace Left

/-- The same, with a bound that is no smaller. -/
def widen {m n : Nat} (left : Left m) (h : m ≤ n) : Left n :=
  ⟨left.tokens, left.anchors, Nat.lt_of_lt_of_le left.short h⟩

theorem short_cons {t : Token} {rest : List Token} : rest.length < (t :: rest).length + 1 := by
  simp only [List.length_cons]
  omega

end Left

/-! ## Reading nodes -/

namespace Node

/-- Reads what stands before the content of a node: an anchor and a tag, each at
most once. -/
def readProperties : List Token → (Option Text × Option TagText) × List Token
  | .anchor name :: .tag written :: rest => ((some name, some written), rest)
  | .tag written :: .anchor name :: rest => ((some name, some written), rest)
  | .anchor name :: rest => ((some name, none), rest)
  | .tag written :: rest => ((none, some written), rest)
  | ts => ((none, none), ts)

theorem length_readProperties (ts : List Token) :
    (readProperties ts).2.length ≤ ts.length
      ∧ ((readProperties ts).1 ≠ (none, none) → (readProperties ts).2.length < ts.length) := by
  unfold readProperties
  split <;> simp <;> omega

/-- Whether a token starts the content of a node that stands at a place. -/
def startsContent (place : Place) : Token → Bool
  | .scalar .. | .flowSequence | .flowMapping => true
  | .blockSequence | .blockMapping => place != .inFlow
  | .entry => place == .inBlockMapping
  | _ => false

/-- The tokens behind an item of a block sequence; without indentation, those of
the mapping around it too. -/
def endsItem (indented : Bool) : Token → Bool
  | .entry | .blockEnd => true
  | .key | .value => !indented
  | _ => false

/-- The tokens behind a part of a block mapping. -/
def endsBlockPart : Token → Bool
  | .key | .value | .blockEnd => true
  | _ => false

/-- The tokens behind a value in a flow sequence. -/
def endsFlowItem : Token → Bool
  | .comma | .flowSequenceEnd => true
  | _ => false

/-- The tokens behind a value in a flow mapping. -/
def endsFlowPart : Token → Bool
  | .comma | .flowMappingEnd => true
  | _ => false

mutual

/-- Reads a node. -/
def read (handles : Handles) (place : Place) (anchors : Anchors) (ts : List Token) :
    Option (Node × Left ts.length) :=
  match ts with
  | .reference name :: rest =>
    (anchors.lookup name).map fun id => (reference id, ⟨rest, anchors, by simp⟩)
  | ts =>
    have hle := (length_readProperties ts).1
    have hlt := (length_readProperties ts).2
    let props := (readProperties ts).1
    let rest := (readProperties ts).2
    do
      let tag ← props.2.mapM handles.resolve
      let declared := props.1.map anchors.declare
      let anchor := declared.map (·.1)
      let anchors := (declared.map (·.2)).getD anchors
      if rest.head?.any (startsContent place) then
        let (node, left) ← readContent handles anchor tag anchors rest
        return (node, left.widen hle)
      else if hp : props ≠ (none, none) then
        return (scalar ⟨anchor, tag.map Tag.ofOctets⟩ .plain [], ⟨rest, anchors, hlt hp⟩)
      else none
termination_by 5 * ts.length + 2

/-- Reads the content of a node whose properties were read. -/
def readContent (handles : Handles) (anchor : Option Nat) (tag : Option Octets) (anchors : Anchors)
    (ts : List Token) : Option (Node × Left ts.length) :=
  let props : Properties := ⟨anchor, tag.map Tag.ofOctets⟩
  match ts with
  | .scalar style text :: rest =>
    some (scalar props style text, ⟨rest, anchors, by simp⟩)
  | .flowSequence :: rest => do
    let (items, left) ← readFlowItems handles anchors rest
    return (sequence props items, left.widen (by simp))
  | .flowMapping :: rest => do
    let (entries, left) ← readFlowEntries handles anchors rest
    return (mapping props entries, left.widen (by simp))
  | .blockSequence :: rest => do
    let (items, left) ← readBlockItems handles true anchors rest
    return (sequence props items, left.widen (by simp))
  | .blockMapping :: rest => do
    let (entries, left) ← readBlockEntries handles anchors rest
    return (mapping props entries, left.widen (by simp))
  | .entry :: rest => do
    let (items, left) ← readBlockItem handles false anchors rest
    return (sequence props items, left.widen (by simp))
  | _ => none
termination_by 5 * ts.length + 1

/-- Reads a node, which may be missing before a token of the given kind. -/
def readUnless (handles : Handles) (place : Place) (ends : Token → Bool) (anchors : Anchors)
    (ts : List Token) : Option (Node × Left (ts.length + 1)) :=
  if ts.head?.any ends then some (missing, ⟨ts, anchors, by simp⟩)
  else do
    let (node, left) ← read handles place anchors ts
    return (node, left.widen (by simp))
termination_by 5 * ts.length + 3

/-- Reads a value behind its mark; without the mark it is missing. -/
def readValue (handles : Handles) (place : Place) (ends : Token → Bool) (anchors : Anchors)
    (ts : List Token) : Option (Node × Left (ts.length + 1)) :=
  match ts with
  | .value :: rest => do
    let (node, left) ← readUnless handles place ends anchors rest
    return (node, left.widen (by simp))
  | ts => some (missing, ⟨ts, anchors, by simp⟩)
termination_by 5 * ts.length

/-- Reads the items of a block sequence. -/
def readBlockItems (handles : Handles) (indented : Bool) (anchors : Anchors) (ts : List Token) :
    Option (List Node × Left (ts.length + 1)) :=
  match ts with
  | .entry :: rest => do
    let (items, left) ← readBlockItem handles indented anchors rest
    return (items, left.widen (by simp))
  | ts =>
    if indented then
      match ts with
      | .blockEnd :: rest => some ([], ⟨rest, anchors, Left.short_cons⟩)
      | _ => none
    else some ([], ⟨ts, anchors, by simp⟩)
termination_by 5 * ts.length

/-- Reads the items of a block sequence, the first behind its mark. -/
def readBlockItem (handles : Handles) (indented : Bool) (anchors : Anchors) (ts : List Token) :
    Option (List Node × Left (ts.length + 1)) := do
  let (item, left) ← readUnless handles .inBlock (endsItem indented) anchors ts
  have := left.short
  let (items, left') ← readBlockItems handles indented left.anchors left.tokens
  return (item :: items, left'.widen (by omega))
termination_by 5 * ts.length + 4

/-- Reads the entries of a block mapping. -/
def readBlockEntries (handles : Handles) (anchors : Anchors) (ts : List Token) :
    Option (List (Node × Node) × Left (ts.length + 1)) :=
  match ts with
  | .key :: rest => do
    let (key, left₁) ← readUnless handles .inBlockMapping endsBlockPart anchors rest
    have h₁ := left₁.short
    let (value, left₂) ←
      readValue handles .inBlockMapping endsBlockPart left₁.anchors left₁.tokens
    have h₂ := left₂.short
    let (entries, left₃) ← readBlockEntries handles left₂.anchors left₂.tokens
    return ((key, value) :: entries, left₃.widen (by simp only [List.length_cons]; omega))
  | .blockEnd :: rest => some ([], ⟨rest, anchors, Left.short_cons⟩)
  | _ => none
termination_by 5 * ts.length

/-- Reads the items of a flow sequence behind its opening or a comma. -/
def readFlowItems (handles : Handles) (anchors : Anchors) (ts : List Token) :
    Option (List Node × Left (ts.length + 1)) :=
  match ts with
  | .flowSequenceEnd :: rest => some ([], ⟨rest, anchors, Left.short_cons⟩)
  | .key :: rest => do
    let (pair, left₁) ← readFlowPair handles anchors rest
    have h₁ := left₁.short
    let (items, left₂) ← readMoreFlowItems handles left₁.anchors left₁.tokens
    return (mapping {} [pair] :: items, left₂.widen (by simp only [List.length_cons]; omega))
  | ts => do
    let (item, left₁) ← read handles .inFlow anchors ts
    have h₁ := left₁.short
    let (items, left₂) ← readMoreFlowItems handles left₁.anchors left₁.tokens
    return (item :: items, left₂.widen (by omega))
termination_by 5 * ts.length + 3

/-- Reads the items of a flow sequence behind an item. -/
def readMoreFlowItems (handles : Handles) (anchors : Anchors) (ts : List Token) :
    Option (List Node × Left (ts.length + 1)) :=
  match ts with
  | .flowSequenceEnd :: rest => some ([], ⟨rest, anchors, Left.short_cons⟩)
  | .comma :: rest => do
    let (items, left) ← readFlowItems handles anchors rest
    return (items, left.widen (by simp))
  | _ => none
termination_by 5 * ts.length

/-- Reads a key with its value that stands for a mapping in a flow sequence,
behind the mark of the key.  The mark that shows the key to be missing is passed
over. -/
def readFlowPair (handles : Handles) (anchors : Anchors) (ts : List Token) :
    Option ((Node × Node) × Left (ts.length + 1)) :=
  match ts with
  | .value :: rest | .comma :: rest | .flowSequenceEnd :: rest => do
    let (value, left) ← readValue handles .inFlow endsFlowItem anchors rest
    return ((missing, value), left.widen (by simp))
  | ts => do
    let (key, left₁) ← read handles .inFlow anchors ts
    have h₁ := left₁.short
    let (value, left₂) ← readValue handles .inFlow endsFlowItem left₁.anchors left₁.tokens
    return ((key, value), left₂.widen (by omega))
termination_by 5 * ts.length + 3

/-- Reads the entries of a flow mapping behind its opening or a comma. -/
def readFlowEntries (handles : Handles) (anchors : Anchors) (ts : List Token) :
    Option (List (Node × Node) × Left (ts.length + 1)) :=
  match ts with
  | .flowMappingEnd :: rest => some ([], ⟨rest, anchors, Left.short_cons⟩)
  | .key :: rest => do
    let ends := fun t => t == .value || endsFlowPart t
    let (key, left₁) ← readUnless handles .inFlow ends anchors rest
    have h₁ := left₁.short
    let (value, left₂) ← readValue handles .inFlow endsFlowPart left₁.anchors left₁.tokens
    have h₂ := left₂.short
    let (entries, left₃) ← readMoreFlowEntries handles left₂.anchors left₂.tokens
    return ((key, value) :: entries, left₃.widen (by simp only [List.length_cons]; omega))
  | ts => do
    let (key, left₁) ← read handles .inFlow anchors ts
    have h₁ := left₁.short
    let (entries, left₂) ← readMoreFlowEntries handles left₁.anchors left₁.tokens
    return ((key, missing) :: entries, left₂.widen (by omega))
termination_by 5 * ts.length + 3

/-- Reads the entries of a flow mapping behind an entry. -/
def readMoreFlowEntries (handles : Handles) (anchors : Anchors) (ts : List Token) :
    Option (List (Node × Node) × Left (ts.length + 1)) :=
  match ts with
  | .flowMappingEnd :: rest => some ([], ⟨rest, anchors, Left.short_cons⟩)
  | .comma :: rest => do
    let (entries, left) ← readFlowEntries handles anchors rest
    return (entries, left.widen (by simp))
  | _ => none
termination_by 5 * ts.length

end

end Node

/-! ## Documents -/

/-- The content of a YAML text. -/
structure Document where
  /-- The node a text spells; a text without one has only spacing and comments. -/
  root : Option Node

namespace Document

/-- The handles of a document, from the directives before it.  Neither a handle
nor the version may be given twice, and the version is 1.1 or 1.2. -/
def readDirectives (versioned : Bool) (handles : Handles) :
    List Token → Option (Handles × List Token)
  | .version major minor :: rest =>
    if !versioned && major == 1 && (minor == 1 || minor == 2) then
      readDirectives true handles rest
    else none
  | .handle written expansion :: rest =>
    if (handles.lookup written).isSome then none
    else readDirectives versioned ((written, expansion) :: handles) rest
  | ts => some (handles ++ Handles.standard, ts)

/-- Whether nothing stands between the opening of a document and this token. -/
def leavesEmpty : Token → Bool
  | .version .. | .handle .. | .documentStart | .documentEnd => true
  | _ => false

/-- Reads the node of a document and what follows it.  Directives need a marker
behind them. -/
def readRoot (ts : List Token) : Option (Node × List Token) := do
  let (handles, rest) ← readDirectives false [] ts
  match rest with
  | .documentStart :: rest =>
    if rest.head?.all leavesEmpty then return (Node.missing, rest)
    else
      let (node, left) ← Node.read handles .inBlock [] rest
      return (node, left.tokens)
  | rest =>
    if rest.length < ts.length then none
    else
      let (node, left) ← Node.read handles .inBlock [] rest
      return (node, left.tokens)

/-- The document of a text; there may be one only. -/
def ofText? (t : Text) : Option Document := do
  match ← tokens? t with
  | [] => return ⟨none⟩
  | ts =>
    let (root, rest) ← readRoot ts
    if rest.all (· == .documentEnd) then return ⟨some root⟩ else none

end Document

end StyledChat.Yaml
