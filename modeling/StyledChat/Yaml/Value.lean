/-
Values: what the nodes of a YAML text stand for.

A plain scalar stands for nothing, a truth value or a number if it is spelled
like one, and for its text otherwise; a quoted scalar stands for its text.  A tag
of the standard vocabulary demands its kind.  A tag of the writer's own is kept
with the value.
-/
import StyledChat.Binary64
import StyledChat.Yaml.Node

namespace StyledChat.Yaml

/-- Whether a text is a word in one of the three ways it may be written: in small
letters, with the first letter a capital, or in capitals. -/
def isWord (small capital capitals : String) (t : Text) : Bool :=
  t = small.toList || t = capital.toList || t = capitals.toList

/-! ## Numbers -/

inductive Number where
  | int (n : Int)
  | float (x : Binary64)
  | infinite (negative : Bool)
  | nan
deriving DecidableEq, Repr

namespace Number

/-- Equality of numbers.  An integer differs from every float, and a number that
is none equals itself. -/
def same : Number → Number → Bool
  | float a, float b => a.same b
  | a, b => a == b

/-- A decimal with a point, or with an exponent where the point would stand behind
more than sixteen digits, or before more than four zeros. -/
def floatText (d : Decimal) : Text :=
  let digits := Text.decimal d.digits
  let point : Int := digits.length + d.exponent
  if 0 ≤ d.exponent ∧ point ≤ 16 then
    digits ++ List.replicate d.exponent.toNat '0' ++ ".0".toList
  else if 0 < point ∧ point ≤ 16 then
    digits.take point.toNat ++ '.' :: digits.drop point.toNat
  else if -5 < point ∧ point ≤ 0 then
    "0.".toList ++ List.replicate (-point).toNat '0' ++ digits
  else
    let exponent := point - 1
    let sign := if exponent < 0 then ['-'] else []
    digits.take 1 ++ (if digits.length = 1 then [] else '.' :: digits.drop 1)
      ++ 'e' :: sign ++ Text.decimal exponent.natAbs

/-- The number as text. -/
def text : Number → Text
  | int n => (if n < 0 then ['-'] else []) ++ Text.decimal n.natAbs
  | float x => (if x.negative then ['-'] else []) ++ floatText x.shortest
  | infinite negative => (if negative then ['-'] else []) ++ ".inf".toList
  | nan => ".nan".toList

/-! ### Spelling -/

/-- Whether digits start with a zero that says nothing: such a text is no
number. -/
def hasIdleZero : Text → Bool
  | '0' :: c :: rest => (c :: rest).all Char.isDigit
  | _ => false

/-- The number without sign that a text spells, in base ten or behind `0x`, `0o`
or `0b`. -/
def magnitude? (t : Text) : Option Nat :=
  match t with
  | '0' :: 'x' :: digits => Text.number? 16 digits
  | '0' :: 'o' :: digits => Text.number? 8 digits
  | '0' :: 'b' :: digits => Text.number? 2 digits
  | digits => if hasIdleZero digits then none else Text.number? 10 digits

/-- The integer a text spells. -/
def integer? : Text → Option Int
  | '-' :: digits => (magnitude? digits).map fun n => -n
  | '+' :: digits => (magnitude? digits).map fun n => n
  | digits => (magnitude? digits).map fun n => n

/-- Whether an integer can be kept: it fits 64 bits, with a sign or without. -/
def fits (n : Int) : Bool := -0x8000000000000000 ≤ n && n < 0x10000000000000000

/-- Whether an integer fits 128 bits, with a sign or without. -/
def fitsTwice (n : Int) : Bool :=
  -0x80000000000000000000000000000000 ≤ n && n < 0x100000000000000000000000000000000

/-- The exponent of a decimal behind its `e`. -/
def exponent? : Text → Option Int
  | '-' :: digits => (Text.number? 10 digits).map fun n => -n
  | '+' :: digits => (Text.number? 10 digits).map fun n => n
  | digits => (Text.number? 10 digits).map fun n => n

/-- The decimal without sign that a text spells: digits with a point anywhere, or
none, and perhaps an exponent. -/
def decimal? (t : Text) : Option Decimal := do
  let whole := t.takeWhile Char.isDigit
  let (fraction, rest) := match t.dropWhile Char.isDigit with
    | '.' :: rest => (rest.takeWhile Char.isDigit, rest.dropWhile Char.isDigit)
    | rest => ([], rest)
  let digits ← Text.number? 10 (whole ++ fraction)
  let exponent ← match rest with
    | [] => some 0
    | c :: rest => if c = 'e' ∨ c = 'E' then exponent? rest else none
  return ⟨digits, exponent - fraction.length⟩

/-- The float without sign that a text spells. -/
def unsignedFloat? (negative : Bool) (t : Text) : Option Number :=
  if isWord ".inf" ".Inf" ".INF" t then some (infinite negative)
  else do return float (← Binary64.ofDecimal? negative (← decimal? t))

/-- The float a text spells.  One that is too large is none. -/
def float? : Text → Option Number
  | '+' :: rest => unsignedFloat? false rest
  | '-' :: rest => unsignedFloat? true rest
  | t => if isWord ".nan" ".NaN" ".NAN" t then some nan else unsignedFloat? false t

end Number

/-! ## Values -/

inductive Value where
  | null
  | bool (b : Bool)
  | number (n : Number)
  | string (t : Text)
  | sequence (items : List Value)
  | mapping (entries : List (Value × Value))
  | tagged (name : Text) (value : Value)

namespace Value

mutual

/-- Equality of values; the entries of a mapping are in no order. -/
def same : Value → Value → Bool
  | null, null => true
  | bool a, bool b => a == b
  | number a, number b => a.same b
  | string a, string b => a == b
  | sequence as, sequence bs => sameItems as bs
  | mapping as, mapping bs => as.length == bs.length && sameEntries as bs
  | tagged a x, tagged b y => a == b && same x y
  | _, _ => false

def sameItems : List Value → List Value → Bool
  | [], [] => true
  | a :: as, b :: bs => same a b && sameItems as bs
  | _, _ => false

/-- Whether each entry of the first list is one of the second. -/
def sameEntries : List (Value × Value) → List (Value × Value) → Bool
  | [], _ => true
  | (key, value) :: rest, bs =>
    bs.any (fun (k, v) => same key k && same value v) && sameEntries rest bs

end

/-- Whether no key occurs twice. -/
def distinctKeys : List (Value × Value) → Bool
  | [] => true
  | (key, _) :: rest => !rest.any (fun (k, _) => same key k) && distinctKeys rest

/-- The value without the tags around it. -/
def untagged : Value → Value
  | tagged _ value => untagged value
  | value => value

/-- Whether the value is a mapping, whatever its tags. -/
def isMapping (v : Value) : Bool :=
  match v.untagged with
  | mapping _ => true
  | _ => false

/-! ### Scalars -/

/-- Whether a text spells the value that is none. -/
def isNull (t : Text) : Bool := isWord "null" "Null" "NULL" t || t == ['~']

/-- The truth value a text spells. -/
def bool? (t : Text) : Option Bool :=
  if isWord "true" "True" "TRUE" t then some true
  else if isWord "false" "False" "FALSE" t then some false
  else none

/-- What a plain scalar stands for.  An integer that fits 128 bits but not 64
stands for nothing at all. -/
def ofPlain? (t : Text) : Option Value :=
  if t.isEmpty || isNull t then some null
  else match bool? t with
    | some b => some (bool b)
    | none =>
      match (Number.integer? t).filter Number.fitsTwice with
      | some n => if Number.fits n then some (number (.int n)) else none
      | none =>
        if Number.hasIdleZero (if t.head? = some '-' ∨ t.head? = some '+' then t.tail else t) then
          some (string t)
        else some (((Number.float? t).map number).getD (string t))

/-- What a scalar without a tag stands for. -/
def ofUntagged? (style : ScalarStyle) (t : Text) : Option Value :=
  if style = .plain then ofPlain? t else some (string t)

/-- What a scalar stands for. -/
def ofScalar? (tag : Option Tag) (style : ScalarStyle) (t : Text) : Option Value :=
  match tag with
  | none => ofUntagged? style t
  | some .null => if isNull t then some null else none
  | some .bool => (bool? t).map bool
  | some .int => ((Number.integer? t).filter Number.fits).map fun n => number (.int n)
  | some .float => (Number.float? t).map number
  | some (.custom none) => ofUntagged? style t
  | some (.custom (some name)) => (ofUntagged? style t).map (tagged name)
  | some .other => some (string t)

/-- A collection with its tag; only tags of the writer's own count. -/
def withTag (tag : Option Tag) (value : Value) : Value :=
  match tag with
  | some (.custom (some name)) => tagged name value
  | _ => value

end Value

/-! ## Reading values -/

/-- Reading from a document, counting the references that may still be
followed. -/
abbrev Decode := StateT Nat Option

/-- The anchored nodes of a document, those that start last first. -/
abbrev AnchorTable := List (Nat × Node)

namespace AnchorTable

/-- The node itself, or the one that a reference means. -/
def follow (table : AnchorTable) : Node → Decode Node
  | .reference id => do
    match ← get with
    | 0 => failure
    | left + 1 =>
      set left
      StateT.lift (table.lookup id)
  | node => return node

/-- The value of a node with collections nested at most `depth` deep in it. -/
def value (table : AnchorTable) (depth : Nat) (node : Node) : Decode Value := do
  match ← table.follow node with
  | .reference _ => failure
  | .scalar props style text => StateT.lift (Value.ofScalar? props.tag style text)
  | .sequence props items =>
    match depth with
    | 0 => failure
    | depth + 1 => return .withTag props.tag (.sequence (← items.mapM (table.value depth)))
  | .mapping props entries =>
    match depth with
    | 0 => failure
    | depth + 1 => do
      let entries ← entries.mapM fun (key, value) =>
        return (← table.value depth key, ← table.value depth value)
      if Value.distinctKeys entries then return .withTag props.tag (.mapping entries) else failure

end AnchorTable

/-! ## Reading fields

A structure with known fields is read from a mapping.  The keys are scalars and
their texts count, whatever they would stand for.  No field may be given twice,
and keys that are no field are passed over with their values. -/

namespace AnchorTable

/-- Keys and values of a mapping; an empty plain scalar is an empty mapping. -/
def entries (table : AnchorTable) (node : Node) : Decode (List (Node × Node)) := do
  match ← table.follow node with
  | .mapping _ entries => return entries
  | .scalar _ .plain [] => return []
  | _ => failure

/-- The fields of a mapping. -/
def fields (table : AnchorTable) (node : Node) : Decode (List (Text × Node)) := do
  (← table.entries node).mapM fun (key, value) => do
    match ← table.follow key with
    | .scalar _ _ text => return (text, value)
    | _ => failure

/-- The truth value of a node. -/
def flag (table : AnchorTable) (node : Node) : Decode Bool := do
  match ← table.follow node with
  | .scalar props style text =>
    if style = .plain ∨ (style = .literal ∧ props.tag = some .bool) then
      StateT.lift (Value.bool? text)
    else failure
  | _ => failure

/-- The node, unless it is a plain scalar that stands for nothing. -/
def unlessNull (table : AnchorTable) (node : Node) : Decode (Option Node) := do
  match ← table.follow node with
  | .scalar props .plain text =>
    match props.tag with
    | none =>
      if text.isEmpty || Value.isNull text then return none
      else return some (.scalar props .plain text)
    | some .null => if Value.isNull text then return none else failure
    | some _ => return some (.scalar props .plain text)
  | node => return some node

end AnchorTable

/-- The value a field was given, if it was given one and no other. -/
def field? (name : Text) (fields : List (Text × Node)) : Decode (Option Node) :=
  match fields.filter fun field => field.1 == name with
  | [] => return none
  | [field] => return some field.2
  | _ => failure

namespace Document

/-- The anchored nodes, those that start last first. -/
def anchors (d : Document) : AnchorTable := ((d.root.map Node.anchored).getD []).reverse

/-- The number of references that reading a document may follow. -/
def references (d : Document) : Nat := 100 * (d.root.map Node.weight).getD 1

/-- What a reader makes of a document; where there is no node, it is given an
empty one. -/
def decode {α : Type} (d : Document) (read : AnchorTable → Node → Decode α) : Option α :=
  (read d.anchors (d.root.getD Node.missing) d.references).map (·.1)

end Document

end StyledChat.Yaml
