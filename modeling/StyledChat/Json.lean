/-
The part of JSON that text components are made of: strings, truth values, lists
and objects.
-/
import StyledChat.Text

namespace StyledChat

inductive Json where
  | string (t : Text)
  | bool (b : Bool)
  | array (items : List Json)
  | object (fields : List (Text × Json))

namespace Json

/-- The field `key`, when there is a value for it. -/
def field? (key : Text) (value : Option Json) : List (Text × Json) :=
  match value with
  | none => []
  | some v => [(key, v)]

end Json

end StyledChat
