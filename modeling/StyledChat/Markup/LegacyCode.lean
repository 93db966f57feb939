/-
Legacy codes: the `&`-prefixed colour codes players have always typed.

They are turned into tags before any tag is read, so that there is one syntax
to read.  The text is scanned once: what a code is turned into is never taken
for the start of another code.
-/
import StyledChat.Text

namespace StyledChat
namespace LegacyCode

/-- The one-character codes and their tags, in the order of the codes. -/
def table : List (Char × Text) :=
  [('0', "<black>".toList), ('1', "<dark_blue>".toList), ('2', "<dark_green>".toList),
   ('3', "<dark_aqua>".toList), ('4', "<dark_red>".toList), ('5', "<dark_purple>".toList),
   ('6', "<gold>".toList), ('7', "<gray>".toList), ('8', "<dark_gray>".toList),
   ('9', "<blue>".toList), ('a', "<green>".toList), ('b', "<aqua>".toList),
   ('c', "<red>".toList), ('d', "<light_purple>".toList), ('e', "<yellow>".toList),
   ('f', "<white>".toList), ('l', "<bold>".toList), ('o', "<italic>".toList),
   ('n', "<underlined>".toList), ('m', "<strikethrough>".toList),
   ('k', "<obfuscated>".toList), ('r', "<reset>".toList)]

/-- The tag of a code; codes are lower-case only. -/
def tag? (code : Char) : Option Text := table.lookup code

/-- Whether a text starts with `#` and six hex digits. -/
def startsWithHex : Text → Bool
  | [] => false
  | c :: rest => c == '#' && (rest.take 6).length == 6 && (rest.take 6).all Text.isHexDigit

/-- The text with every legacy code turned into a tag: `&#RRGGBB` to `<#RRGGBB>` in
the letter case it was written in, `&` and a code to the tag of the code.  Any
other `&` is kept. -/
def toTags : Text → Text
  | [] => []
  | c :: rest =>
    if c = '&' then
      if startsWithHex rest then
        '<' :: (rest.take 7 ++ '>' :: toTags (rest.drop 7))
      else
        match rest with
        | [] => ['&']
        | code :: behind =>
          match tag? code with
          | some tag => tag ++ toTags behind
          | none => '&' :: toTags (code :: behind)
    else c :: toTags rest
termination_by t => t.length
decreasing_by all_goals (simp_wf; try omega)

end LegacyCode
end StyledChat
