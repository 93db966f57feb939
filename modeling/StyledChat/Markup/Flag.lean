/-
Flags: named gradients with a shorthand tag.

`<pride>` and `<pride:FLAG>` stand for gradients in the colours of a flag.  They
are expanded into `<gradient>` tags before any tag is read, so the tag
vocabulary itself has no flags.
-/
import StyledChat.Markup.LegacyCode

namespace StyledChat

/-- A named list of gradient stops. -/
structure Flag where
  name : Text
  stops : List Text

namespace Flag

/-- The tag that introduces a flag. -/
def tagName : Text := "pride".toList

/-- The flag of a tag without argument. -/
def defaultName : Text := "pride".toList

/-- A flag written down with string literals. -/
def of (name : String) (stops : List String) : Flag := ⟨name.toList, stops.map String.toList⟩

/-- Every known flag. -/
def all : List Flag :=
  [of "pride" ["#e50000", "#ff8d00", "#ffee00", "#028121", "#004cff", "#770088"],
   of "progress" ["#ffffff", "#ffafc7", "#73d7ee", "#613915", "#000000", "#e50000",
     "#ff8d00", "#ffee00", "#028121", "#004cff", "#770088"],
   of "trans" ["#5bcffb", "#f5abb9", "#ffffff", "#f5abb9", "#5bcffb"],
   of "bi" ["#d60270", "#9b4f96", "#0038a8"],
   of "pan" ["#ff1c8d", "#ffd700", "#1ab3ff"],
   of "nb" ["#fcf431", "#fcfcfc", "#9d59d2", "#282828"],
   of "lesbian" ["#d62800", "#ff9b56", "#ffffff", "#d462a6", "#a40062"],
   of "ace" ["#000000", "#a4a4a4", "#ffffff", "#810081"],
   of "agender" ["#000000", "#bababa", "#ffffff", "#baf484", "#ffffff", "#bababa",
     "#000000"],
   of "demisexual" ["#000000", "#ffffff", "#6e0071", "#d3d3d3"],
   of "genderqueer" ["#b57fdd", "#ffffff", "#49821e"],
   of "genderfluid" ["#fe76a2", "#ffffff", "#bf12d7", "#000000", "#303cbe"],
   of "intersex" ["#ffd800", "#7902aa", "#ffd800"],
   of "aro" ["#3ba740", "#a8d47a", "#ffffff", "#ababab", "#000000"],
   of "baker" ["#cd66ff", "#ff6599", "#fe0000", "#fe9900", "#ffff01", "#009900",
     "#0099cb", "#350099", "#990099"],
   of "philly" ["#000000", "#784f17", "#fe0000", "#fd8c00", "#ffe500", "#119f0b",
     "#0644b3", "#c22edc"],
   of "queer" ["#000000", "#9ad9eb", "#00a3e8", "#b5e51d", "#ffffff", "#ffc90d",
     "#fc6667", "#feaec9", "#000000"],
   of "gay" ["#078e70", "#26ceaa", "#98e8c1", "#ffffff", "#7bade2", "#5049cc", "#3d1a78"],
   of "bigender" ["#c479a0", "#eca6cb", "#d5c7e8", "#ffffff", "#d5c7e8", "#9ac7e8",
     "#6c83cf"],
   of "demigender" ["#7f7f7f", "#c3c3c3", "#fbff74", "#ffffff", "#fbff74", "#c3c3c3",
     "#7f7f7f"]]

/-- The flag of a name, in any letter case. -/
def ofName? (t : Text) : Option Flag := all.find? fun f => f.name == Text.lower t

/-- The gradient tag a flag stands for. -/
def openTag (f : Flag) : Text := "<gradient:".toList ++ Text.join [':'] f.stops ++ ['>']

/-- The tag that ends the gradient of a flag. -/
def closeTag : Text := "</gradient>".toList

/-- A shorthand tag: the start of the gradient of a flag, by the name as
written, or its end. -/
inductive Shorthand where
  | start (flag : Text)
  | finish

/-- The text up to the next `>`, and what follows it, if no `<` comes first. -/
def bracketed? : Text → Option (Text × Text)
  | [] => none
  | c :: rest =>
    if c = '>' then some ([], rest)
    else if c = '<' then none
    else (bracketed? rest).map fun (inner, behind) => (c :: inner, behind)

theorem length_bracketed? : ∀ {t inner behind : Text},
    bracketed? t = some (inner, behind) → behind.length < t.length
  | [], _, _, h => by simp [bracketed?] at h
  | c :: rest, inner, behind, h => by
    simp only [bracketed?] at h
    split at h
    · simp only [Option.some.injEq, Prod.mk.injEq] at h
      obtain ⟨_, rfl⟩ := h
      simp
    · split at h
      · simp at h
      · simp only [Option.map_eq_some_iff, Prod.mk.injEq, Prod.exists] at h
        obtain ⟨i, b, hb, _, rfl⟩ := h
        have := length_bracketed? hb
        simp only [List.length_cons]
        omega

/-- Reads what stands between `<` and `>` as a shorthand tag.  The argument of a
start is trimmed; that of an end is not looked at. -/
def Shorthand.ofInner? (inner : Text) : Option Shorthand :=
  let (closing, body) :=
    match inner with
    | '/' :: body => (true, body)
    | _ => (false, inner)
  let (name, argument) :=
    match Text.cutAt? ':' body with
    | some (name, argument) => (name, some argument)
    | none => (body, none)
  if Text.sameLetters name tagName then
    if closing then some .finish
    else some (.start ((argument.map Text.trim).getD defaultName))
  else none

/-- Expands shorthand tags, `pending` starts being not yet ended.  A start with
an unknown flag, and an end with nothing pending, stay as written. -/
def expandFrom (pending : Nat) : Text → Text
  | [] => []
  | c :: rest =>
    if c = '<' then
      match _h : bracketed? rest with
      | none => '<' :: expandFrom pending rest
      | some (inner, behind) =>
        match Shorthand.ofInner? inner, pending with
        | some (.start name), _ =>
          match ofName? name with
          | some flag => flag.openTag ++ expandFrom (pending + 1) behind
          | none => '<' :: expandFrom pending rest
        | some .finish, pending + 1 => closeTag ++ expandFrom pending behind
        | _, _ => '<' :: expandFrom pending rest
    else c :: expandFrom pending rest
termination_by t => t.length
decreasing_by
  all_goals simp_wf
  all_goals
    have := length_bracketed? ‹_›
    omega

/-- The text with every shorthand tag expanded. -/
def expand (t : Text) : Text := expandFrom 0 t

end Flag

/-- The one form that templates and messages with legacy codes are brought to
before their tags are read: codes first, then flags. -/
def spellOut (t : Text) : Text := Flag.expand (LegacyCode.toTags t)

end StyledChat
