/-
Quoted arguments among the tokens of a text.

An argument between quotes, with a `\` before every `\` and every quote of its own kind, may
hold any characters: colons, brackets, quotes of both kinds, and none at all.  Each of the two
scanners passes over it on its own (`Token.Passes.written`, `Token.splitAtColons_written`), so a
written tag is the first token of whatever text it stands in front of, and the tokens behind it
are those of that text (`TagForm.ofText_opening`, `TagForm.ofText_closing`).
`Token.ofText_quoted` says this of tags whose arguments are all quoted, and of the octets that
such a text is written in.
-/
import StyledChat.Proofs.Octets

namespace StyledChat

/-! ## Written tags as tokens -/

namespace Token

/-- A tag is the first token of a text, and the others are those of the text behind it. -/
theorem ofText_tag {rest behind : Text} {tok : Token} (h : tag? rest = some (tok, behind)) :
    ofText ('<' :: rest) = tok :: ofText behind := by
  rw [ofText, first_tag h]

end Token

namespace TagForm

theorem ofText_opening (f : TagForm) (following : Text) :
    Token.ofText (f.opening ++ following) = .opening f.opened :: Token.ofText following := by
  have hread := Token.ofText_tag (f.tag?_opening following)
  rwa [List.append_cons] at hread

theorem ofText_closing (f : TagForm) (following : Text) :
    Token.ofText (f.closing ++ following) = .closing f.closed :: Token.ofText following := by
  have hread := Token.ofText_tag (f.tag?_closing following)
  rwa [List.append_cons] at hread

end TagForm

/-! ## Tags with quoted arguments -/

namespace Quote

/-- The text between quotes of this kind, escaped. -/
def wrap (q : Quote) (t : Text) : Text := q.char :: (q.escape t ++ [q.char])

end Quote

namespace Token

/-- A name with quoted arguments, each behind a colon and between quotes of its own kind. -/
def quotedContent (name : Text) (args : List (Quote × Text)) : Text :=
  name ++ args.flatMap fun a => ':' :: a.1.wrap a.2

/-- The tag with these quoted arguments, as it is written. -/
def quotedForm {name : Text} (hname : isName name) (args : List (Quote × Text)) : TagForm :=
  ⟨name, args.map fun a => .quoted a.1 a.2, hname⟩

theorem content_quotedForm {name : Text} (hname : isName name) (args : List (Quote × Text)) :
    (quotedForm hname args).content = quotedContent name args := by
  rw [TagForm.content, quotedForm, Argument.writtenAll, List.flatMap_map]
  rfl

theorem values_quotedForm {name : Text} (hname : isName name) (args : List (Quote × Text)) :
    (quotedForm hname args).values = args.map Prod.snd := by
  rw [TagForm.values, quotedForm, List.map_map]
  rfl

/-- A name with any number of quoted arguments, whatever characters they hold, is read as one
tag of the lowered name and of these arguments, and what follows the tag as if the tag were not
there.  The same tokens are read from the octets. -/
theorem ofText_quoted {name : Text} (hname : isName name) (args : List (Quote × Text))
    (following : Text) :
    let content := quotedContent name args
    let opened : Tagged :=
      ⟨'<' :: (content ++ ['>']), Text.lower name, args.map Prod.snd, false⟩
    let closed : Tagged :=
      ⟨'<' :: '/' :: (content ++ ['>']), Text.lower name, args.map Prod.snd, false⟩
    ofText (opened.raw ++ following) = .opening opened :: ofText following
      ∧ ofText (closed.raw ++ following) = .closing closed :: ofText following
      ∧ ReadFrom (Text.octets (opened.raw ++ following)) (.opening opened :: ofText following)
      ∧ ReadFrom (Text.octets (closed.raw ++ following))
          (.closing closed :: ofText following) := by
  intro content opened closed
  have hcontent := content_quotedForm hname args
  have hvalues := values_quotedForm hname args
  have hopened : (quotedForm hname args).opened = opened := by
    rw [TagForm.opened, TagForm.opening, hcontent, hvalues]
    rfl
  have hclosed : (quotedForm hname args).closed = closed := by
    rw [TagForm.closed, TagForm.closing, hcontent, hvalues]
    rfl
  have hopening : ofText (opened.raw ++ following) = .opening opened :: ofText following := by
    rw [← hopened]
    exact (quotedForm hname args).ofText_opening following
  have hclosing : ofText (closed.raw ++ following) = .closing closed :: ofText following := by
    rw [← hclosed]
    exact (quotedForm hname args).ofText_closing following
  exact ⟨hopening, hclosing, hopening ▸ readFrom_octets _, hclosing ▸ readFrom_octets _⟩

/-- Arguments that hold brackets and a colon, a quote of the kind around them, and nothing. -/
theorem ofText_quoted_of_samples :
    let args := [(Quote.single, "a>b:<c".toList), (.double, "\"é\\'".toList), (.single, [])]
    let raw := "<Hover:'a>b:<c':\"\\\"é\\\\'\":''>".toList
    isName "Hover".toList ∧ '<' :: (quotedContent "Hover".toList args ++ ['>']) = raw
      ∧ ofText (raw ++ "x<b>".toList)
        = .opening ⟨raw, "hover".toList, args.map Prod.snd, false⟩ :: ofText "x<b>".toList := by
  intro args raw
  have hname : isName "Hover".toList := by decide
  have hraw : '<' :: (quotedContent "Hover".toList args ++ ['>']) = raw := by decide +kernel
  refine ⟨hname, hraw, ?_⟩
  have hread := (ofText_quoted hname args "x<b>".toList).1
  rw [hraw] at hread
  exact hread

end Token

end StyledChat
