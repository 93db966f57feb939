/-
The tokens of a text are its pieces.

Every token keeps the piece it was read from; the pieces are not empty and make
up the text (`flatMap_raw_ofText`).  Of a tag, the name and the arguments are a
part of its piece: joined by colons again, they are what is left of its content
when quotes and escapes are taken out (`sublist_join_splitAtColons`).  Hence an
argument is shorter than the text its tag stands in, by the brackets, the name
and a colon at least.
-/
import StyledChat.Markup.Token

namespace StyledChat
namespace Token

/-! ## Pieces -/

theorem cutTag?_quoted {place : Quoting} (h : place ≠ .outside) (c : Char) (rest : Text) :
    cutTag? place (c :: rest)
      = (cutTag? (place.step c) rest).map fun a => (c :: a.1, a.2) := by
  rw [cutTag?, if_neg fun e => h e.1, if_neg fun e => h e.1]

theorem cutTag?_outside_bracket (rest : Text) : cutTag? .outside ('<' :: rest) = none := rfl

theorem cutTag?_outside {c : Char} (hclose : c ≠ '>') (hopen : c ≠ '<') (rest : Text) :
    cutTag? .outside (c :: rest)
      = (cutTag? (Quoting.outside.step c) rest).map fun a => (c :: a.1, a.2) := by
  rw [cutTag?, if_neg fun e => hclose e.2, if_neg fun e => hopen e.2]

theorem eq_of_cutTag? : ∀ {t : Text} {place : Quoting} {inner behind : Text},
    cutTag? place t = some (inner, behind) → t = inner ++ '>' :: behind
  | c :: rest, place, inner, behind, h => by
      unfold cutTag? at h
      split at h
      · next hc =>
          obtain ⟨rfl, rfl⟩ := Prod.mk.inj (Option.some.inj h)
          rw [hc.2]
          rfl
      · split at h
        · cases h
        · obtain ⟨⟨i, b⟩, hcut, he⟩ := Option.map_eq_some_iff.mp h
          obtain ⟨rfl, rfl⟩ := Prod.mk.inj he
          rw [eq_of_cutTag? hcut]
          rfl

theorem append_cutText : ∀ (escaped : Bool) (t : Text),
    (cutText escaped t).1 ++ (cutText escaped t).2 = t
  | _, [] => rfl
  | escaped, c :: rest => by
      unfold cutText
      split
      · rfl
      · exact congrArg (List.cons c) (append_cutText (c == '\\') rest)

/-- What stands before the name of a tag: whether it closes, whether it negates,
and the text behind. -/
def lead (content : Text) : Bool × Bool × Text :=
  match content with
  | '/' :: body => (true, false, body)
  | '!' :: body => (false, true, body)
  | _ => (false, false, content)

theorem lead_suffix (content : Text) : (lead content).2.2 <:+ content := by
  unfold lead
  split
  · exact List.suffix_cons _ _
  · exact List.suffix_cons _ _
  · exact List.suffix_refl _

theorem lead_cons {c : Char} (hclose : c ≠ '/') (hnegate : c ≠ '!') (rest : Text) :
    lead (c :: rest) = (false, false, c :: rest) := by
  unfold lead
  split
  · next he => exact absurd (List.cons.inj he).1 hclose
  · next he => exact absurd (List.cons.inj he).1 hnegate
  · rfl

/-- The tag that content written with this name and these arguments makes. -/
def taggedOf (content written : Text) (args : List Text) : Tagged :=
  ⟨'<' :: (content ++ ['>']), Text.lower written, args, (lead content).2.1⟩

/-- The token that content written in these parts makes. -/
def ofParts? (content : Text) : List Text → Option Token
  | [] => none
  | written :: args =>
    if isName written then
      some (if (lead content).1 then closing (taggedOf content written args)
        else opening (taggedOf content written args))
    else none

theorem ofContent?_eq (content : Text) :
    ofContent? content = ofParts? content (splitAtColons .outside true (lead content).2.2) := rfl

/-- Content makes a token exactly when its first part is a name, and the token is
the tag of that name and the other parts. -/
theorem ofContent?_eq_some_iff {content : Text} {tok : Token} : ofContent? content = some tok ↔
    ∃ written args, splitAtColons .outside true (lead content).2.2 = written :: args
      ∧ isName written
      ∧ tok = (if (lead content).1 then closing (taggedOf content written args)
          else opening (taggedOf content written args)) := by
  rw [ofContent?_eq]
  cases splitAtColons .outside true (lead content).2.2 with
  | nil =>
      constructor
      · intro h
        cases h
      · rintro ⟨_, _, he, -, -⟩
        cases he
  | cons name args =>
      constructor
      · intro h
        by_cases hname : isName name
        · exact ⟨name, args, rfl, hname, (Option.some.inj ((if_pos hname).symm.trans h)).symm⟩
        · cases (if_neg hname).symm.trans h
      · rintro ⟨_, _, he, hname, rfl⟩
        obtain ⟨rfl, rfl⟩ := List.cons.inj he
        exact if_pos hname

theorem raw_of_ofContent? {content : Text} {tok : Token} (h : ofContent? content = some tok) :
    tok.raw = '<' :: (content ++ ['>']) := by
  obtain ⟨written, args, -, -, rfl⟩ := ofContent?_eq_some_iff.mp h
  split <;> rfl

theorem not_text_of_ofContent? {content : Text} {tok : Token}
    (h : ofContent? content = some tok) : ∀ raw, tok ≠ .text raw := by
  obtain ⟨written, args, -, -, rfl⟩ := ofContent?_eq_some_iff.mp h
  intro raw
  split <;> exact Token.noConfusion

theorem cutTag?_of_tag? {t behind : Text} {tok : Token} (h : tag? t = some (tok, behind)) :
    ∃ content, cutTag? .outside t = some (content, behind) ∧ ofContent? content = some tok := by
  unfold tag? at h
  split at h
  · cases h
  · next content b hcut =>
      obtain ⟨made, hmade, he⟩ := Option.map_eq_some_iff.mp h
      obtain ⟨rfl, rfl⟩ := Prod.mk.inj he
      exact ⟨content, hcut, hmade⟩

theorem tag?_eq_some {t behind : Text} {tok : Token} (h : tag? t = some (tok, behind)) :
    ∃ content, t = content ++ '>' :: behind ∧ ofContent? content = some tok := by
  obtain ⟨content, hcut, hmade⟩ := cutTag?_of_tag? h
  exact ⟨content, eq_of_cutTag? hcut, hmade⟩

/-- The first token is a piece in front of what follows. -/
theorem raw_append_first (c : Char) (rest : Text) :
    (first c rest).1.raw ++ (first c rest).2 = c :: rest := by
  unfold first
  split
  · next hc =>
      cases htag : tag? rest with
      | none => rw [hc]; rfl
      | some found =>
          obtain ⟨tok, behind⟩ := found
          obtain ⟨content, hcontent, hmade⟩ := tag?_eq_some htag
          show tok.raw ++ behind = _
          rw [raw_of_ofContent? hmade, hc, hcontent, List.cons_append, List.append_assoc]
          rfl
  · exact append_cutText false (c :: rest)

theorem raw_first_ne_nil (c : Char) (rest : Text) : (first c rest).1.raw ≠ [] := by
  intro h
  have happ := raw_append_first c rest
  have hlen := length_first c rest
  rw [h, List.nil_append] at happ
  rw [happ, List.length_cons] at hlen
  omega

/-- The pieces of a text make it up. -/
theorem flatMap_raw_ofText (t : Text) : (ofText t).flatMap raw = t := by
  induction t using ofText.induct with
  | case1 => rw [ofText]; rfl
  | case2 c rest ih => rw [ofText, List.flatMap_cons, ih, raw_append_first]

theorem raw_ne_nil_of_mem_ofText {t : Text} {tok : Token} (h : tok ∈ ofText t) : tok.raw ≠ [] := by
  induction t using ofText.induct with
  | case1 => rw [ofText] at h; cases h
  | case2 c rest ih =>
      rw [ofText] at h
      rcases List.mem_cons.mp h with rfl | h
      · exact raw_first_ne_nil c rest
      · exact ih h

theorem sublist_raw {t : Text} {tok : Token} (h : tok ∈ ofText t) : tok.raw.Sublist t := by
  have hsub := List.sublist_flatten_of_mem (List.mem_map_of_mem (f := raw) h)
  rwa [← List.flatMap_def, flatMap_raw_ofText] at hsub

theorem unescape_ne_nil {t : Text} (ht : t ≠ []) : unescape t ≠ [] := by
  induction t with
  | nil => exact ht
  | cons c rest ih =>
      unfold unescape
      split
      · next hc =>
          refine ih fun hrest => ?_
          rw [hrest] at hc
          cases hc.2
      · exact List.cons_ne_nil _ _

/-! ## The arguments of a tag -/

theorem join_consArg (sep : Text) (c : Char) (args : List Text) :
    Text.join sep (consArg c args) = c :: Text.join sep args := by
  match args with
  | [] => rfl
  | [_] => rfl
  | _ :: _ :: _ => rfl

theorem splitAtColons_ne_nil : ∀ (t : Text) (place : Quoting) (fresh : Bool),
    splitAtColons place fresh t ≠ []
  | [], place, _ => by cases place <;> exact List.cons_ne_nil _ _
  | c :: rest, place, fresh => by
      have hcons : ∀ (d : Char) (args : List Text), consArg d args ≠ [] := by
        intro d args
        cases args <;> exact List.cons_ne_nil _ _
      unfold splitAtColons
      cases place with
      | outside =>
          dsimp only
          split
          · exact splitAtColons_ne_nil rest _ _
          · split
            · exact List.cons_ne_nil _ _
            · exact hcons _ _
      | inside q =>
          dsimp only
          split
          · exact splitAtColons_ne_nil rest _ _
          · split
            · exact splitAtColons_ne_nil rest _ _
            · exact hcons _ _
      | escaped q =>
          dsimp only
          split <;> exact hcons _ _

/-- The `\` that a scanner has passed and may still keep. -/
def held : Quoting → Text
  | .escaped _ => ['\\']
  | _ => []

theorem join_nil_cons {args : List Text} (h : args ≠ []) :
    Text.join [':'] ([] :: args) = ':' :: Text.join [':'] args := by
  cases args with
  | nil => exact absurd rfl h
  | cons _ _ => rfl

/-- The arguments, joined by colons again, are the text without some quotes and
escapes. -/
theorem sublist_join_splitAtColons : ∀ (t : Text) (place : Quoting) (fresh : Bool),
    (Text.join [':'] (splitAtColons place fresh t)).Sublist (held place ++ t)
  | [], place, _ => by
      cases place with
      | outside => exact List.Sublist.refl _
      | inside q => exact List.Sublist.refl _
      | escaped q => exact List.Sublist.refl _
  | c :: rest, place, fresh => by
      have ih := sublist_join_splitAtColons rest
      unfold splitAtColons
      cases place with
      | outside =>
          dsimp only
          split
          · exact (ih _ _).cons c
          · split
            · next hc =>
                rw [join_nil_cons (splitAtColons_ne_nil _ _ _), hc]
                exact (ih _ _).cons_cons ':'
            · rw [join_consArg]
              exact (ih _ _).cons_cons c
      | inside q =>
          dsimp only
          split
          · next hc =>
              -- the escape is held until the next character is known
              rw [hc]
              exact ih (.escaped q) fresh
          · split
            · exact (ih _ _).cons c
            · rw [join_consArg]
              exact (ih _ _).cons_cons c
      | escaped q =>
          have hkept := (ih (.inside q) false).cons_cons c
          dsimp only
          split
          · rw [join_consArg]
            exact hkept.cons '\\'
          · rw [join_consArg, join_consArg]
            exact hkept.cons_cons '\\'

theorem length_le_join (sep : Text) {arg : Text} : ∀ {args : List Text}, arg ∈ args →
    arg.length ≤ (Text.join sep args).length
  | [a], h => by
      rw [List.mem_singleton.mp h]
      exact Nat.le_refl _
  | a :: b :: more, h => by
      rw [Text.join, List.length_append, List.length_append]
      rcases List.mem_cons.mp h with rfl | h
      · omega
      · have := length_le_join sep h
        omega
      · exact List.cons_ne_nil _ _

/-- An argument behind a name is shorter than the content it stands in. -/
theorem length_arg_lt {content written arg : Text} {args : List Text}
    (hsplit : splitAtColons .outside true (lead content).2.2 = written :: args)
    (harg : arg ∈ args) : arg.length < content.length := by
  have hsub := sublist_join_splitAtColons (lead content).2.2 .outside true
  rw [hsplit] at hsub
  have hbody := hsub.length_le
  have hlead := (lead_suffix content).length_le
  cases args with
  | nil => cases harg
  | cons a more =>
      have := length_le_join [':'] harg
      rw [Text.join, List.length_append, List.length_append] at hbody
      · simp only [held, List.nil_append, List.length_singleton] at hbody
        omega
      · exact List.cons_ne_nil _ _

/-- A token is a stretch of text or was made of the content of a tag. -/
theorem text_or_tag_of_mem_ofText {t : Text} {tok : Token} (h : tok ∈ ofText t) :
    (∃ raw, tok = text raw) ∨ ∃ content, ofContent? content = some tok := by
  induction t using ofText.induct with
  | case1 => rw [ofText] at h; cases h
  | case2 c rest ih =>
      rw [ofText] at h
      rcases List.mem_cons.mp h with rfl | h
      · unfold first
        split
        · cases htag : tag? rest with
          | none => exact Or.inl ⟨_, rfl⟩
          | some found =>
              obtain ⟨content, -, hmade⟩ := tag?_eq_some htag
              exact Or.inr ⟨content, hmade⟩
        · exact Or.inl ⟨_, rfl⟩
      · exact ih h

/-- The tag of a token, if it is one. -/
def tagged? : Token → Option Tagged
  | text _ => none
  | opening tag => some tag
  | closing tag => some tag

/-- A tag was made of the parts of some content. -/
theorem exists_taggedOf {t : Text} {tok : Token} {tag : Tagged} (h : tok ∈ ofText t)
    (htag : tok.tagged? = some tag) : ∃ content written args,
      splitAtColons .outside true (lead content).2.2 = written :: args
        ∧ tag = taggedOf content written args := by
  rcases text_or_tag_of_mem_ofText h with ⟨raw, rfl⟩ | ⟨content, hmade⟩
  · cases htag
  · obtain ⟨written, args, hsplit, -, rfl⟩ := ofContent?_eq_some_iff.mp hmade
    refine ⟨content, written, args, hsplit, ?_⟩
    split at htag <;> exact (Option.some.inj htag).symm

/-- An argument of an opening tag is shorter than the text the tag stands in. -/
theorem length_arg_lt_of_opening {t arg : Text} {tag : Tagged} (h : opening tag ∈ ofText t)
    (harg : arg ∈ tag.args) : arg.length < t.length := by
  obtain ⟨content, written, args, hsplit, rfl⟩ := exists_taggedOf h rfl
  have hraw : ('<' :: (content ++ ['>'])).length ≤ t.length := (sublist_raw h).length_le
  have hlt := length_arg_lt hsplit harg
  rw [List.length_cons, List.length_append] at hraw
  omega

end Token
end StyledChat
