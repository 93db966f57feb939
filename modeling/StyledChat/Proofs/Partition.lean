/-
A text is cut into its tokens in one way.

A tag is a content between brackets that makes a token, if the content ends outside of quotes
and has no bracket outside of them (`Encloses`).  A `<` at which no tag starts is a piece of
its own, and any other text is a piece up to the next `<` without a `\` before it (`IsPiece`).
A text is cut into such pieces in exactly one way, and its tokens are these pieces
(`eq_ofText_iff`).  None of them is empty, so that there are at most as many as the text has
characters (`length_ofText_le`).
-/
import Mathlib.Algebra.BigOperators.Group.List.Basic
import StyledChat.Proofs.Octets

namespace StyledChat

/-! ## Characters behind what stands before them -/

namespace Text

/-- Every character of a text has the property, behind what stands before it. -/
def Everywhere (P : Text → Char → Prop) (t : Text) : Prop :=
  ∀ before c behind, t = before ++ c :: behind → P before c

variable {P : Text → Char → Prop}

theorem everywhere_nil : Everywhere P [] := by
  intro before c behind he
  cases before <;> cases he

theorem everywhere_cons {c : Char} {rest : Text} :
    Everywhere P (c :: rest) ↔ P [] c ∧ Everywhere (fun before => P (c :: before)) rest := by
  constructor
  · intro h
    exact ⟨h [] c rest rfl, fun before d behind he => h (c :: before) d behind (congrArg _ he)⟩
  · rintro ⟨hc, hrest⟩ before d behind he
    cases before with
    | nil =>
        obtain ⟨rfl, -⟩ := List.cons.inj he
        exact hc
    | cons e more =>
        obtain ⟨rfl, rfl⟩ := List.cons.inj he
        exact hrest more d behind rfl

theorem everywhere_iff {t : Text} :
    Everywhere P t ↔ ∀ i, (h : i < t.length) → P (t.take i) t[i] := by
  constructor
  · intro h i hi
    refine h _ _ (t.drop (i + 1)) ?_
    rw [← List.drop_eq_getElem_cons hi, List.take_append_drop]
  · rintro h before c behind rfl
    have hat := h before.length (by simp)
    simpa using hat

instance [∀ before c, Decidable (P before c)] (t : Text) : Decidable (Everywhere P t) :=
  decidable_of_iff _ everywhere_iff.symm

end Text

/-! ## Tags -/

/-- The place behind a text, when any quote opens. -/
def Quoting.past (place : Quoting) (p : Text) : Quoting := p.foldl step place

theorem Quoting.past_concat (place : Quoting) (p : Text) (c : Char) :
    place.past (p ++ [c]) = (place.past p).step c := List.foldl_concat step place c p

namespace Token

/-- The content can be closed by a `>`, as a scanner reads it that stands at `place p` behind
`p`: the content ends outside of quotes, and has no bracket outside of them. -/
def Encloses (place : Text → Quoting) (content : Text) : Prop :=
  place content = .outside
    ∧ content.Everywhere fun before c => place before = .outside → c ≠ '<' ∧ c ≠ '>'

instance (place : Text → Quoting) (content : Text) : Decidable (Encloses place content) :=
  inferInstanceAs (Decidable (_ ∧ _))

theorem encloses_nil {place : Quoting} : Encloses place.past [] ↔ place = .outside :=
  and_iff_left Text.everywhere_nil

theorem encloses_cons {place : Quoting} {c : Char} {rest : Text} :
    Encloses place.past (c :: rest)
      ↔ (place = .outside → c ≠ '<' ∧ c ≠ '>') ∧ Encloses (place.step c).past rest := by
  rw [Encloses, Text.everywhere_cons, and_left_comm]
  rfl

/-- The end of a tag is found behind the one content that can be closed there. -/
theorem cutTag?_eq_some_iff {place : Quoting} {t content behind : Text} :
    cutTag? place t = some (content, behind)
      ↔ t = content ++ '>' :: behind ∧ Encloses place.past content := by
  constructor
  · intro h
    refine ⟨eq_of_cutTag? h, ?_⟩
    induction t generalizing place content with
    | nil => cases h
    | cons c rest ih =>
        rw [cutTag?] at h
        by_cases hclose : place = .outside ∧ c = '>'
        · rw [if_pos hclose] at h
          obtain ⟨rfl, -⟩ := Prod.mk.inj (Option.some.inj h)
          exact encloses_nil.mpr hclose.1
        · by_cases hopen : place = .outside ∧ c = '<'
          · rw [if_neg hclose, if_pos hopen] at h
            cases h
          · rw [if_neg hclose, if_neg hopen] at h
            obtain ⟨⟨inner, after⟩, hcut, he⟩ := Option.map_eq_some_iff.mp h
            obtain ⟨rfl, rfl⟩ := Prod.mk.inj he
            refine encloses_cons.mpr ⟨fun hplace => ?_, ih hcut⟩
            exact ⟨fun e => hopen ⟨hplace, e⟩, fun e => hclose ⟨hplace, e⟩⟩
  · rintro ⟨rfl, h⟩
    induction content generalizing place with
    | nil => exact if_pos ⟨encloses_nil.mp h, rfl⟩
    | cons c rest ih =>
        obtain ⟨hc, hrest⟩ := encloses_cons.mp h
        rw [List.cons_append]
        by_cases hplace : place = .outside
        · subst hplace
          rw [cutTag?_outside (hc rfl).2 (hc rfl).1, ih hrest]
          rfl
        · rw [cutTag?_quoted hplace, ih hrest]
          rfl

theorem tag?_eq_some_iff {t behind : Text} {tok : Token} : tag? t = some (tok, behind)
    ↔ ∃ content, t = content ++ '>' :: behind ∧ Encloses Quoting.outside.past content
        ∧ ofContent? content = some tok := by
  constructor
  · intro h
    obtain ⟨content, hcut, hmade⟩ := cutTag?_of_tag? h
    obtain ⟨ht, hencloses⟩ := cutTag?_eq_some_iff.mp hcut
    exact ⟨content, ht, hencloses, hmade⟩
  · rintro ⟨content, ht, hencloses, hmade⟩
    rw [tag?, cutTag?_eq_some_iff.mpr ⟨ht, hencloses⟩]
    exact congrArg (Option.map _) hmade

/-- A tag starts at a `<` that stands in front of this text. -/
def StartsTag (t : Text) : Prop :=
  ∃ content behind tok, t = content ++ '>' :: behind ∧ Encloses Quoting.outside.past content
    ∧ ofContent? content = some tok

theorem startsTag_iff {t : Text} : StartsTag t ↔ tag? t ≠ none := by
  rw [Option.ne_none_iff_exists']
  constructor
  · rintro ⟨content, behind, tok, h⟩
    exact ⟨(tok, behind), tag?_eq_some_iff.mpr ⟨content, h⟩⟩
  · rintro ⟨⟨tok, behind⟩, h⟩
    obtain ⟨content, h⟩ := tag?_eq_some_iff.mp h
    exact ⟨content, behind, tok, h⟩

/-! ## Runs of text -/

/-- Whether what follows `p` stands behind a `\`. -/
def slashed (escaped : Bool) (p : Text) : Bool := (p.getLast?.map (· == '\\')).getD escaped

theorem slashed_cons (escaped : Bool) (c : Char) (rest : Text) :
    slashed escaped (c :: rest) = slashed (c == '\\') rest := by
  rw [slashed, slashed, List.getLast?_cons]
  cases rest.getLast? <;> rfl

/-- Every `<` stands behind a `\`. -/
def Escapes (escaped : Bool) (run : Text) : Prop :=
  run.Everywhere fun before c => c = '<' → slashed escaped before

/-- The run cannot go on: the text ends, or a `<` follows that is not escaped. -/
def EndsAt (escaped : Bool) (run behind : Text) : Prop :=
  behind = [] ∨ behind.head? = some '<' ∧ slashed escaped run = false

theorem escapes_cons {escaped : Bool} {c : Char} {rest : Text} : Escapes escaped (c :: rest)
    ↔ ¬(c = '<' ∧ !escaped) ∧ Escapes (c == '\\') rest := by
  have hfirst : (c = '<' → slashed escaped []) ↔ ¬(c = '<' ∧ !escaped) := by
    cases escaped <;> simp [slashed]
  rw [Escapes, Text.everywhere_cons, hfirst]
  simp only [slashed_cons]
  rfl

theorem endsAt_cons {escaped : Bool} {c : Char} {run behind : Text} :
    EndsAt escaped (c :: run) behind ↔ EndsAt (c == '\\') run behind := by
  rw [EndsAt, EndsAt, slashed_cons]

/-- A run of text is cut off in front of the first `<` that is not escaped. -/
theorem cutText_eq_iff {escaped : Bool} {t run behind : Text} :
    cutText escaped t = (run, behind)
      ↔ t = run ++ behind ∧ Escapes escaped run ∧ EndsAt escaped run behind := by
  constructor
  · intro h
    refine ⟨by rw [← append_cutText escaped t, h], ?_⟩
    induction t generalizing escaped run with
    | nil =>
        obtain ⟨rfl, rfl⟩ := Prod.mk.inj h
        exact ⟨Text.everywhere_nil, Or.inl rfl⟩
    | cons c rest ih =>
        by_cases hc : c = '<' ∧ !escaped
        · rw [cutText, if_pos hc] at h
          obtain ⟨rfl, rfl⟩ := Prod.mk.inj h
          refine ⟨Text.everywhere_nil, Or.inr ⟨congrArg some hc.1, ?_⟩⟩
          exact Bool.not_eq_true' escaped ▸ hc.2
        · rw [cutText_cons hc] at h
          obtain ⟨rfl, rfl⟩ := Prod.mk.inj h
          have hrest : cutText (c == '\\') rest
              = ((cutText (c == '\\') rest).1, (cutText (c == '\\') rest).2) := rfl
          obtain ⟨hescapes, hends⟩ := ih hrest
          exact ⟨escapes_cons.mpr ⟨hc, hescapes⟩, endsAt_cons.mpr hends⟩
  · rintro ⟨rfl, hescapes, hends⟩
    induction run generalizing escaped with
    | nil =>
        rcases hends with rfl | ⟨hhead, hescaped⟩
        · rfl
        · obtain ⟨more, rfl⟩ := List.head?_eq_some_iff.mp hhead
          obtain rfl : escaped = false := hescaped
          exact cutText_bracket more
    | cons c rest ih =>
        obtain ⟨hc, hrest⟩ := escapes_cons.mp hescapes
        rw [List.cons_append, cutText_cons hc, ih hrest (endsAt_cons.mp hends)]

/-- The second text is the first with each `\<` turned into `<`. -/
inductive Unescaped : Text → Text → Prop
  | nil : Unescaped [] []
  | bracket {t shown : Text} : Unescaped t shown → Unescaped ('\\' :: '<' :: t) ('<' :: shown)
  | char {c : Char} {t shown : Text} : ¬(c = '\\' ∧ t.head? = some '<') → Unescaped t shown →
      Unescaped (c :: t) (c :: shown)

theorem unescaped_unescape (t : Text) : Unescaped t (unescape t) := by
  induction t with
  | nil => exact .nil
  | cons c rest ih =>
      rw [unescape]
      by_cases h : c = '\\' ∧ rest.head? = some '<'
      · rw [if_pos h]
        obtain ⟨rfl, hhead⟩ := h
        obtain ⟨more, rfl⟩ := List.head?_eq_some_iff.mp hhead
        have hopen : unescape ('<' :: more) = '<' :: unescape more :=
          if_neg fun e => absurd e.1 (by decide)
        rw [hopen] at ih ⊢
        cases ih with
        | char _ hrest => exact .bracket hrest
      · rw [if_neg h]
        exact .char h ih

/-! ## Pieces -/

/-- The piece of a token, in front of a text. -/
inductive IsPiece : Token → Text → Prop
  | tag {content behind : Text} {tok : Token} : tok.raw = '<' :: (content ++ ['>']) →
      Encloses Quoting.outside.past content → ofContent? content = some tok → IsPiece tok behind
  | bracket {behind : Text} : ¬StartsTag behind → IsPiece (.text ['<']) behind
  | run {run behind : Text} : run ≠ [] → Escapes false run → EndsAt false run behind →
      IsPiece (.text run) behind

/-- Every token is the piece in front of the pieces behind it. -/
inductive IsPartition : List Token → Prop
  | nil : IsPartition []
  | cons {tok : Token} {toks : List Token} : IsPiece tok (toks.flatMap raw) →
      IsPartition toks → IsPartition (tok :: toks)

theorem isPiece_first (c : Char) (rest : Text) : IsPiece (first c rest).1 (first c rest).2 := by
  by_cases hc : c = '<'
  · subst hc
    cases htag : tag? rest with
    | none =>
        rw [first_bracket htag]
        exact .bracket fun h => startsTag_iff.mp h htag
    | some found =>
        obtain ⟨tok, behind⟩ := found
        obtain ⟨content, -, hencloses, hmade⟩ := tag?_eq_some_iff.mp htag
        rw [first_tag htag]
        exact .tag (raw_of_ofContent? hmade) hencloses hmade
  · have hne := raw_first_ne_nil c rest
    obtain ⟨-, hescapes, hends⟩ := cutText_eq_iff.mp (Prod.eta (cutText false (c :: rest))).symm
    rw [first_text hc] at hne ⊢
    exact .run hne hescapes hends

/-- A piece is found in front of what follows it. -/
theorem IsPiece.first_eq {tok : Token} {behind : Text} (h : IsPiece tok behind) :
    ∃ c rest, tok.raw ++ behind = c :: rest ∧ first c rest = (tok, behind) := by
  cases h with
  | tag hraw hencloses hmade =>
      refine ⟨'<', _, ?_, first_tag (tag?_eq_some_iff.mpr ⟨_, rfl, hencloses, hmade⟩)⟩
      rw [hraw, List.cons_append, List.append_assoc]
      rfl
  | bracket hno =>
      have hnone : tag? behind = none := by
        by_contra h
        exact hno (startsTag_iff.mpr h)
      exact ⟨'<', behind, rfl, first_bracket hnone⟩
  | @run run _ hne hescapes hends =>
      obtain ⟨c, rest, rfl⟩ := List.exists_cons_of_ne_nil hne
      have hc : c ≠ '<' := fun e => (escapes_cons.mp hescapes).1 ⟨e, rfl⟩
      refine ⟨c, rest ++ behind, rfl, ?_⟩
      rw [first_text hc, ← List.cons_append, cutText_eq_iff.mpr ⟨rfl, hescapes, hends⟩]

theorem isPartition_ofText (t : Text) : IsPartition (ofText t) := by
  induction t using ofText.induct with
  | case1 =>
      rw [ofText]
      exact .nil
  | case2 c rest ih =>
      rw [ofText]
      refine .cons ?_ ih
      rw [flatMap_raw_ofText]
      exact isPiece_first c rest

theorem IsPartition.eq_ofText {toks : List Token} (h : IsPartition toks) :
    toks = ofText (toks.flatMap raw) := by
  induction h with
  | nil =>
      rw [List.flatMap_nil, ofText]
  | @cons tok toks hpiece _ ih =>
      obtain ⟨c, rest, he, hfirst⟩ := hpiece.first_eq
      rw [List.flatMap_cons, he, ofText, hfirst, ← ih]

theorem IsPartition.isPiece {toks : List Token} (h : IsPartition toks) {tok : Token}
    (hmem : tok ∈ toks) : ∃ behind, IsPiece tok behind := by
  induction h with
  | nil => cases hmem
  | cons hpiece _ ih =>
      rcases List.mem_cons.mp hmem with rfl | hmem
      · exact ⟨_, hpiece⟩
      · exact ih hmem

/-- A text is cut into pieces in one way, which gives its tokens. -/
theorem eq_ofText_iff {t : Text} {toks : List Token} :
    toks = ofText t ↔ toks.flatMap raw = t ∧ IsPartition toks := by
  constructor
  · rintro rfl
    exact ⟨flatMap_raw_ofText t, isPartition_ofText t⟩
  · rintro ⟨rfl, h⟩
    exact h.eq_ofText

theorem length_ofText_le (t : Text) : (ofText t).length ≤ t.length := by
  have hpieces : ∀ n ∈ (ofText t).map fun tok => tok.raw.length, 1 ≤ n := by
    intro n hn
    obtain ⟨tok, htok, rfl⟩ := List.mem_map.mp hn
    exact List.length_pos_iff.mpr (raw_ne_nil_of_mem_ofText htok)
  have hle := List.length_le_sum_of_one_le _ hpieces
  rwa [List.length_map, ← List.length_flatMap, flatMap_raw_ofText] at hle

/-- The tokens of a text are the only pieces that it can be cut into.  None of them is empty,
and there are at most as many as the text has characters.  A piece of text reads as the piece
with each `\<` turned into `<`, and reading octet by octet finds the same pieces. -/
theorem ofText_partition (t : Text) :
    (∀ toks, toks = ofText t ↔ toks.flatMap raw = t ∧ IsPartition toks)
      ∧ (∀ tok ∈ ofText t, tok.raw ≠ []) ∧ (ofText t).length ≤ t.length
      ∧ (∀ run, .text run ∈ ofText t → Unescaped run (unescape run)
          ∧ unescape (Text.octets run) = Text.octets (unescape run))
      ∧ ReadFrom (Text.octets t) (ofText t) :=
  ⟨fun _ => eq_ofText_iff, fun _ => raw_ne_nil_of_mem_ofText, length_ofText_le t,
    fun run _ => ⟨unescaped_unescape run, unescape_octets run⟩, readFrom_octets t⟩

/-- Behind a `\` a character may have any number of octets; a quote that does not end keeps a
`<` from being a tag. -/
example : ofText "<a:'\\é'>\\<é<b:'>".toList
    = [.opening ⟨"<a:'\\é'>".toList, ['a'], ["\\é".toList], false⟩, .text "\\<é".toList,
        .text ['<'], .text "b:'>".toList] := by
  decide +kernel

end Token

end StyledChat
