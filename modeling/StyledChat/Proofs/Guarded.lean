/-
What players may not say, said as text.

The styling vocabulary is the whole one on texts whose other tags are escaped:
reading a text with the styling tags alone builds the tree that the whole vocabulary
builds once a `\` is put before every `<` of every opening tag that is refused
(`parse_guarded`).  The two readings have the same draft behind every token, since an
escaped tag is one stretch of text.

The escapes must not change what any other `<` starts.  A scanner that meets one is
between quotes, where a `\` before a `<` changes nothing, or has already found that
there is no tag (`Guards.cutTag?`); and no name has a `<` in it (`Guards.isName_eq`).
-/
import Mathlib.Data.List.Forall2
import StyledChat.Proofs.Stretches

namespace StyledChat

/-- Whether the tag means something that is not in the styling vocabulary. -/
def Tagged.isRefused (tag : Tagged) : Bool :=
  (Tag.resolve? tag).any fun meaning => !Vocabulary.restricted.allows meaning.group

theorem Tagged.isRefused_iff {tag : Tagged} : tag.isRefused ↔ ∃ meaning,
    Tag.resolve? tag = some meaning ∧ ¬Vocabulary.restricted.allows meaning.group := by
  rw [Tagged.isRefused]
  cases Tag.resolve? tag with
  | none => simp
  | some meaning => simp

/-- The piece a token was read from, with every `<` escaped if it is a refused tag. -/
def Token.guarded : Token → Text
  | .opening tag => if tag.isRefused then Text.escape tag.raw else tag.raw
  | .text raw => raw
  | .closing tag => tag.raw

/-- The text with every `<` escaped in its refused tags. -/
def Text.guarded (t : Text) : Text := (Token.ofText t).flatMap Token.guarded

/-! ## Escapes before some `<` -/

/-- The second text is the first with a `\` put before some of its `<`. -/
inductive Guards : Text → Text → Prop
  | nil : Guards [] []
  | kept (c : Char) {t t' : Text} : Guards t t' → Guards (c :: t) (c :: t')
  | guard {t t' : Text} : Guards t t' → Guards ('<' :: t) ('\\' :: '<' :: t')

namespace Guards

theorem refl : ∀ t : Text, Guards t t
  | [] => .nil
  | c :: rest => .kept c (refl rest)

theorem append {t t' u u' : Text} (h : Guards t t') (hu : Guards u u') :
    Guards (t ++ u) (t' ++ u') := by
  induction h with
  | nil => exact hu
  | kept c _ ih => exact .kept c ih
  | guard _ ih => exact .guard ih

theorem escape (t : Text) : Guards t (Text.escape t) := by
  induction t with
  | nil => exact .nil
  | cons c rest ih =>
      rw [Text.escape_cons]
      by_cases h : c = '<'
      · rw [if_pos h, h]
        exact .guard ih
      · rw [if_neg h]
        exact .kept c ih

/-- Where an escape was put in, both texts have the `<`. -/
theorem eq_or_mem {t t' : Text} (h : Guards t t') : t = t' ∨ '<' ∈ t ∧ '<' ∈ t' := by
  induction h with
  | nil => exact Or.inl rfl
  | kept c _ ih =>
      rcases ih with rfl | ⟨hmem, hmem'⟩
      · exact Or.inl rfl
      · exact Or.inr ⟨List.mem_cons_of_mem c hmem, List.mem_cons_of_mem c hmem'⟩
  | guard _ _ =>
      exact Or.inr ⟨List.mem_cons_self, List.mem_cons_of_mem _ List.mem_cons_self⟩

end Guards

/-! ## The end of a tag -/

theorem Quoting.step_outside_backslash : Quoting.outside.step '\\' = .outside := by decide

/-- Between quotes a `<` is passed alike with and without a `\` before it. -/
theorem Quoting.step_guard {place : Quoting} (h : place ≠ .outside) :
    place.step '\\' ≠ .outside ∧ (place.step '\\').step '<' = place.step '<' := by
  match place with
  | .outside => exact absurd rfl h
  | .inside .single | .inside .double | .escaped .single | .escaped .double => decide

namespace Token

/-- What follows a tag has no part in where it ends. -/
theorem cutTag?_append : ∀ {t : Text} {place : Quoting} {content behind : Text},
    cutTag? place t = some (content, behind) →
      ∀ u : Text, cutTag? place (content ++ '>' :: u) = some (content, u)
  | c :: rest, place, content, behind, h, u => by
      unfold cutTag? at h
      split at h
      · next hclose =>
          obtain ⟨rfl, rfl⟩ := Prod.mk.inj (Option.some.inj h)
          exact if_pos ⟨hclose.1, rfl⟩
      · next hclose =>
          split at h
          · cases h
          · next hopen =>
              obtain ⟨⟨inner, b⟩, hcut, he⟩ := Option.map_eq_some_iff.mp h
              obtain ⟨rfl, rfl⟩ := Prod.mk.inj he
              rw [List.cons_append, cutTag?, if_neg hclose, if_neg hopen, cutTag?_append hcut u]
              rfl

/-- The tag behind a `<` is the same whatever follows it. -/
theorem tag?_append {t behind : Text} {tok : Token} (h : tag? t = some (tok, behind)) (u : Text) :
    ∃ content, tok.raw = '<' :: (content ++ ['>']) ∧ t = content ++ '>' :: behind
      ∧ tag? (content ++ '>' :: u) = some (tok, u) := by
  obtain ⟨content, hcut, hmade⟩ := cutTag?_of_tag? h
  refine ⟨content, raw_of_ofContent? hmade, eq_of_cutTag? hcut, ?_⟩
  rw [tag?, cutTag?_append hcut u]
  exact congrArg (Option.map _) hmade

end Token

namespace Guards

/-- Escapes leave a `<` that starts no tag as it is, and lengthen the content of
one that does. -/
theorem cutTag? {t t' : Text} (h : Guards t t') : ∀ place : Quoting,
    Option.Rel (fun a b => Guards a.1 b.1) (Token.cutTag? place t) (Token.cutTag? place t') := by
  have hmap : ∀ {a b : Option (Text × Text)} (c : Char), Option.Rel (fun a b => Guards a.1 b.1) a b →
      Option.Rel (fun a b : Text × Text => Guards a.1 b.1) (a.map fun a => (c :: a.1, a.2))
        (b.map fun b => (c :: b.1, b.2)) := by
    intro a b c hab
    cases hab with
    | none => exact .none
    | some hin => exact .some (.kept c hin)
  induction h with
  | nil => exact fun _ => .none
  | kept c _ ih =>
      intro place
      unfold Token.cutTag?
      split
      · exact .some .nil
      · split
        · exact .none
        · exact hmap c (ih _)
  | guard _ ih =>
      intro place
      by_cases hplace : place = .outside
      · rw [hplace, Token.cutTag?_outside_bracket, Token.cutTag?_outside (by decide) (by decide),
          Quoting.step_outside_backslash, Token.cutTag?_outside_bracket]
        exact .none
      · obtain ⟨hquoted, hstep⟩ := Quoting.step_guard hplace
        rw [Token.cutTag?_quoted hplace, Token.cutTag?_quoted hplace,
          Token.cutTag?_quoted hquoted, hstep]
        have hrest := ih (place.step '<')
        generalize Token.cutTag? (place.step '<') _ = cut at hrest ⊢
        generalize Token.cutTag? (place.step '<') _ = cut' at hrest ⊢
        cases hrest with
        | none => exact .none
        | some hin => exact .some (.guard hin)

/-! ## The arguments of a tag -/

theorem consArg {l l' : List Text} (h : List.Forall₂ Guards l l') (c : Char) :
    List.Forall₂ Guards (Token.consArg c l) (Token.consArg c l') := by
  cases h with
  | nil => exact .cons (.kept c .nil) .nil
  | cons harg hmore => exact .cons (.kept c harg) hmore

theorem consArg_guard {l l' : List Text} (h : List.Forall₂ Guards l l') :
    List.Forall₂ Guards (Token.consArg '<' l)
      (Token.consArg '\\' (Token.consArg '<' l')) := by
  cases h with
  | nil => exact .cons (.guard .nil) .nil
  | cons harg hmore => exact .cons (.guard harg) hmore

/-- Escapes are put into the arguments, wherever they are cut. -/
theorem splitAtColons {t t' : Text} (h : Guards t t') : ∀ (place : Quoting) (fresh : Bool),
    List.Forall₂ Guards (Token.splitAtColons place fresh t)
      (Token.splitAtColons place fresh t') := by
  induction h with
  | nil =>
      intro place _
      cases place <;> exact .cons (refl _) .nil
  | kept c _ ih =>
      intro place fresh
      unfold Token.splitAtColons
      cases place with
      | outside =>
          dsimp only
          split
          · exact ih _ _
          · split
            · exact .cons .nil (ih _ _)
            · exact consArg (ih _ _) c
      | inside q =>
          dsimp only
          split
          · exact ih _ _
          · split
            · exact ih _ _
            · exact consArg (ih _ _) c
      | escaped q =>
          dsimp only
          split
          · exact consArg (ih _ _) c
          · exact consArg (consArg (ih _ _) c) '\\'
  | @guard t t' _ ih =>
      intro place fresh
      match place with
      | .outside => exact consArg_guard (ih .outside false)
      | .inside .single => exact consArg_guard (ih (.inside .single) false)
      | .inside .double => exact consArg_guard (ih (.inside .double) false)
      | .escaped .single => exact consArg (consArg (ih (.inside .single) false) '<') '\\'
      | .escaped .double => exact consArg (consArg (ih (.inside .double) false) '<') '\\'

theorem isName_eq {t t' : Text} (h : Guards t t') : Token.isName t = Token.isName t' := by
  have hbracket : ∀ {u : Text}, '<' ∈ u → Token.isName u = false := by
    intro u hu
    cases u with
    | nil => cases hu
    | cons c rest =>
        rcases List.mem_cons.mp hu with rfl | hu
        · rfl
        · have hrest : rest.all Token.isNameRest = false :=
            List.all_eq_false.mpr ⟨'<', hu, by decide⟩
          rw [Token.isName, hrest, Bool.and_false]
  rcases h.eq_or_mem with rfl | ⟨hmem, hmem'⟩
  · rfl
  · rw [hbracket hmem, hbracket hmem']

theorem lead {t t' : Text} (h : Guards t t') : Guards (Token.lead t).2.2 (Token.lead t').2.2 := by
  cases h with
  | nil => exact .nil
  | guard h => exact .guard h
  | kept c h =>
      by_cases hclose : c = '/'
      · rw [hclose]
        exact h
      · by_cases hnegate : c = '!'
        · rw [hnegate]
          exact h
        · rw [Token.lead_cons hclose hnegate, Token.lead_cons hclose hnegate]
          exact .kept c h

theorem ofContent? {t t' : Text} (h : Guards t t') (hnone : Token.ofContent? t = none) :
    Token.ofContent? t' = none := by
  have hparts := h.lead.splitAtColons .outside true
  rw [Token.ofContent?_eq] at hnone ⊢
  generalize Token.splitAtColons .outside true (Token.lead t).2.2 = parts at hparts hnone
  generalize Token.splitAtColons .outside true (Token.lead t').2.2 = parts' at hparts ⊢
  cases hparts with
  | nil => rfl
  | @cons written written' args args' hname _ =>
      have hwritten : Token.isName written = false := by
        by_cases hw : Token.isName written
        · rw [Token.ofParts?, if_pos hw] at hnone
          cases hnone
        · exact Bool.eq_false_iff.mpr hw
      rw [Token.ofParts?, ← hname.isName_eq, hwritten]
      rfl

/-- A `<` that starts no tag starts none behind which `<` were escaped. -/
theorem tag? {t t' : Text} (h : Guards t t') (hnone : Token.tag? t = none) :
    Token.tag? t' = none := by
  have hcut := h.cutTag? .outside
  rw [Token.tag?] at hnone ⊢
  generalize Token.cutTag? .outside t = cut at hcut hnone
  generalize Token.cutTag? .outside t' = cut' at hcut
  cases hcut with
  | none => rfl
  | some hin =>
      have hcontent := hin.ofContent? (Option.map_eq_none_iff.mp hnone)
      exact Option.map_eq_none_iff.mpr hcontent

end Guards

/-! ## One token -/

theorem Token.guards_guarded (tok : Token) : Guards tok.raw tok.guarded := by
  cases tok with
  | text raw => exact .refl raw
  | closing tag => exact .refl tag.raw
  | opening tag =>
      show Guards tag.raw (if tag.isRefused then _ else _)
      split
      · exact .escape tag.raw
      · exact .refl tag.raw

theorem Text.guards_guarded (t : Text) : Guards t (Text.guarded t) := by
  have hall : ∀ tokens : List Token,
      Guards (tokens.flatMap Token.raw) (tokens.flatMap Token.guarded) := by
    intro tokens
    induction tokens with
    | nil => exact .nil
    | cons tok rest ih =>
        rw [List.flatMap_cons, List.flatMap_cons]
        exact tok.guards_guarded.append ih
  have h := hall (Token.ofText t)
  rwa [Token.flatMap_raw_ofText] at h

theorem Text.guarded_nil : Text.guarded [] = [] := by
  rw [Text.guarded, Token.ofText]
  rfl

theorem Text.guarded_cons (c : Char) (rest : Text) : Text.guarded (c :: rest)
    = (Token.first c rest).1.guarded ++ Text.guarded (Token.first c rest).2 := by
  rw [Text.guarded, Token.ofText, List.flatMap_cons]
  rfl

/-! ## Both readings -/

namespace Draft

variable {read read' : Text → Component}

theorem allows_trusted (g : TagGroup) : Vocabulary.trusted.allows g = true := by
  cases g <;> rfl

/-- A tag that is not refused means the same in both vocabularies, and has no markup
to read. -/
theorem step_eq_of_not_refused {tok : Token} (h : ∀ tag, tok = .opening tag → ¬tag.isRefused)
    (d : Draft) : d.step .restricted read tok = d.step .trusted read' tok := by
  cases tok with
  | text raw => rfl
  | closing tag => rfl
  | opening tag =>
      have htag := h tag rfl
      cases hm : Tag.resolve? tag with
      | none =>
          have hnone : ∀ v, allowedTag? v tag = none := fun v => by rw [allowedTag?, hm]; rfl
          rw [step_refused (hnone _), step_refused (hnone _)]
      | some meaning =>
          have hallowed : Vocabulary.restricted.allows meaning.group :=
            Decidable.not_not.mp fun e => htag (Tagged.isRefused_iff.mpr ⟨meaning, hm, e⟩)
          rw [step_opened (allowedTag?_eq_some_iff.mpr ⟨hm, hallowed⟩),
            step_opened (allowedTag?_eq_some_iff.mpr ⟨hm, allows_trusted _⟩)]
          refine opened_congr (Tag.style_congr fun markup hhover => ?_) d tag.name
          rw [hhover] at hallowed
          exact absurd hallowed Bool.false_ne_true

theorem step_of_refused {tag : Tagged} (h : tag.isRefused) (d : Draft) :
    d.step .restricted read (.opening tag) = d.text tag.raw := by
  obtain ⟨meaning, hmeaning, hgroup⟩ := Tagged.isRefused_iff.mp h
  refine step_refused (Option.eq_none_iff_forall_ne_some.mpr fun other hother => hgroup ?_)
  obtain ⟨hresolve, hallowed⟩ := allowedTag?_eq_some_iff.mp hother
  rwa [Option.some.inj (hmeaning.symm.trans hresolve)]

/-- An escaped tag is read as the whole vocabulary reads it where it is allowed, and as
text where it is refused. -/
theorem readOn_guarded_tag {rest behind : Text} {tok : Token}
    (htag : Token.tag? rest = some (tok, behind)) (d : Draft) (u : Text) :
    d.readOn .trusted read' (tok.guarded ++ u)
      = (d.step .restricted read tok).readOn .trusted read' u := by
  obtain ⟨content, hraw, -, hsame⟩ := Token.tag?_append htag u
  by_cases hrefused : ∃ tag, tok = .opening tag ∧ tag.isRefused
  · obtain ⟨tag, rfl, hrefused⟩ := hrefused
    have hguarded : Token.guarded (.opening tag) = Text.escape tag.raw := if_pos hrefused
    have hlast : tag.raw.getLast? ≠ some '\\' := by
      rw [show tag.raw = _ from hraw, List.getLast?_cons, List.getLast?_concat]
      decide
    rw [hguarded, readOn_escape d hlast, step_of_refused hrefused]
  · have hguarded : tok.guarded = tok.raw := by
      cases tok with
      | text raw => rfl
      | closing tag => rfl
      | opening tag => exact if_neg fun h => hrefused ⟨tag, rfl, h⟩
    rw [hguarded, hraw, List.cons_append, List.append_assoc]
    refine (readOn_tag d hsame).trans ?_
    rw [step_eq_of_not_refused fun tag e h => hrefused ⟨tag, e, h⟩]

/-- Both readings have the same draft in the end, and so behind every token. -/
theorem readOn_guarded (t : Text) : ∀ d : Draft,
    d.readOn .restricted read t = d.readOn .trusted read' (Text.guarded t) := by
  induction t using Token.ofText.induct with
  | case1 =>
      intro d
      rw [readOn_nil, Text.guarded_nil, readOn_nil]
  | case2 c rest ih =>
      intro d
      rw [Text.guarded_cons]
      by_cases hc : c = '<'
      · subst hc
        cases htag : Token.tag? rest with
        | none =>
            have hnone := (Text.guards_guarded rest).tag? htag
            rw [Token.first_bracket htag] at ih ⊢
            rw [readOn_bracket d htag]
            exact (ih _).trans (readOn_bracket d hnone).symm
        | some found =>
            obtain ⟨tok, behind⟩ := found
            rw [Token.first_tag htag] at ih ⊢
            rw [readOn_tag d htag, readOn_guarded_tag htag]
            exact ih _
      · rw [Token.first_text hc] at ih ⊢
        rw [readOn_text d hc, ih]
        show _ = d.readOn _ _ ((Token.cutText false (c :: rest)).1 ++ _)
        by_cases hbehind : (Token.cutText false (c :: rest)).2 = []
        · -- the stretch is the whole text, and may end in a `\`
          have hwhole := Token.append_cutText false (c :: rest)
          rw [hbehind, List.append_nil] at hwhole
          rw [hbehind, Text.guarded_nil, List.append_nil, hwhole, readOn_text d hc, hbehind, hwhole]
        · exact (readOn_stretch d (Token.isStretch_cutText _ _)
            (Token.getLast?_cutText hbehind) _).symm

end Draft

theorem Text.guarded_eq_self {t : Text}
    (h : ∀ tag, Token.opening tag ∈ Token.ofText t → ¬tag.isRefused) : Text.guarded t = t := by
  have hraw : ∀ tok ∈ Token.ofText t, tok.guarded = tok.raw := by
    intro tok htok
    cases tok with
    | text raw => rfl
    | closing tag => rfl
    | opening tag => exact if_neg (h tag htok)
  rw [Text.guarded, List.flatMap_congr hraw, Token.flatMap_raw_ofText]

/-- Reading with the styling tags alone is reading with the whole vocabulary what is
left when every `<` of the refused tags is escaped.  So the two vocabularies read a text
alike when each of its tags means some styling or nothing at all. -/
theorem parse_guarded (t : Text) :
    parse .restricted t = parse .trusted (Text.guarded t)
      ∧ ((∀ tag, Token.opening tag ∈ Token.ofText t → ∀ meaning, Tag.resolve? tag = some meaning →
            meaning.group ∈ TagGroup.styling) →
          parse .restricted t = parse .trusted t) := by
  have hsame : parse .restricted t = parse .trusted (Text.guarded t) := by
    rw [parse_eq_readOn, parse_eq_readOn, Draft.readOn_guarded]
  refine ⟨hsame, fun h => ?_⟩
  rw [hsame, Text.guarded_eq_self]
  intro tag htag hrefused
  obtain ⟨meaning, hmeaning, hgroup⟩ := Tagged.isRefused_iff.mp hrefused
  exact hgroup (List.contains_iff_mem.mpr (h tag htag meaning hmeaning))

end StyledChat
