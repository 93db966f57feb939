/-
Codes without tags.

The codes of a text can be obeyed from left to right with no tag in between: a code
changes the style of everything behind it, and every other character is shown in the
style reached there (`LegacyCode.styled`).  Turning the codes into tags and reading
these shows the same (`spans_parse_toTags`).

The tags of codes are never closed, so the tree grows deeper with every code; what it
shows is followed on the draft, whose open tags hand down the style reached so far
(`Draft.surroundings`).  Each code opens one tag that hands down the style the code asks
for, or ends them all (`Draft.Shows.opened`).
-/
import StyledChat.Proofs.MadeTags
import StyledChat.Proofs.Walk

namespace StyledChat

namespace LegacyCode

/-! ## The effects of codes -/

/-- What a code does to the style of the text behind it. -/
inductive Effect where
  | color (c : Color)
  /-- Switches a decoration on. -/
  | decoration (d : Decoration)
  /-- Drops every style. -/
  | reset

/-- The style behind a code. -/
def Effect.apply (s : Style) : Effect → Style
  | color c => { s with color := some c }
  | decoration d => s.decorate d true
  | reset => Style.empty

/-- The one-character codes and their effects. -/
def effects : List (Char × Effect) :=
  ("0123456789abcdef".toList.zip NamedColor.all).map (fun e => (e.1, .color (.named e.2)))
    ++ [('l', .decoration .bold), ('o', .decoration .italic), ('n', .decoration .underlined),
      ('m', .decoration .strikethrough), ('k', .decoration .obfuscated), ('r', .reset)]

/-- The effect of the code that a text behind an `&` starts with, and what follows the
code: `#` and six hexadecimal digits, or one character. -/
def effect? : Text → Option (Effect × Text)
  | [] => none
  | c :: rest =>
    if c = '#' then (Rgb.ofHex? (rest.take 6)).map fun rgb => (.color (.rgb rgb), rest.drop 6)
    else (effects.lookup c).map fun effect => (effect, rest)

theorem length_effect? {rest behind : Text} {effect : Effect}
    (h : effect? rest = some (effect, behind)) : behind.length ≤ rest.length := by
  unfold effect? at h
  split at h
  · cases h
  · next c rest =>
      split at h
      all_goals
        obtain ⟨_, -, he⟩ := Option.map_eq_some_iff.mp h
        obtain ⟨-, rfl⟩ := Prod.mk.inj he
      · rw [List.length_drop, List.length_cons]
        omega
      · exact Nat.le_succ _

/-- The characters of a text with codes that begins in a style, each in the style that
the codes before it make.  An `&` that starts no code is a character like any other. -/
def styled (s : Style) : Text → List (Char × Style)
  | [] => []
  | c :: rest =>
    if c = '&' then
      match _h : effect? rest with
      | some (effect, behind) => styled (effect.apply s) behind
      | none => (c, s) :: styled s rest
    else (c, s) :: styled s rest
termination_by t => t.length
decreasing_by
  · have := length_effect? _h
    rw [List.length_cons]
    omega
  · exact Nat.lt_succ_self _
  · exact Nat.lt_succ_self _

theorem styled_nil (s : Style) : styled s [] = [] := by rw [styled]

theorem styled_other {c : Char} (h : c ≠ '&') (s : Style) (rest : Text) :
    styled s (c :: rest) = (c, s) :: styled s rest := by
  rw [styled, if_neg h]

theorem styled_kept {rest : Text} (h : effect? rest = none) (s : Style) :
    styled s ('&' :: rest) = ('&', s) :: styled s rest := by
  rw [styled, if_pos rfl]
  split
  · next h' => cases h.symm.trans h'
  · rfl

theorem styled_code {rest behind : Text} {effect : Effect}
    (h : effect? rest = some (effect, behind)) (s : Style) :
    styled s ('&' :: rest) = styled (effect.apply s) behind := by
  rw [styled, if_pos rfl]
  split
  · next h' =>
      obtain ⟨rfl, rfl⟩ := Prod.mk.inj (Option.some.inj (h.symm.trans h'))
      rfl
  · next h' => cases h.symm.trans h'

/-! ### The same codes are turned into tags -/

theorem effect?_hex {digits : Text} (h : IsHexCode digits) {rgb : Rgb}
    (hrgb : Rgb.ofHex? digits = some rgb) (behind : Text) :
    effect? ('#' :: (digits ++ behind)) = some (.color (.rgb rgb), behind) := by
  rw [effect?, if_pos rfl, List.take_left' h.length, List.drop_left' h.length, hrgb]
  rfl

theorem effect?_code {code : Char} (hcode : code ≠ '#') (behind : Text) :
    effect? (code :: behind) = (effects.lookup code).map fun effect => (effect, behind) :=
  if_neg hcode

theorem lookup_effects_of_tag? {code : Char} (h : tag? code = none) :
    effects.lookup code = none := by
  have hsame : effects.map Prod.fst = table.map Prod.fst := by decide
  rw [List.lookup_eq_none_iff]
  rw [tag?, List.lookup_eq_none_iff] at h
  intro e he
  obtain ⟨e', he', heq⟩ := List.mem_map.mp (hsame ▸ List.mem_map_of_mem he)
  exact heq ▸ h e' he'

theorem effect?_kept {rest : Text} (h : KeepsAmp rest) : effect? rest = none := by
  cases rest with
  | nil => rfl
  | cons c rest =>
      by_cases hc : c = '#'
      · have hnone : Rgb.ofHex? (rest.take 6) = none := by
          by_contra hsome
          obtain ⟨rgb, hrgb⟩ := Option.ne_none_iff_exists'.mp hsome
          have hstarts := (isHexCode_of_ofHex? hrgb).startsWithHex (rest.drop 6)
          rw [List.take_append_drop, ← hc] at hstarts
          exact h.1 hstarts
        rw [effect?, if_pos hc, hnone]
        rfl
      · rw [effect?_code hc, lookup_effects_of_tag? (h.2 c rfl)]
        rfl

/-- The tag that means what a code does. -/
def Effect.tag : Effect → Tag
  | color c => .color c
  | decoration d => .decoration d true
  | reset => .reset

theorem Effect.allows_tag (v : Vocabulary) (effect : Effect) : v.allows effect.tag.group := by
  cases v <;> cases effect <;> rfl

/-- Whether a tag, with nothing behind it, is read as what a code does. -/
def Effect.isReadFrom (tag : Text) (effect : Effect) : Bool :=
  match Token.tag? tag.tail with
  | some (.opening tagged, []) => Tag.resolve? tagged == some effect.tag
  | _ => false

/-- The tag of a one-character code means what the code does, whatever follows it. -/
theorem exists_tagged {code : Char} {tag : Text} (h : tag? code = some tag) :
    ∃ effect tagged, effects.lookup code = some effect ∧ Tag.resolve? tagged = some effect.tag
      ∧ ∀ u : Text, ∃ rest, tag ++ u = '<' :: rest
          ∧ Token.tag? rest = some (.opening tagged, u) := by
  have htable : ∀ e ∈ table, (effects.lookup e.1).any (·.isReadFrom e.2) := by decide +kernel
  obtain ⟨⟨content, rfl, -⟩, -⟩ := (MadeOfCode.named h).bracketed
  have hread := htable _ (mem_table_of_tag? h)
  cases heffect : effects.lookup code with
  | none =>
      rw [heffect] at hread
      cases hread
  | some effect =>
      rw [heffect, Option.any_some, Effect.isReadFrom] at hread
      split at hread
      · next tagged htag =>
          refine ⟨effect, tagged, rfl, beq_iff_eq.mp hread, fun u => ?_⟩
          obtain ⟨content', -, he, hsame⟩ := Token.tag?_append htag u
          obtain rfl := List.append_cancel_right he
          exact ⟨content ++ '>' :: u, by simp, hsame⟩
      · cases hread

end LegacyCode

/-! ## What a draft shows -/

theorem Text.painted_none (s : Style) (t : Text) : Text.painted s none t = t.map (·, s) := by
  rw [Text.painted]
  simp only [Option.map_none, Style.paintedBy_none]
  exact mapIdx_const _ t

namespace Draft

/-- The style that open tags hand down. -/
def surroundings : List OpenTag → Style
  | [] => Style.empty
  | tag :: outer => tag.style.resolve (surroundings outer)

/-- The characters shown before what the innermost open tag holds. -/
def shownBefore : List OpenTag → List (Char × Style)
  | [] => []
  | tag :: outer => shownBefore outer ++ shownAll (surroundings outer) none tag.before

/-- The characters a draft shows, if no fill is open. -/
def shown (d : Draft) : List (Char × Style) :=
  shownBefore d.openTags ++ shownAll (surroundings d.openTags) none d.here

theorem fill_surroundings : ∀ tags : List OpenTag, (surroundings tags).fill = none
  | [] => rfl
  | _ :: _ => Style.fill_resolve _ _

theorem shownAll_concat_leaf {s : Style} (hs : s.fill = none) (children : List Component)
    (t : Text) : shownAll s none (children ++ [Component.leaf t])
      = shownAll s none children ++ t.map (·, s) := by
  have hleaf : shownAll s none [Component.leaf t] = t.map (·, s) := by
    rw [shownAll_cons, Component.shown_leaf hs, Text.painted_none]
    exact List.append_nil _
  rw [shownAll_append, Option.map_none, hleaf]

theorem shownAll_addText {s : Style} (hs : s.fill = none) (children : List Component) (t : Text) :
    shownAll s none (addText children t) = shownAll s none children ++ t.map (·, s) := by
  by_cases ht : t = []
  · rw [ht]
    exact (List.append_nil _).symm
  · rcases addText_cases children ht with ⟨before, text, hc, ha⟩ | ⟨-, ha⟩
    · rw [ha, hc, shownAll_concat_leaf hs, shownAll_concat_leaf hs, List.map_append,
        List.append_assoc]
    · rw [ha, shownAll_concat_leaf hs]

/-- A tag without a fill becomes a node that shows what the tag held. -/
theorem shown_wrap {tag : OpenTag} (h : tag.style.fill = none) (here : List Component)
    (outer : List OpenTag) : shown ⟨tag.wrap here, outer⟩ = shown ⟨here, tag :: outer⟩ := by
  have hnode : shownAll (surroundings outer) none [Component.node tag.style here]
      = shownAll (tag.style.resolve (surroundings outer)) none here := by
    rw [shownAll_cons, Component.node, Component.shown_mk, Style.placeIn_of_fill_none h]
    exact List.append_nil _
  rw [shown, OpenTag.wrap, shownAll_append, Option.map_none, hnode, ← List.append_assoc]
  rfl

theorem shown_endAll : ∀ {tags : List OpenTag} {here : List Component},
    (∀ tag ∈ tags, tag.style.fill = none) → shown ⟨endAll here tags, []⟩ = shown ⟨here, tags⟩
  | [], _, _ => rfl
  | tag :: outer, here, h => by
      have houter := fun other hother => h other (List.mem_cons_of_mem tag hother)
      rw [endAll, shown_endAll houter, shown_wrap (h tag List.mem_cons_self)]

/-- The draft shows some characters, and what is added to it stands in a style; no fill
is open. -/
structure Shows (d : Draft) (l : List (Char × Style)) (s : Style) : Prop where
  shown : d.shown = l
  surroundings : Draft.surroundings d.openTags = s
  unfilled : ∀ tag ∈ d.openTags, tag.style.fill = none

namespace Shows

variable {d : Draft} {l : List (Char × Style)} {s : Style}

theorem fill_eq (h : d.Shows l s) : s.fill = none :=
  h.surroundings ▸ fill_surroundings d.openTags

theorem text (h : d.Shows l s) (t : Text) : (d.text t).Shows (l ++ t.map (·, s)) s where
  shown := by
    rw [Draft.shown, Draft.text, shownAll_addText (fill_surroundings _), ← List.append_assoc,
      h.surroundings, ← h.shown, ← h.surroundings]
    rfl
  surroundings := h.surroundings
  unfilled := h.unfilled

theorem openTag (h : d.Shows l s) (name key : Text) (style : Style)
    (hfill : style.fill = none) : (d.openTag name key style).Shows l (style.resolve s) where
  shown := by
    rw [← h.shown]
    exact List.append_nil _
  surroundings := congrArg style.resolve h.surroundings
  unfilled := by
    intro tag htag
    rcases List.mem_cons.mp htag with rfl | htag
    · exact hfill
    · exact h.unfilled tag htag

theorem reset (h : d.Shows l s) : d.reset.Shows l Style.empty where
  shown := (shown_endAll h.unfilled).trans h.shown
  surroundings := rfl
  unfilled := fun _ htag => absurd htag List.not_mem_nil

/-- A tag that means what a code does makes the style that the code makes. -/
theorem opened (h : d.Shows l s) (read : Text → Component) (name : Text)
    (effect : LegacyCode.Effect) : (d.opened read name effect.tag).Shows l (effect.apply s) := by
  have hs := h.fill_eq
  cases effect with
  | reset => exact h.reset
  | color c =>
      have hopen := h.openTag name (Tag.color c).closeKey { color := some c } rfl
      have hstyle : Style.resolve { color := some c } s = { s with color := some c } := by
        cases s
        cases hs
        rfl
      rwa [hstyle] at hopen
  | decoration deco =>
      have hopen := h.openTag name deco.name (Style.empty.decorate deco true) rfl
      have hstyle : (Style.empty.decorate deco true).resolve s = s.decorate deco true := by
        cases s
        cases hs
        cases deco <;> rfl
      rwa [hstyle] at hopen

/-- The tree that is built shows what its draft shows. -/
theorem listing_finish (h : d.Shows l s) : Span.listing d.finish.spans = l := by
  rw [Component.listing_spans_eq_shown, finish, Component.node, Component.shown_mk,
    Style.resolve_empty rfl, ← h.shown, ← shown_endAll h.unfilled]
  rfl

/-- One character that is neither `<` nor `\`. -/
theorem readOn_char (h : d.Shows l s) {c : Char} (hopen : c ≠ '<') (hslash : c ≠ '\\')
    (v : Vocabulary) (read : Text → Component) (u : Text) :
    ∃ d' : Draft, d'.Shows (l ++ [(c, s)]) s ∧ d.readOn v read (c :: u) = d'.readOn v read u := by
  refine ⟨d.text [c], h.text [c], ?_⟩
  have hstretch : Token.IsStretch false [c] :=
    Token.isStretch_of_no_bracket (fun hmem => hopen (List.mem_singleton.mp hmem).symm) false
  have hlast : [c].getLast? ≠ some '\\' := fun e => hslash (Option.some.inj e)
  have hread : Token.unescape [c] = [c] :=
    Token.unescape_of_no_slash fun hmem => hslash (List.mem_singleton.mp hmem).symm
  have hadded : d.readOn v read ([c] ++ u) = (d.text (Token.unescape [c])).readOn v read u :=
    readOn_stretch d hstretch hlast u
  rwa [hread] at hadded

/-- One tag that means what a code does. -/
theorem readOn_effect (h : d.Shows l s) {v : Vocabulary} (effect : LegacyCode.Effect)
    {tagged : Tagged} (hresolve : Tag.resolve? tagged = some effect.tag) {rest u : Text}
    (htag : Token.tag? rest = some (.opening tagged, u)) (read : Text → Component) :
    ∃ d' : Draft, d'.Shows l (effect.apply s)
      ∧ d.readOn v read ('<' :: rest) = d'.readOn v read u := by
  have hallowed : allowedTag? v tagged = some effect.tag :=
    allowedTag?_eq_some_iff.mpr ⟨hresolve, effect.allows_tag v⟩
  refine ⟨_, h.opened read tagged.name effect, ?_⟩
  rw [readOn_tag d htag, step_opened hallowed]

end Shows

/-- Whatever the draft shows, reading `u` on adds what obeying the codes of `t` shows. -/
def ReadsCodes (v : Vocabulary) (read : Text → Component) (u t : Text) : Prop :=
  ∀ (d : Draft) (l : List (Char × Style)) (s : Style), d.Shows l s →
    Span.listing (d.readOn v read u).finish.spans = l ++ LegacyCode.styled s t

namespace ReadsCodes

variable {v : Vocabulary} {read : Text → Component} {u t : Text}

theorem nil : ReadsCodes v read [] [] := by
  intro d l s h
  rw [readOn_nil, LegacyCode.styled_nil, List.append_nil]
  exact h.listing_finish

/-- A character that starts no code. -/
theorem char (h : ReadsCodes v read u t) {c : Char} (hopen : c ≠ '<') (hslash : c ≠ '\\')
    (hstyled : ∀ s, LegacyCode.styled s (c :: t) = (c, s) :: LegacyCode.styled s t) :
    ReadsCodes v read (c :: u) (c :: t) := by
  intro d l s hd
  obtain ⟨d', hd', hread⟩ := hd.readOn_char hopen hslash v read u
  rw [hread, h d' _ s hd', hstyled, List.append_assoc]
  rfl

/-- A code, where a tag is read that means what it does. -/
theorem code {behind rest : Text} (h : ReadsCodes v read u behind) {effect : LegacyCode.Effect}
    {tagged : Tagged} (heffect : LegacyCode.effect? t = some (effect, behind))
    (hresolve : Tag.resolve? tagged = some effect.tag)
    (htag : Token.tag? rest = some (.opening tagged, u)) :
    ReadsCodes v read ('<' :: rest) ('&' :: t) := by
  intro d l s hd
  obtain ⟨d', hd', hread⟩ := hd.readOn_effect (v := v) effect hresolve htag read
  rw [hread, h d' l _ hd', LegacyCode.styled_code heffect]

end ReadsCodes

theorem readsCodes_toTags (v : Vocabulary) (read : Text → Component) {t : Text}
    (hopen : '<' ∉ t) (hslash : '\\' ∉ t) : ReadsCodes v read (LegacyCode.toTags t) t := by
  induction t using LegacyCode.induction with
  | nil =>
      rw [LegacyCode.toTags_nil]
      exact .nil
  | other c rest hc ih =>
      obtain ⟨hopenc, hopen⟩ := List.ne_and_not_mem_of_not_mem_cons hopen
      obtain ⟨hslashc, hslash⟩ := List.ne_and_not_mem_of_not_mem_cons hslash
      rw [LegacyCode.toTags_other hc]
      exact (ih hopen hslash).char hopenc.symm hslashc.symm fun s =>
        LegacyCode.styled_other hc s rest
  | kept rest hkeeps ih =>
      have hrest := ih (List.ne_and_not_mem_of_not_mem_cons hopen).2
        (List.ne_and_not_mem_of_not_mem_cons hslash).2
      rw [LegacyCode.toTags_kept hkeeps]
      exact hrest.char (by decide) (by decide)
        (LegacyCode.styled_kept (LegacyCode.effect?_kept hkeeps))
  | hex digits behind hhex ih =>
      have hbehind := ih (fun hm => hopen (List.mem_append_right ('&' :: '#' :: digits) hm))
        fun hm => hslash (List.mem_append_right ('&' :: '#' :: digits) hm)
      obtain ⟨rgb, tagged, hrgb, -, hresolve, htag⟩ := hhex.exists_tagged
      rw [LegacyCode.toTags_hex hhex]
      exact hbehind.code (LegacyCode.effect?_hex hhex hrgb behind) hresolve
        (htag (LegacyCode.toTags behind))
  | code code tag behind htag ih =>
      have hbehind := ih (fun hm => hopen (List.mem_append_right ['&', code] hm))
        fun hm => hslash (List.mem_append_right ['&', code] hm)
      have hcode : code ≠ '#' := by
        rintro rfl
        rw [LegacyCode.tag?_of_hash] at htag
        cases htag
      obtain ⟨effect, tagged, heffect, hresolve, hfound⟩ := LegacyCode.exists_tagged htag
      obtain ⟨rest, he, hrest⟩ := hfound (LegacyCode.toTags behind)
      have hstyled : LegacyCode.effect? (code :: behind) = some (effect, behind) := by
        rw [LegacyCode.effect?_code hcode, heffect]
        rfl
      rw [LegacyCode.toTags_code htag, he]
      exact hbehind.code hstyled hresolve hrest

end Draft

/-! ## Whole texts -/

/-- A text that has neither tags nor escapes, with its codes turned into tags and read
with either vocabulary, shows every character in the style that the codes before it make,
cut into runs of one style. -/
theorem spans_parse_toTags (v : Vocabulary) {t : Text} (hopen : '<' ∉ t) (hslash : '\\' ∉ t) :
    (parse v (LegacyCode.toTags t)).spans
      = (Run.group (LegacyCode.styled Style.empty t)).map Span.ofRun := by
  have hstart : Draft.Shows {} [] Style.empty := ⟨rfl, rfl, fun _ h => absurd h List.not_mem_nil⟩
  have hlisting := Draft.readsCodes_toTags v (parse v) hopen hslash _ _ _ hstart
  rw [List.nil_append, ← parse_eq_readOn, Component.listing_spans] at hlisting
  rw [Component.spans_eq_group, hlisting]

/-- Codes that add up, a reset, and an `&` that is none. -/
def codedSample : Text := "&cHi &lyou&#FF6B35!&r & bye".toList

theorem spans_parse_toTags_of_sample :
    '<' ∉ codedSample ∧ '\\' ∉ codedSample
      ∧ (parse .restricted (LegacyCode.toTags codedSample)).spans
        = [⟨"Hi ".toList, { color := some (.named .red) }⟩,
          ⟨"you".toList, { color := some (.named .red), decorations := { bold := some true } }⟩,
          ⟨"!".toList,
            { color := some (.rgb ⟨0xff, 0x6b, 0x35⟩), decorations := { bold := some true } }⟩,
          ⟨" & bye".toList, {}⟩] := by
  have hopen : '<' ∉ codedSample := by decide
  have hslash : '\\' ∉ codedSample := by decide
  refine ⟨hopen, hslash, (spans_parse_toTags .restricted hopen hslash).trans ?_⟩
  decide +kernel

end StyledChat
