/-
Quoted arguments in the text of a template.

Quotes mean nothing to the two passes that spell a template out: a code or a flag
between quotes is expanded like any other.  But what the passes make has no quotes and
no `\`, and what they read is not affected by escapes, so an escaped text is spelled out
to the spelled-out text, escaped (`toTags_escape`, `expandFrom_escape`).

One thing can go wrong.  The end of a flag runs up to the next `>`, whatever stands
between, so one that is not finished within the quotes takes the closing quote with it.
`Spells` rules this out: the quote and the `>` behind the argument stay as they are.  Where
they do not, the text ends in such an end of a flag (`Flag.spells_of_not_endsUnfinished`).

The tag of the spelled-out template is then the tag of the spelled-out argument, and the
template reads as that tag around the name (`Renderer.quoted_argument_spelled_out`).
-/
import Mathlib.Data.List.TakeWhile
import StyledChat.Proofs.Interactions
import StyledChat.Proofs.RoundTrip
import StyledChat.Proofs.Spelling

namespace StyledChat

/-! ## Texts that differ in escapes -/

/-- The same text with a `\` before some of the characters that are escaped between
quotes. -/
inductive Slashed (q : Quote) : Text → Text → Prop
  | nil : Slashed q [] []
  | kept (c : Char) {t t' : Text} : Slashed q t t' → Slashed q (c :: t) (c :: t')
  | slashed {c : Char} {t t' : Text} : q.Escapes c → Slashed q t t' →
      Slashed q (c :: t) ('\\' :: c :: t')

namespace Slashed

variable {q : Quote}

theorem refl : ∀ t : Text, Slashed q t t
  | [] => .nil
  | c :: rest => .kept c (refl rest)

theorem append {t t' u u' : Text} (h : Slashed q t t') (hu : Slashed q u u') :
    Slashed q (t ++ u) (t' ++ u') := by
  induction h with
  | nil => exact hu
  | kept c _ ih => exact .kept c ih
  | slashed hc _ ih => exact .slashed hc ih

theorem escape : ∀ t : Text, Slashed q t (q.escape t)
  | [] => .nil
  | c :: rest => by
      by_cases hc : q.Escapes c
      · rw [Quote.escape_of_escapes hc]
        exact .slashed hc (escape rest)
      · rw [Quote.escape_of_not_escapes hc]
        exact .kept c (escape rest)

/-- A text that differs has escaped characters, with a `\` or without. -/
theorem eq_or_exists {t t' : Text} (h : Slashed q t t') :
    t = t' ∨ (∃ c ∈ t, q.Escapes c) ∧ ∃ c ∈ t', q.Escapes c := by
  induction h with
  | nil => exact Or.inl rfl
  | kept c _ ih =>
      rcases ih with rfl | ⟨⟨d, hd, hesc⟩, e, he, hesc'⟩
      · exact Or.inl rfl
      · exact Or.inr
          ⟨⟨d, List.mem_cons_of_mem c hd, hesc⟩, e, List.mem_cons_of_mem c he, hesc'⟩
  | @slashed c _ _ hc _ _ =>
      exact Or.inr ⟨⟨c, List.mem_cons_self, hc⟩, '\\', List.mem_cons_self, Or.inl rfl⟩

/-- Both begin with a character that is not escaped, or neither does. -/
theorem first {d : Char} (hd : Token.IsUnquoted d) {t t' : Text} (h : Slashed q t t') :
    (∃ u u', t = d :: u ∧ t' = d :: u' ∧ Slashed q u u')
      ∨ t.head? ≠ some d ∧ t'.head? ≠ some d := by
  cases h with
  | nil => exact Or.inr ⟨Option.some_ne_none d ∘ Eq.symm, Option.some_ne_none d ∘ Eq.symm⟩
  | @kept c u u' h =>
      by_cases hc : c = d
      · exact Or.inl ⟨u, u', by rw [hc], by rw [hc], h⟩
      · exact Or.inr ⟨fun e => hc (Option.some.inj e), fun e => hc (Option.some.inj e)⟩
  | @slashed c u u' hc h =>
      refine Or.inr ⟨fun e => ?_, fun e => hd.1 (Option.some.inj e).symm⟩
      exact Quote.not_escapes (q := q) hd (Option.some.inj e ▸ hc)

/-- A character that is not escaped cuts both at the same place. -/
theorem cutAt? {d : Char} (hd : Token.IsUnquoted d) {t t' : Text} (h : Slashed q t t') :
    (Text.cutAt? d t = none ∧ Text.cutAt? d t' = none)
      ∨ ∃ before after before' after', Text.cutAt? d t = some (before, after)
        ∧ Text.cutAt? d t' = some (before', after')
        ∧ Slashed q before before' ∧ Slashed q after after' := by
  induction h with
  | nil => exact Or.inl ⟨rfl, rfl⟩
  | @kept c u u' h ih =>
      by_cases hc : c = d
      · exact Or.inr ⟨[], u, [], u', by rw [Text.cutAt?, if_pos hc], by rw [Text.cutAt?, if_pos hc],
          .nil, h⟩
      · rw [Text.cutAt?, Text.cutAt?, if_neg hc, if_neg hc]
        rcases ih with ⟨hnone, hnone'⟩ | ⟨b, a, b', a', hcut, hcut', hb, ha⟩
        · rw [hnone, hnone']
          exact Or.inl ⟨rfl, rfl⟩
        · rw [hcut, hcut']
          exact Or.inr ⟨c :: b, a, c :: b', a', rfl, rfl, .kept c hb, ha⟩
  | @slashed c u u' hesc h ih =>
      have hc : c ≠ d := fun e => Quote.not_escapes hd (e ▸ hesc)
      have hslash : '\\' ≠ d := hd.1.symm
      rw [Text.cutAt?, Text.cutAt?, Text.cutAt?, if_neg hc, if_neg hslash, if_neg hc]
      rcases ih with ⟨hnone, hnone'⟩ | ⟨b, a, b', a', hcut, hcut', hb, ha⟩
      · rw [hnone, hnone']
        exact Or.inl ⟨rfl, rfl⟩
      · rw [hcut, hcut']
        exact Or.inr ⟨c :: b, a, '\\' :: c :: b', a', rfl, rfl, .slashed hesc hb, ha⟩

/-- What one begins with in front of a quote, quotes and `\` aside, the other begins with. -/
theorem exists_of_append_eq {p behind u : Text} (hp : ∀ c ∈ p, Token.IsUnquoted c) :
    ∀ {t t' : Text}, Slashed q t t' → t' ++ q.char :: u = p ++ behind → ∃ rest, t = p ++ rest := by
  induction p with
  | nil => exact fun {t _} _ _ => ⟨t, rfl⟩
  | cons d more ih =>
      intro t t' h he
      have hd := hp d List.mem_cons_self
      cases h with
      | nil => exact absurd (List.cons.inj he).1.symm (hd.2 q)
      | kept c h =>
          obtain ⟨rfl, hrest⟩ := List.cons.inj he
          obtain ⟨rest, rfl⟩ := ih (fun e hmem => hp e (List.mem_cons_of_mem _ hmem)) h hrest
          exact ⟨rest, rfl⟩
      | slashed hc h => exact absurd (List.cons.inj he).1.symm hd.1

end Slashed

/-! ## Codes between quotes -/

namespace LegacyCode

variable {q : Quote}

theorem tag?_of_escapes {c : Char} (h : q.Escapes c) : tag? c = none := by
  cases htag : tag? c with
  | none => rfl
  | some tag => exact absurd h (Quote.not_escapes (isUnquoted_of_tag? htag c List.mem_cons_self))

theorem KeepsAmp.slashed {rest rest' : Text} (h : KeepsAmp rest) (hrest : Slashed q rest rest')
    (u : Text) : KeepsAmp (rest' ++ q.char :: u) := by
  refine ⟨fun hstarts => h.1 ?_, fun code hcode => ?_⟩
  · obtain ⟨digits, behind, hhex, he⟩ := startsWithHex_iff.mp hstarts
    have hplain : ∀ c ∈ '#' :: digits, Token.IsUnquoted c := by
      intro c hc
      rcases List.mem_cons.mp hc with rfl | hc
      · decide
      · exact hhex.isUnquoted c hc
    obtain ⟨more, hmore⟩ := hrest.exists_of_append_eq hplain he
    exact startsWithHex_iff.mpr ⟨digits, more, hhex, hmore⟩
  · cases hrest with
    | nil =>
        obtain rfl := Option.some.inj hcode
        exact tag?_of_escapes (Or.inr rfl)
    | kept c _ => exact h.2 code hcode
    | slashed hc _ =>
        obtain rfl := Option.some.inj hcode
        exact tag?_of_escapes (q := q) (Or.inl rfl)

/-- No code reaches over a quote. -/
theorem toTags_quote (q : Quote) (t : Text) : ∀ u : Text,
    toTags (t ++ q.char :: u) = toTags t ++ q.char :: toTags u := by
  have hquote : q.char ≠ '&' := by cases q <;> decide
  induction t using LegacyCode.induction with
  | nil =>
      intro u
      rw [toTags_nil]
      exact toTags_other hquote u
  | other c rest hc ih =>
      intro u
      rw [List.cons_append, toTags_other hc, toTags_other hc, ih]
      rfl
  | hex digits behind hhex ih =>
      intro u
      simp only [List.cons_append, List.append_assoc]
      rw [toTags_hex hhex, toTags_hex hhex, ih]
      simp only [List.cons_append, List.append_assoc]
  | code code tag behind htag ih =>
      intro u
      rw [List.cons_append, List.cons_append, toTags_code htag, toTags_code htag, ih,
        List.append_assoc]
  | kept rest hkeeps ih =>
      intro u
      rw [List.cons_append, toTags_kept (hkeeps.slashed (Slashed.refl rest) u),
        toTags_kept hkeeps, ih]
      rfl

/-- Codes between quotes are turned into tags, and the quotes stay. -/
theorem toTags_escape (t : Text) : ∀ u : Text,
    toTags (q.escape t ++ q.char :: u) = q.escape (toTags t) ++ q.char :: toTags u := by
  have hamp : ¬q.Escapes '&' := Quote.not_escapes (by decide)
  induction t using LegacyCode.induction with
  | nil =>
      intro u
      rw [toTags_nil]
      exact toTags_other (fun e => hamp (Or.inr e.symm)) u
  | other c rest hc ih =>
      intro u
      rw [toTags_other hc]
      by_cases hesc : q.Escapes c
      · rw [Quote.escape_of_escapes hesc, Quote.escape_of_escapes hesc, List.cons_append,
          List.cons_append, toTags_other (by decide), toTags_other hc, ih]
        rfl
      · rw [Quote.escape_of_not_escapes hesc, Quote.escape_of_not_escapes hesc, List.cons_append,
          toTags_other hc, ih]
        rfl
  | hex digits behind hhex ih =>
      intro u
      have hdigits : q.escape digits = digits := Quote.escape_eq_self hhex.isUnquoted
      have hunquoted : ∀ c ∈ "&#<>".toList, Token.IsUnquoted c :=
        Text.forall_mem_of_all (by decide)
      have hplain : ∀ c ∈ "&#<>".toList, ¬q.Escapes c := fun c hc =>
        Quote.not_escapes (hunquoted c hc)
      rw [toTags_hex hhex, Quote.escape_of_not_escapes hamp,
        Quote.escape_of_not_escapes (hplain '#' (by decide)), Quote.escape_append, hdigits,
        Quote.escape_of_not_escapes (hplain '<' (by decide)),
        Quote.escape_of_not_escapes (hplain '#' (by decide)), Quote.escape_append, hdigits,
        Quote.escape_of_not_escapes (hplain '>' (by decide))]
      simp only [List.cons_append, List.append_assoc]
      rw [toTags_hex hhex, ih]
  | code code tag behind htag ih =>
      intro u
      have hunquoted := isUnquoted_of_tag? htag
      have hcode : ¬q.Escapes code := Quote.not_escapes (hunquoted code List.mem_cons_self)
      have htagEq : q.escape tag = tag :=
        Quote.escape_eq_self fun c hc => hunquoted c (List.mem_cons_of_mem _ hc)
      rw [toTags_code htag, Quote.escape_of_not_escapes hamp, Quote.escape_of_not_escapes hcode,
        Quote.escape_append, htagEq, List.cons_append, List.cons_append, toTags_code htag, ih,
        List.append_assoc]
  | kept rest hkeeps ih =>
      intro u
      rw [toTags_kept hkeeps, Quote.escape_of_not_escapes hamp, Quote.escape_of_not_escapes hamp,
        List.cons_append, toTags_kept (hkeeps.slashed (Slashed.escape rest) u), ih]
      rfl

end LegacyCode

/-! ## Flags between quotes -/

namespace Flag

variable {q : Quote}

/-- A text that has the letters of a word of letters has no quotes. -/
theorem isUnquoted_of_lower_eq {t word : Text} (hword : word.all Char.isAlpha)
    (h : Text.lower t = word) : ∀ c ∈ t, Token.IsUnquoted c := by
  intro c hc
  have hletter : c.toLower.isAlpha := by
    refine List.all_eq_true.mp hword _ ?_
    rw [← h]
    exact List.mem_map_of_mem hc
  have hne : ∀ d : Char, d.toLower.isAlpha = false → c ≠ d := by
    rintro d hd rfl
    rw [hletter] at hd
    cases hd
  refine ⟨hne _ (by decide), fun q => hne _ ?_⟩
  cases q <;> decide

theorem isUnquoted_of_ofName? {name : Text} {flag : Flag} (h : ofName? name = some flag) :
    ∀ c ∈ name, Token.IsUnquoted c := by
  have hall : ∀ flag ∈ all, flag.name.all Char.isAlpha := by decide +kernel
  obtain ⟨hmem, hname⟩ := mem_all_of_ofName? h
  exact isUnquoted_of_lower_eq (hall flag hmem) hname.symm

theorem not_sameLetters_of_escapes {name : Text} {c : Char} (hc : c ∈ name)
    (hesc : q.Escapes c) : Text.sameLetters name tagName = false := by
  have hword : (Text.lower tagName).all Char.isAlpha := by decide
  refine beq_eq_false_iff_ne.mpr fun h => ?_
  exact Quote.not_escapes (isUnquoted_of_lower_eq hword h c hc) hesc

/-- Trimming keeps every character that is no blank. -/
theorem mem_trim {t : Text} {c : Char} (h : c ∈ t) (hc : ¬Text.isBlankChar c) :
    c ∈ Text.trim t := by
  have hdrop : ∀ {u : Text}, c ∈ u → c ∈ u.dropWhile Text.isBlankChar := by
    intro u hu
    rw [← List.takeWhile_append_dropWhile (p := Text.isBlankChar) (l := u)] at hu
    rcases List.mem_append.mp hu with hu | hu
    · exact absurd (List.mem_takeWhile_imp hu) hc
    · exact hu
  exact List.mem_reverse.mpr (hdrop (List.mem_reverse.mpr (hdrop h)))

theorem ofName?_trim_of_escapes {name : Text} {c : Char} (hc : c ∈ name)
    (hesc : q.Escapes c) : ofName? (Text.trim name) = none := by
  have hblank : ¬Text.isBlankChar c := by
    rcases hesc with rfl | rfl
    · decide
    · cases q <;> decide
  cases hname : ofName? (Text.trim name) with
  | none => rfl
  | some flag =>
      exact absurd hesc (Quote.not_escapes (isUnquoted_of_ofName? hname c (mem_trim hc hblank)))

theorem sameLetters_slashed {t t' : Text} (h : Slashed q t t') :
    Text.sameLetters t tagName = Text.sameLetters t' tagName := by
  rcases h.eq_or_exists with rfl | ⟨⟨c, hc, hesc⟩, d, hd, hesc'⟩
  · rfl
  · rw [not_sameLetters_of_escapes hc hesc, not_sameLetters_of_escapes hd hesc']

theorem ofName?_trim_slashed {t t' : Text} (h : Slashed q t t') :
    ofName? (Text.trim t) = ofName? (Text.trim t') := by
  rcases h.eq_or_exists with rfl | ⟨⟨c, hc, hesc⟩, d, hd, hesc'⟩
  · rfl
  · rw [ofName?_trim_of_escapes hc hesc, ofName?_trim_of_escapes hd hesc']

theorem sameLetters_nameOf_slashed {t t' : Text} (h : Slashed q t t') :
    Text.sameLetters (nameOf t) tagName = Text.sameLetters (nameOf t') tagName := by
  rw [nameOf, nameOf]
  rcases h.cutAt? (d := ':') (by decide) with ⟨hcut, hcut'⟩ | ⟨b, a, b', a', hcut, hcut', hb, -⟩
  · rw [hcut, hcut']
    exact sameLetters_slashed h
  · rw [hcut, hcut']
    exact sameLetters_slashed hb

theorem ofName?_argumentOf_slashed {t t' : Text} (h : Slashed q t t') :
    ofName? (argumentOf t) = ofName? (argumentOf t') := by
  rw [argumentOf, argumentOf]
  rcases h.cutAt? (d := ':') (by decide) with ⟨hcut, hcut'⟩ | ⟨b, a, b', a', hcut, hcut', -, ha⟩
  · rw [hcut, hcut']
  · rw [hcut, hcut']
    exact ofName?_trim_slashed ha

/-- A `\` before a quote or a `\` makes no difference to what is expanded. -/
theorem expansion?_slashed {t t' : Text} (h : Slashed q t t') (pending : Nat) :
    expansion? pending t = expansion? pending t' := by
  rcases h.first (d := '/') (by decide) with ⟨u, u', rfl, rfl, hu⟩ | ⟨hhead, hhead'⟩
  · rw [expansion?_closing, expansion?_closing, sameLetters_nameOf_slashed hu]
  · rw [expansion?_opening hhead, expansion?_opening hhead', sameLetters_nameOf_slashed h,
      ofName?_argumentOf_slashed h]

theorem NoBracket.escape {t : Text} (h : NoBracket t) : NoBracket (q.escape t) := by
  intro c hc
  obtain ⟨d, hd, hmem⟩ := List.mem_flatMap.mp hc
  split at hmem
  · rcases List.mem_cons.mp hmem with rfl | hmem
    · decide
    · obtain rfl := List.mem_singleton.mp hmem
      exact h c hd
  · obtain rfl := List.mem_singleton.mp hmem
    exact h c hd

theorem NoBracket.append_quote {t : Text} (h : NoBracket t) : NoBracket (t ++ [q.char]) := by
  intro c hc
  rcases List.mem_append.mp hc with hc | hc
  · exact h c hc
  · obtain rfl := List.mem_singleton.mp hc
    cases q <;> decide

/-- Behind a text, the quote and the `>` that end an argument stay as they are. -/
def Spells (q : Quote) (pending : Nat) (t : Text) : Prop :=
  expandFrom pending (t ++ [q.char, '>']) = expandFrom pending t ++ [q.char, '>']

/-- No tag that is made ends in a quote and a `>`. -/
theorem expansion?_quote_of_spells {pending : Nat} {t : Text}
    (hspells : Spells q pending ('<' :: t)) (hfree : NoBracket t) :
    expansion? pending (t ++ [q.char]) = none := by
  cases h : expansion? pending (t ++ [q.char]) with
  | none => rfl
  | some made =>
      have hexpanded := expandFrom_expanded hfree.append_quote h []
      rw [expandFrom_nil, List.append_nil, List.append_assoc, List.singleton_append] at hexpanded
      rw [Spells, List.cons_append, hexpanded] at hspells
      have hquote : q.char ∈ made.1 := by
        rw [hspells]
        exact List.mem_append_right _ List.mem_cons_self
      exact absurd rfl ((isUnquoted_of_expansion? h _ hquote).2 q)

/-- A bracket that is kept is kept in the escaped text as well, in front of the quote and
the `>` that end the argument, unless that `>` would end a tag that is made. -/
theorem KeepsBracket.escape {pending : Nat} {t : Text} (h : KeepsBracket pending t)
    (hlast : NoBracket t → expansion? pending (t ++ [q.char]) = none) (u : Text) :
    KeepsBracket pending (t ++ q.char :: '>' :: u)
      ∧ KeepsBracket pending (q.escape t ++ q.char :: '>' :: u) := by
  have hslashed : ∀ t : Text, expansion? pending t = none → ∀ t', Slashed q t t' →
      expansion? pending t' = none := fun t hnone t' ht => expansion?_slashed ht pending ▸ hnone
  cases firstBracket t with
  | none hfree =>
      -- the next `>` is the one behind the quote
      have hnone : expansion? pending (t ++ [q.char]) = none := hlast hfree
      have hbracketed : ∀ t : Text, NoBracket t →
          bracketed? (t ++ q.char :: '>' :: u) = some (t ++ [q.char], u) := by
        intro t hfree
        rw [← bracketed?_eq hfree.append_quote, List.append_assoc]
        rfl
      refine ⟨fun inner behind hb => ?_, fun inner behind hb => ?_⟩
      · rw [hbracketed t hfree] at hb
        exact (Prod.mk.inj (Option.some.inj hb)).1 ▸ hnone
      · rw [hbracketed _ hfree.escape] at hb
        refine (Prod.mk.inj (Option.some.inj hb)).1 ▸ hslashed _ hnone _ ?_
        exact (Slashed.escape t).append (Slashed.refl _)
  | @opening before behind hfree =>
      have hopen : ¬q.Escapes '<' := Quote.not_escapes (by decide)
      refine ⟨fun inner rest hb => ?_, fun inner rest hb => ?_⟩
      · rw [List.append_assoc, List.cons_append, bracketed?_of_opening hfree] at hb
        cases hb
      · rw [Quote.escape_append, Quote.escape_of_not_escapes hopen, List.append_assoc,
          List.cons_append, bracketed?_of_opening hfree.escape] at hb
        cases hb
  | @closing inside behind hfree =>
      have hclose : ¬q.Escapes '>' := Quote.not_escapes (by decide)
      have hnone : expansion? pending inside = none := h inside behind (bracketed?_eq hfree behind)
      refine ⟨fun inner rest hb => ?_, fun inner rest hb => ?_⟩
      · rw [List.append_assoc, List.cons_append, bracketed?_eq hfree] at hb
        exact (Prod.mk.inj (Option.some.inj hb)).1 ▸ hnone
      · rw [Quote.escape_append, Quote.escape_of_not_escapes hclose, List.append_assoc,
          List.cons_append, bracketed?_eq hfree.escape] at hb
        exact (Prod.mk.inj (Option.some.inj hb)).1 ▸ hslashed _ hnone _ (Slashed.escape inside)

/-- Flags between quotes are expanded, and the quotes stay. -/
theorem expandFrom_escape (pending : Nat) (t : Text) : Spells q pending t → ∀ u : Text,
    ∃ later, expandFrom pending (q.escape t ++ q.char :: '>' :: u)
      = q.escape (expandFrom pending t) ++ q.char :: '>' :: expandFrom later u := by
  have hquote : q.char ≠ '<' := by cases q <;> decide
  have hopen : ¬q.Escapes '<' := Quote.not_escapes (by decide)
  have hclose : ¬q.Escapes '>' := Quote.not_escapes (by decide)
  induction pending, t using Flag.induction with
  | nil pending =>
      intro _ u
      refine ⟨pending, ?_⟩
      show expandFrom pending (q.char :: '>' :: u) = _
      rw [expandFrom_other hquote, expandFrom_other (by decide), expandFrom_nil]
      rfl
  | other pending c rest hc ih =>
      intro hspells u
      rw [Spells, List.cons_append, expandFrom_other hc, expandFrom_other hc] at hspells
      obtain ⟨later, hrest⟩ := ih (List.cons.inj hspells).2 u
      refine ⟨later, ?_⟩
      rw [expandFrom_other hc]
      by_cases hesc : q.Escapes c
      · rw [Quote.escape_of_escapes hesc, Quote.escape_of_escapes hesc, List.cons_append,
          List.cons_append, expandFrom_other (by decide), expandFrom_other hc, hrest]
        rfl
      · rw [Quote.escape_of_not_escapes hesc, Quote.escape_of_not_escapes hesc, List.cons_append,
          expandFrom_other hc, hrest]
        rfl
  | expanded pending inner tag next behind hfree htag ih =>
      intro hspells u
      rw [Spells, List.cons_append, List.append_assoc, List.cons_append,
        expandFrom_expanded hfree htag, expandFrom_expanded hfree htag,
        List.append_assoc] at hspells
      obtain ⟨later, hrest⟩ := ih (List.append_cancel_left hspells) u
      have htag' : expansion? pending (q.escape inner) = some (tag, next) :=
        expansion?_slashed (Slashed.escape inner) pending ▸ htag
      refine ⟨later, ?_⟩
      rw [Quote.escape_of_not_escapes hopen, Quote.escape_append,
        Quote.escape_of_not_escapes hclose, List.cons_append, List.append_assoc, List.cons_append,
        expandFrom_expanded hfree.escape htag', hrest, expandFrom_expanded hfree htag,
        Quote.escape_append, Quote.escape_eq_self (isUnquoted_of_expansion? htag),
        List.append_assoc]
  | kept pending rest hkeeps ih =>
      intro hspells u
      have hlast := expansion?_quote_of_spells hspells
      obtain ⟨hplain, -⟩ := hkeeps.escape hlast []
      obtain ⟨-, hescaped⟩ := hkeeps.escape hlast u
      rw [Spells, List.cons_append, expandFrom_kept hplain, expandFrom_kept hkeeps] at hspells
      obtain ⟨later, hrest⟩ := ih (List.cons.inj hspells).2 u
      refine ⟨later, ?_⟩
      rw [Quote.escape_of_not_escapes hopen, List.cons_append, expandFrom_kept hescaped, hrest,
        expandFrom_kept hkeeps, Quote.escape_of_not_escapes hopen]
      rfl

/-! ### Ends of flags that are not finished -/

/-- The text ends in the end of a flag whose argument is still open. -/
def EndsUnfinished (t : Text) : Prop :=
  ∃ before name argument, t = before ++ '<' :: '/' :: (name ++ ':' :: argument)
    ∧ Text.sameLetters name tagName ∧ NoBracket argument

theorem EndsUnfinished.behind {t : Text} (h : EndsUnfinished t) (u : Text) :
    EndsUnfinished (u ++ t) := by
  obtain ⟨before, name, argument, rfl, hname, hfree⟩ := h
  exact ⟨u ++ before, name, argument, (List.append_assoc ..).symm, hname, hfree⟩

/-- A name that a quote ends is not the name of a flag. -/
theorem sameLetters_nameOf_quote {t : Text} (hcolon : ':' ∉ t) :
    Text.sameLetters (nameOf (t ++ [q.char])) tagName = false := by
  have hquote : q.char ∈ t ++ [q.char] := List.mem_append_right _ List.mem_cons_self
  have hnone : ':' ∉ t ++ [q.char] := by
    intro hmem
    rcases List.mem_append.mp hmem with hmem | hmem
    · exact hcolon hmem
    · have hne : ':' ≠ q.char := by cases q <;> decide
      exact hne (List.mem_singleton.mp hmem)
  rw [nameOf, Text.cutAt?_of_not_mem hnone]
  exact not_sameLetters_of_escapes hquote (Or.inr rfl)

/-- The beginning of a flag never takes a quote with it: no flag has one in its name. -/
theorem expansion?_opening_quote {t : Text} (hhead : (t ++ [q.char]).head? ≠ some '/')
    (pending : Nat) : expansion? pending (t ++ [q.char]) = none := by
  rw [expansion?_opening hhead]
  by_cases hcolon : ':' ∈ t
  · obtain ⟨name, argument, rfl, hfirst⟩ := List.eq_append_cons_of_mem hcolon
    have hquote : q.char ∈ argument ++ [q.char] := List.mem_append_right _ List.mem_cons_self
    have hargument : ofName? (argumentOf (name ++ ':' :: argument ++ [q.char])) = none := by
      rw [List.append_assoc, List.cons_append, argumentOf, Text.cutAt?_eq hfirst]
      exact ofName?_trim_of_escapes hquote (Or.inr rfl)
    rw [hargument]
    exact ite_self _
  · rw [sameLetters_nameOf_quote hcolon]
    rfl

/-- A tag that takes a quote with it is the end of a flag, and the quote is in its argument. -/
theorem closing_of_expansion?_quote {pending : Nat} {t : Text}
    (h : expansion? pending (t ++ [q.char]) ≠ none) :
    ∃ name argument, t = '/' :: (name ++ ':' :: argument) ∧ Text.sameLetters name tagName := by
  have hhead : (t ++ [q.char]).head? = some '/' := by
    by_contra hhead
    exact h (expansion?_opening_quote hhead pending)
  cases t with
  | nil => exact absurd hhead (by cases q <;> decide)
  | cons c rest =>
      obtain rfl : c = '/' := Option.some.inj hhead
      rw [List.cons_append, expansion?_closing] at h
      have hname : Text.sameLetters (nameOf (rest ++ [q.char])) tagName := by
        by_contra hname
        exact h (if_neg hname)
      by_cases hcolon : ':' ∈ rest
      · obtain ⟨name, argument, rfl, hfirst⟩ := List.eq_append_cons_of_mem hcolon
        rw [List.append_assoc, List.cons_append, nameOf, Text.cutAt?_eq hfirst] at hname
        exact ⟨name, argument, rfl, hname⟩
      · rw [sameLetters_nameOf_quote hcolon] at hname
        cases hname

/-- The quote and the `>` stay as they are behind every text that does not end in the end of
a flag. -/
theorem spells_of_not_endsUnfinished (pending : Nat) (t : Text) :
    ¬EndsUnfinished t → Spells q pending t := by
  have hquote : q.char ≠ '<' := by cases q <;> decide
  induction pending, t using Flag.induction with
  | nil pending =>
      intro _
      show expandFrom pending [q.char, '>'] = _
      rw [expandFrom_other hquote, expandFrom_other (by decide), expandFrom_nil]
      rfl
  | other pending c rest hc ih =>
      intro hends
      have hrest : Spells q pending rest := ih fun e => hends (e.behind [c])
      rw [Spells, List.cons_append, expandFrom_other hc, expandFrom_other hc, hrest]
      rfl
  | expanded pending inner tag next behind hfree htag ih =>
      intro hends
      have hbehind : Spells q next behind := ih fun e => hends <| by
        rw [List.append_cons, ← List.cons_append]
        exact e.behind _
      rw [Spells, List.cons_append, List.append_assoc, List.cons_append,
        expandFrom_expanded hfree htag, expandFrom_expanded hfree htag, hbehind, List.append_assoc]
  | kept pending rest hkeeps ih =>
      intro hends
      have hlast : NoBracket rest → expansion? pending (rest ++ [q.char]) = none := by
        intro hfree
        by_contra hmade
        obtain ⟨name, argument, rfl, hname⟩ := closing_of_expansion?_quote hmade
        refine hends ⟨[], name, argument, rfl, hname, fun c hc => hfree c ?_⟩
        exact List.mem_cons_of_mem _ (List.mem_append_right _ (List.mem_cons_of_mem _ hc))
      obtain ⟨hplain, -⟩ := hkeeps.escape hlast []
      have hrest : Spells q pending rest := ih fun e => hends (e.behind ['<'])
      rw [Spells, List.cons_append, expandFrom_kept hplain, expandFrom_kept hkeeps, hrest]
      rfl

end Flag

/-! ## A template with a quoted argument -/

/-- A tag name that neither pass reads anything into. -/
structure PlainName (name : Text) : Prop where
  amp : '&' ∉ name
  bare : name.all Token.isBareChar
  slash : name.head? ≠ some '/'
  flag : Text.sameLetters name Flag.tagName = false

/-- What stands behind the argument of the template. -/
def behindArgument (name : Text) : Text :=
  Template.namePlaceholder
    ++ '<' :: '/' :: (name ++ '>' :: (": ".toList ++ Template.messagePlaceholder))

/-- The template `<name:more'…'>{display_name}</name>: {message}` with an escaped text
between the quotes. -/
def quotedTemplate (name more v : Text) : Text :=
  '<' :: (name ++ ':' :: (more ++ ['\x27']))
    ++ (Quote.single.escape v ++ Quote.single.char :: '>' :: behindArgument name)

theorem LegacyCode.toTags_quotedTemplate {name more : Text} (hname : PlainName name)
    (hmore : '&' ∉ more) (v : Text) :
    toTags (quotedTemplate name more v) = quotedTemplate name more (toTags v) := by
  have hstart : '&' ∉ '<' :: (name ++ ':' :: (more ++ ['\x27'])) := by
    simp [hname.amp, hmore]
  have hdisplay : '&' ∉ Template.namePlaceholder := by decide
  have hmessage : '&' ∉ Template.messagePlaceholder := by decide
  have hrest : '&' ∉ '>' :: behindArgument name := by
    simp [behindArgument, hname.amp, hdisplay, hmessage]
  have hkept := toTags_of_no_amp hrest []
  rw [List.append_nil, toTags_nil, List.append_nil] at hkept
  rw [quotedTemplate, toTags_of_no_amp hstart, toTags_escape, hkept]
  rfl

namespace PlainName

variable {name : Text}

theorem noBracket (h : PlainName name) : Flag.NoBracket name := by
  intro c hc
  obtain ⟨-, hopen, hclose, -⟩ := Token.isBareChar_iff.mp (List.all_eq_true.mp h.bare c hc)
  exact ⟨hopen, hclose⟩

theorem colon (h : PlainName name) : ':' ∉ name := fun hmem =>
  (Token.isBareChar_iff.mp (List.all_eq_true.mp h.bare ':' hmem)).1 rfl

theorem prefix_of_opening (h : PlainName name) {rest inner behind : Text}
    (he : name ++ ':' :: rest = inner ++ '>' :: behind) :
    ∃ argument, inner = name ++ ':' :: argument := by
  rw [List.append_cons] at he
  rcases List.append_eq_append_iff.mp he with ⟨argument, rfl, -⟩ | ⟨between, hname, hbehind⟩
  · exact ⟨argument, List.append_assoc name [':'] argument⟩
  · cases between with
    | nil => exact ⟨[], by rw [← hname.trans (List.append_nil inner)]⟩
    | cons c more =>
        obtain rfl : '>' = c := (List.cons.inj hbehind).1
        have hmem : '>' ∈ name ++ [':'] := hname ▸ List.mem_append_right _ List.mem_cons_self
        rcases List.mem_append.mp hmem with hmem | hmem
        · exact absurd rfl (h.noBracket '>' hmem).2
        · exact absurd (List.mem_singleton.mp hmem) (by decide)

/-- A tag of this name with an argument is no shorthand. -/
theorem keepsOpening (h : PlainName name) (pending : Nat) (rest : Text) :
    Flag.KeepsBracket pending (name ++ ':' :: rest) := by
  intro inner behind hb
  obtain ⟨hfree, he⟩ := Flag.eq_of_bracketed? hb
  obtain ⟨argument, rfl⟩ := h.prefix_of_opening he
  have hhead : (name ++ ':' :: argument).head? ≠ some '/' := by
    cases hname : name with
    | nil => exact fun e => absurd (Option.some.inj e) (by decide)
    | cons c more =>
        rw [hname] at h
        exact h.slash
  rw [Flag.expansion?_opening hhead, Flag.nameOf, Text.cutAt?_eq h.colon]
  exact if_neg (Bool.eq_false_iff.mp h.flag)

/-- Nor is the tag that ends it. -/
theorem keepsClosing (h : PlainName name) (pending : Nat) (rest : Text) :
    Flag.KeepsBracket pending ('/' :: (name ++ '>' :: rest)) := by
  intro inner behind hb
  have hfree : Flag.NoBracket ('/' :: name) := by
    intro c hc
    rcases List.mem_cons.mp hc with rfl | hc
    · decide
    · exact h.noBracket c hc
  rw [← List.cons_append, Flag.bracketed?_eq hfree] at hb
  obtain ⟨rfl, -⟩ := Prod.mk.inj (Option.some.inj hb)
  rw [Flag.expansion?_closing, Flag.nameOf, Text.cutAt?_of_not_mem h.colon]
  exact if_neg (Bool.eq_false_iff.mp h.flag)

end PlainName

theorem Flag.expand_quotedTemplate {name more : Text} (hname : PlainName name)
    (hmore : '<' ∉ more) {v : Text} (hspells : Spells .single 0 v) :
    expand (quotedTemplate name more v) = quotedTemplate name more (expand v) := by
  have hopen : '<' ∉ name := fun hmem => (hname.noBracket '<' hmem).1 rfl
  have hstart : '<' ∉ name ++ ':' :: (more ++ ['\x27']) := by
    simp [hopen, hmore]
  obtain ⟨later, hargument⟩ := expandFrom_escape 0 v hspells (behindArgument name)
  have hbehind : expandFrom later (behindArgument name) = behindArgument name := by
    have hmessage : '<' ∉ Template.messagePlaceholder := by decide
    have hend : '<' ∉ '/' :: (name ++ '>' :: (": ".toList ++ Template.messagePlaceholder)) := by
      simp [hopen, hmessage]
    have hkept := expandFrom_of_no_bracket hend later []
    rw [List.append_nil, expandFrom_nil, List.append_nil] at hkept
    rw [behindArgument, expandFrom_of_no_bracket (by decide),
      expandFrom_kept (hname.keepsClosing later _), hkept]
  rw [expand, expand, quotedTemplate, List.cons_append, expandFrom_kept,
    expandFrom_of_no_bracket hstart, hargument, hbehind]
  · rfl
  · rw [List.append_assoc]
    exact hname.keepsOpening 0 _

/-- The template is spelled out to the template with the spelled-out argument. -/
theorem spellOut_quotedTemplate {name more : Text} (hname : PlainName name) (hamp : '&' ∉ more)
    (hopen : '<' ∉ more) {v : Text} (hspells : Flag.Spells .single 0 (LegacyCode.toTags v)) :
    spellOut (quotedTemplate name more v) = quotedTemplate name more (spellOut v) := by
  rw [spellOut, LegacyCode.toTags_quotedTemplate hname hamp,
    Flag.expand_quotedTemplate hname hopen hspells]
  rfl

/-- `<click:a:'…'>{display_name}</click>: {message}`. -/
def clickTemplate (a : ClickAction) (v : Text) : Text :=
  quotedTemplate "click".toList (a.name ++ [':']) v

/-- `<insertion:'…'>{display_name}</insertion>: {message}`. -/
def insertionTemplate (v : Text) : Text := quotedTemplate "insertion".toList [] v

example : clickTemplate .openUrl "it's".toList
    = "<click:open_url:'it\\'s'>{display_name}</click>: {message}".toList := by
  decide

/-! ## Reading the template -/

/-- A node around some trees, and a text behind it. -/
def labelled (style : Style) (label : List Component) (behind : Component) : Component :=
  .node .empty [.node style label, behind]

/-- The tree of the template, before anything is put in. -/
def labelledTemplate (style : Style) : Component :=
  labelled style [.leaf Template.namePlaceholder]
    (.leaf (": ".toList ++ Template.messagePlaceholder))

/-- The tree with the name and the message put in. -/
def labelledMessage (style : Style) (name : Text) (message : Component) : Component :=
  labelled style [⟨[], .empty, [.leaf name]⟩] ⟨": ".toList, .empty, [message]⟩

theorem splice_labelledTemplate {style : Style} (hhover : style.hover = none) (name : Text)
    (m : Component) : (labelledTemplate style).splice (fillings name m)
      = labelledMessage style name m := by
  have hstyle : style.splice (fillings name m) = style := by
    obtain ⟨_, _, _, _, hover, _, _⟩ := style
    obtain rfl : hover = none := hhover
    rfl
  have hname : scan (fillings name m) Template.namePlaceholder
      = [.put ⟨Template.namePlaceholder, .leaf name⟩] := rfl
  have hmessage : scan (fillings name m) (": ".toList ++ Template.messagePlaceholder)
      = [.kept ':', .kept ' ', .put ⟨Template.messagePlaceholder, m⟩] := rfl
  simp only [labelledTemplate, labelledMessage, labelled, Component.node, Component.leaf,
    Component.splice_mk, spliceAll_eq_map, List.map_cons, List.map_nil, hname, hmessage, hstyle]
  rfl

theorem parse_labelledTemplate {style : Style} (hstyle : OneProperty .trusted style)
    (hhover : style.hover = none) :
    parse .trusted (labelledTemplate style).markup = labelledTemplate style := by
  have hnormal : NormalTree .trusted (labelledTemplate style) := by
    refine .root (.node hstyle ?_ ?_)
    · exact .leaf (by decide) (fun _ h => nomatch h) .nil
    · exact .leaf (by decide) (fun _ h => nomatch h) .nil
  have htexts : (labelledTemplate style).allTexts
      = [[], [], Template.namePlaceholder, ": ".toList ++ Template.messagePlaceholder] := by
    obtain ⟨_, _, _, _, hover, _, _⟩ := style
    obtain rfl : hover = none := hhover
    rfl
  refine hnormal.parse_markup_eq ?_
  rw [htexts]
  decide

/-- A template that is spelled out to the written form of the tree shows the name inside
of the tag. -/
theorem filledTree_of_markup {text : Text} {style : Style} (hstyle : OneProperty .trusted style)
    (hhover : style.hover = none) (htext : spellOut text = (labelledTemplate style).markup)
    (name : Text) (m : Component) : filledTree text name m = labelledMessage style name m := by
  rw [filledTree, templateTree, htext, parse_labelledTemplate hstyle hhover,
    splice_labelledTemplate hhover]

theorem markup_labelledTemplate {style : Style} {tag : Tag} (htags : style.tags = [tag]) :
    (labelledTemplate style).markup = tag.form.opening
      ++ (Template.namePlaceholder ++ tag.form.plain.closing)
      ++ (": ".toList ++ Template.messagePlaceholder) := by
  have hname : Text.escape Template.namePlaceholder = Template.namePlaceholder := by decide
  have hmessage : Text.escape (": ".toList ++ Template.messagePlaceholder)
      = ": ".toList ++ Template.messagePlaceholder := by decide
  have hroot : (labelledTemplate style).markup
      = markupOfAll [.node style [.leaf Template.namePlaceholder],
          .leaf (": ".toList ++ Template.messagePlaceholder)] := List.append_nil _
  rw [hroot, markupOfAll, markupOfAll, markupOfAll, Component.markup_node htags, markupOfAll,
    markupOfAll, Component.markup_leaf, Component.markup_leaf, hname, hmessage, List.append_nil,
    List.append_nil]

/-- The template is written as a tag whose arguments end in the quoted one. -/
theorem markup_eq_quotedTemplate {style : Style} {tag : Tag} (htags : style.tags = [tag])
    {more v : Text} (hargs : Argument.writtenAll tag.form.args
      = ':' :: (more ++ '\x27' :: (Quote.single.escape v ++ ['\x27']))) :
    (labelledTemplate style).markup = quotedTemplate tag.form.name more v := by
  have hnone : Argument.writtenAll [] = [] := rfl
  rw [markup_labelledTemplate htags]
  simp only [TagForm.opening, TagForm.closing, TagForm.content, TagForm.plain, hargs, hnone,
    quotedTemplate, behindArgument, List.append_assoc, List.cons_append, List.nil_append]
  rfl

theorem markup_clickTemplate (a : ClickAction) (v : Text) :
    (labelledTemplate { click := some ⟨a, v⟩ }).markup = clickTemplate a v := by
  have htags : Style.tags { click := some ⟨a, v⟩ } = [.click ⟨a, v⟩] := rfl
  have hargs : Argument.writtenAll (Tag.click ⟨a, v⟩).form.args
      = ':' :: (a.name ++ [':'] ++ '\x27' :: (Quote.single.escape v ++ ['\x27'])) := by
    rw [List.append_assoc]
    exact congrArg (':' :: a.name ++ ·) (List.append_nil _)
  exact markup_eq_quotedTemplate htags hargs

theorem markup_insertionTemplate (v : Text) :
    (labelledTemplate { insertion := some v }).markup = insertionTemplate v := by
  have htags : Style.tags { insertion := some v } = [.insertion v] := rfl
  exact markup_eq_quotedTemplate htags (List.append_nil _)

namespace Renderer

/-- Quotes in a template do not keep codes and flags from being expanded: the value of a
quoted argument that has no placeholder is the text between the quotes, spelled out,
provided that the quote and the `>` behind it are not read as a part of it.  They never are,
unless the text with its codes turned into tags ends in the end of a flag that is not
finished. -/
theorem quoted_argument_spelled_out (r : Renderer) (perms : Permissions)
    (hhook : r.expander = none) : ∀ v : Text,
    ¬Template.namePlaceholder <:+: v → ¬Template.messagePlaceholder <:+: v →
    (¬Flag.EndsUnfinished (LegacyCode.toTags v) →
        spellOut (v ++ "'>".toList) = spellOut v ++ "'>".toList)
      ∧ (spellOut (v ++ "'>".toList) = spellOut v ++ "'>".toList →
        (∀ a, (r.snapshot.resolve perms).value.text = clickTemplate a v →
          ∀ name raw mixing, (r.render name raw perms mixing).value
            = labelledMessage { click := some ⟨a, spellOut v⟩ } (name.getD consoleName)
                (messageTree raw mixing))
        ∧ ((r.snapshot.resolve perms).value.text = insertionTemplate v →
          ∀ name raw mixing, (r.render name raw perms mixing).value
            = labelledMessage { insertion := some (spellOut v) } (name.getD consoleName)
                (messageTree raw mixing))) := by
  intro v _ _
  have hclosing : LegacyCode.toTags (v ++ "'>".toList) = LegacyCode.toTags v ++ "'>".toList := by
    have hquote := LegacyCode.toTags_quote .single v ['>']
    rw [LegacyCode.toTags_other (by decide), LegacyCode.toTags_nil] at hquote
    exact hquote
  have hspells_iff : spellOut (v ++ "'>".toList) = spellOut v ++ "'>".toList
      ↔ Flag.Spells .single 0 (LegacyCode.toTags v) := by
    rw [spellOut, spellOut, hclosing]
    rfl
  have hclick : PlainName "click".toList := ⟨by decide, by decide, by decide, by decide⟩
  have hinsertion : PlainName "insertion".toList := ⟨by decide, by decide, by decide, by decide⟩
  refine ⟨fun hends => hspells_iff.mpr (Flag.spells_of_not_endsUnfinished 0 _ hends),
    fun hspells => ⟨fun a htext name raw mixing => ?_, fun htext name raw mixing => ?_⟩⟩
  · have hspelled : spellOut (clickTemplate a v) = clickTemplate a (spellOut v) :=
      spellOut_quotedTemplate hclick (by cases a <;> decide) (by cases a <;> decide)
        (hspells_iff.mp hspells)
    rw [value_render_of_no_hook hhook, htext]
    refine filledTree_of_markup (.click _ rfl) rfl ?_ _ _
    rw [hspelled, markup_clickTemplate]
  · have hspelled : spellOut (insertionTemplate v) = insertionTemplate (spellOut v) :=
      spellOut_quotedTemplate hinsertion List.not_mem_nil List.not_mem_nil
        (hspells_iff.mp hspells)
    rw [value_render_of_no_hook hhook, htext]
    refine filledTree_of_markup (.insertion _ rfl) rfl ?_ _ _
    rw [hspelled, markup_insertionTemplate]

/-- A value with brackets, colons and quotes, and with a flag that is expanded. -/
theorem quoted_argument_of_flag :
    let v := "/say a:b > \"it's\" <pride:bi>!".toList
    let t : Template := ⟨Template.defaultId, clickTemplate .suggestCommand v, none⟩
    let r : Renderer := ⟨⟨[t], t⟩, none⟩
    let value := "/say a:b > \"it's\" <gradient:#d60270:#9b4f96:#0038a8>!".toList
    r.expander = none
      ∧ ¬Template.namePlaceholder <:+: v ∧ ¬Template.messagePlaceholder <:+: v
      ∧ ¬Flag.EndsUnfinished (LegacyCode.toTags v)
      ∧ (r.snapshot.resolve Permissions.refuseAll).value.text = clickTemplate .suggestCommand v
      ∧ (r.render (some "Ann".toList) (some "hi".toList) Permissions.refuseAll true).value
        = labelledMessage { click := some ⟨.suggestCommand, value⟩ } "Ann".toList
            (messageTree (some "hi".toList) true) := by
  intro v t r value
  have hname : ¬Template.namePlaceholder <:+: v := by decide +kernel
  have hmessage : ¬Template.messagePlaceholder <:+: v := by decide +kernel
  have hends : ¬Flag.EndsUnfinished (LegacyCode.toTags v) := by
    rintro ⟨before, name, argument, he, -⟩
    have hslash : ¬['<', '/'] <:+: LegacyCode.toTags v := by decide +kernel
    exact hslash ⟨before, name ++ ':' :: argument, by rw [he, List.append_assoc]; rfl⟩
  obtain ⟨hspells, hvalue⟩ :=
    quoted_argument_spelled_out r Permissions.refuseAll rfl v hname hmessage
  have hspelled : spellOut v = value := by decide +kernel
  have hclick := (hvalue (hspells hends)).1 .suggestCommand rfl (some "Ann".toList)
    (some "hi".toList) true
  rw [hspelled] at hclick
  exact ⟨rfl, hname, hmessage, hends, rfl, hclick⟩

/-- A link whose query has a code in it is not the link that is opened. -/
theorem quoted_link_not_kept :
    let v := "https://a.b/?x=1&b=2".toList
    let t : Template := ⟨Template.defaultId, clickTemplate .openUrl v, none⟩
    let r : Renderer := ⟨⟨[t], t⟩, none⟩
    let tree := (r.render (some "Ann".toList) (some "hi".toList) Permissions.refuseAll false).value
    r.expander = none
      ∧ (r.snapshot.resolve Permissions.refuseAll).value.text = clickTemplate .openUrl v
      ∧ (∀ s ∈ tree.styles, s.click ≠ some ⟨.openUrl, v⟩)
      ∧ tree = labelledMessage { click := some ⟨.openUrl, "https://a.b/?x=1<aqua>=2".toList⟩ }
          "Ann".toList (messageTree (some "hi".toList) false) :=
  ⟨rfl, rfl, by decide +kernel, by decide +kernel⟩

end Renderer

end StyledChat
