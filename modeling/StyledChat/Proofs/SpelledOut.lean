/-
Texts that are spelled out already.

A pass that is run on its own output finds nothing to do (`passes_idempotent`).  What it
made, it does not read again: the tags of codes have no `&`, and neither they nor the tags
of flags are shorthand tags.  What it kept, it keeps again.  For that, one has to see that
the text behind a kept `&` or `<` still reads the same there: a pass changes it from a `<`
or an `&` on at the earliest, and codes contain neither (`SameStart`), while what stands
between brackets is not changed at all.

With several passes there is one thing more to see: flags bring no code into being
(`LegacyCode.Settled.expandFrom`).
-/
import StyledChat.Proofs.MadeTags

namespace StyledChat

/-! ## Beginnings that a pass leaves alone -/

/-- The second text begins like the first, up to some `<` or `&` in it or to its end. -/
inductive SameStart : Text → Text → Prop
  | mark {t t' : Text} : (∀ c ∈ t'.head?, c = '<' ∨ c = '&') → SameStart t t'
  | cons (c : Char) {t t' : Text} : SameStart t t' → SameStart (c :: t) (c :: t')

namespace SameStart

/-- What has neither `<` nor `&` and begins the second text begins the first. -/
theorem exists_of_append {t t' : Text} (h : SameStart t t') : ∀ {p : Text},
    (∀ c ∈ p, c ≠ '<' ∧ c ≠ '&') → (∃ u, t' = p ++ u) → ∃ u, t = p ++ u := by
  induction h with
  | @mark t t' hmark =>
      rintro (_ | ⟨c, p⟩) hp ⟨u, rfl⟩
      · exact ⟨t, rfl⟩
      · obtain ⟨hopen, hamp⟩ := hp c List.mem_cons_self
        exact absurd (hmark c rfl) (not_or.mpr ⟨hopen, hamp⟩)
  | @cons c t t' h ih =>
      rintro (_ | ⟨d, p⟩) hp ⟨u, he⟩
      · exact ⟨c :: t, rfl⟩
      · obtain ⟨rfl, hrest⟩ := List.cons.inj he
        obtain ⟨u', rfl⟩ := ih (fun e hmem => hp e (List.mem_cons_of_mem _ hmem)) ⟨u, hrest⟩
        exact ⟨u', rfl⟩

end SameStart

/-! ## Codes -/

namespace LegacyCode

/-- An `&` that is kept is kept in front of any text that begins alike. -/
theorem KeepsAmp.sameStart {t t' : Text} (h : KeepsAmp t) (hsame : SameStart t t') :
    KeepsAmp t' := by
  refine ⟨fun hstarts => h.1 ?_, fun code hcode => ?_⟩
  · obtain ⟨digits, behind, hhex, rfl⟩ := startsWithHex_iff.mp hstarts
    have hplain : ∀ c ∈ '#' :: digits, c ≠ '<' ∧ c ≠ '&' :=
      hhex.forall_mem (Text.forall_mem_of_all (by decide))
    obtain ⟨u, rfl⟩ := hsame.exists_of_append hplain ⟨behind, rfl⟩
    exact hhex.startsWithHex u
  · cases hsame with
    | mark hmark =>
        rcases hmark code hcode with rfl | rfl
        · decide
        · decide
    | cons c _ => exact h.2 code hcode

/-- No `&` of the text starts a code. -/
def Settled : Text → Prop
  | [] => True
  | c :: rest => (c = '&' → KeepsAmp rest) ∧ Settled rest

theorem Settled.right {u : Text} : ∀ {p : Text}, Settled (p ++ u) → Settled u
  | [], h => h
  | _ :: _, h => Settled.right h.2

theorem Settled.append {u : Text} (h : Settled u) : ∀ {p : Text}, '&' ∉ p → Settled (p ++ u)
  | [], _ => h
  | _ :: _, hp =>
      ⟨fun e => absurd (e ▸ List.mem_cons_self) hp,
        h.append fun hmem => hp (List.mem_cons_of_mem _ hmem)⟩

theorem toTags_of_settled : ∀ {t : Text}, Settled t → toTags t = t
  | [], _ => toTags_nil
  | c :: rest, h => by
      by_cases hc : c = '&'
      · rw [hc, toTags_kept (h.1 hc), toTags_of_settled h.2]
      · rw [toTags_other hc, toTags_of_settled h.2]

theorem amp_not_mem_of_tag? {code : Char} {tag : Text} (h : tag? code = some tag) :
    '&' ∉ tag := by
  have htable : ∀ e ∈ table, '&' ∉ e.2 := by decide
  exact htable _ (mem_table_of_tag? h)

theorem IsHexCode.amp_not_mem {digits : Text} (h : IsHexCode digits) :
    '&' ∉ '<' :: '#' :: (digits ++ ['>']) := by
  have hne : ∀ c ∈ '#' :: digits, c ≠ '&' := h.forall_mem (Text.forall_mem_of_all (by decide))
  intro hmem
  rcases List.mem_cons.mp hmem with he | hmem
  · exact absurd he (by decide)
  rcases List.mem_append.mp (show '&' ∈ ('#' :: digits) ++ ['>'] from hmem) with hmem | hmem
  · exact hne '&' hmem rfl
  · exact absurd (List.mem_singleton.mp hmem) (by decide)

theorem sameStart_toTags (t : Text) : SameStart t (toTags t) := by
  induction t using LegacyCode.induction with
  | nil =>
      rw [toTags_nil]
      exact .mark fun _ h => nomatch h
  | other c rest hc ih =>
      rw [toTags_other hc]
      exact .cons c ih
  | hex digits behind hhex _ =>
      rw [toTags_hex hhex]
      exact .mark fun _ h => Or.inl (Option.some.inj h).symm
  | code code tag behind htag _ =>
      obtain ⟨⟨content, rfl, -⟩, -⟩ := (MadeOfCode.named htag).bracketed
      rw [toTags_code htag]
      exact .mark fun _ h => Or.inl (Option.some.inj h).symm
  | kept rest hkeeps _ =>
      rw [toTags_kept hkeeps]
      exact .mark fun _ h => Or.inr (Option.some.inj h).symm

theorem settled_toTags (t : Text) : Settled (toTags t) := by
  induction t using LegacyCode.induction with
  | nil =>
      rw [toTags_nil]
      trivial
  | other c rest hc ih =>
      rw [toTags_other hc]
      exact ⟨fun e => absurd e hc, ih⟩
  | hex digits behind hhex ih =>
      have happend := ih.append hhex.amp_not_mem
      rw [List.cons_append, List.cons_append, List.append_assoc] at happend
      rw [toTags_hex hhex]
      exact happend
  | code code tag behind htag ih =>
      rw [toTags_code htag]
      exact ih.append (amp_not_mem_of_tag? htag)
  | kept rest hkeeps ih =>
      rw [toTags_kept hkeeps]
      exact ⟨fun _ => hkeeps.sameStart (sameStart_toTags rest), ih⟩

end LegacyCode

/-! ## Flags -/

namespace Flag

/-- A tag that is expanded with no flag pending is expanded with any. -/
theorem expansion?_zero {pending : Nat} {inner : Text} (h : expansion? pending inner = none) :
    expansion? 0 inner = none := by
  unfold expansion? at h ⊢
  cases hread : Shorthand.ofInner? inner with
  | none => rfl
  | some shorthand =>
      cases shorthand with
      | start name =>
          rw [hread] at h
          exact Option.map_eq_none_iff.mpr (Option.map_eq_none_iff.mp h)
      | finish => rfl

theorem amp_not_mem_of_expansion? {pending later : Nat} {inner tag : Text}
    (h : expansion? pending inner = some (tag, later)) : '&' ∉ tag := by
  have hall : ∀ flag ∈ all, '&' ∉ flag.openTag := by decide +kernel
  rcases expansion?_eq_some h with ⟨flag, hflag, rfl, -⟩ | ⟨rfl, -⟩
  · exact hall flag hflag
  · decide

/-- The tags that flags make are no shorthand. -/
theorem expansion?_of_expansion? {pending later : Nat} {inner content : Text}
    (h : expansion? pending inner = some ('<' :: (content ++ ['>']), later)) :
    expansion? 0 content = none := by
  have hall : ∀ flag ∈ all, expansion? 0 flag.openTag.tail.dropLast = none := by
    decide +kernel
  rcases expansion?_eq_some h with ⟨flag, hflag, he, -⟩ | ⟨he, -⟩
  · have hcontent := hall flag hflag
    rwa [← he, List.tail_cons, List.dropLast_concat] at hcontent
  · have hcontent : expansion? 0 closeTag.tail.dropLast = none := by decide +kernel
    rwa [← he, List.tail_cons, List.dropLast_concat] at hcontent

/-- A bracket stays one, whether it is kept or starts a tag that is made. -/
theorem exists_expandFrom_bracket (pending : Nat) (rest : Text) :
    ∃ u, expandFrom pending ('<' :: rest) = '<' :: u := by
  rcases keepsBracket_or_expanded pending rest with
    hkeeps | ⟨inner, tag, later, behind, hfree, htag, rfl⟩
  · exact ⟨_, expandFrom_kept hkeeps⟩
  · obtain ⟨⟨content, rfl, -⟩, -⟩ := bracketed_of_expansion? htag
    exact ⟨_, expandFrom_expanded hfree htag behind⟩

theorem sameStart_expandFrom (pending : Nat) : ∀ t : Text, SameStart t (expandFrom pending t)
  | [] => .mark fun c h => by
      rw [expandFrom_nil] at h
      cases h
  | c :: rest => by
      by_cases hc : c = '<'
      · subst hc
        obtain ⟨u, he⟩ := exists_expandFrom_bracket pending rest
        rw [he]
        exact .mark fun _ h => Or.inl (Option.some.inj h).symm
      · rw [expandFrom_other hc]
        exact .cons c (sameStart_expandFrom pending rest)

/-- A bracket that is kept is kept again, also when no flag is pending. -/
theorem KeepsBracket.expandFrom {pending : Nat} {rest : Text} (h : KeepsBracket pending rest) :
    KeepsBracket 0 (expandFrom pending rest) := by
  intro inner' behind' hb
  cases firstBracket rest with
  | none hfree =>
      have hkept := expandFrom_of_no_bracket (fun hmem => (hfree '<' hmem).1 rfl) pending []
      rw [List.append_nil, expandFrom_nil, List.append_nil] at hkept
      rw [hkept, bracketed?_of_noBracket hfree] at hb
      cases hb
  | opening behind hfree =>
      obtain ⟨u, he⟩ := exists_expandFrom_bracket pending behind
      rw [expandFrom_of_no_bracket (fun hmem => (hfree '<' hmem).1 rfl), he,
        bracketed?_of_opening hfree] at hb
      cases hb
  | @closing inner behind hfree =>
      rw [List.append_cons, expandFrom_of_no_bracket hfree.not_mem_concat, ← List.append_cons,
        bracketed?_eq hfree] at hb
      obtain ⟨rfl, -⟩ := Prod.mk.inj (Option.some.inj hb)
      exact expansion?_zero (h inner behind (bracketed?_eq hfree behind))

theorem expandFrom_expandFrom (pending : Nat) (t : Text) :
    expandFrom 0 (expandFrom pending t) = expandFrom pending t := by
  induction pending, t using Flag.induction with
  | nil pending => rw [expandFrom_nil, expandFrom_nil]
  | other pending c rest hc ih => rw [expandFrom_other hc, expandFrom_other hc, ih]
  | expanded pending inner tag later behind hfree htag ih =>
      obtain ⟨⟨content, rfl, hcontent⟩, -⟩ := bracketed_of_expansion? htag
      rw [expandFrom_expanded hfree htag, List.cons_append, ← List.append_cons,
        expandFrom_bracketed hcontent (expansion?_of_expansion? htag), ih]
  | kept pending rest hkeeps ih =>
      rw [expandFrom_kept hkeeps, expandFrom_kept hkeeps.expandFrom, ih]

end Flag

/-! ## Both passes -/

/-- Flags bring no code into being. -/
theorem LegacyCode.Settled.expandFrom (pending : Nat) {t : Text} (h : Settled t) :
    Settled (Flag.expandFrom pending t) := by
  induction pending, t using Flag.induction with
  | nil pending => rwa [Flag.expandFrom_nil]
  | other pending c rest hc ih =>
      rw [Flag.expandFrom_other hc]
      exact ⟨fun e => (h.1 e).sameStart (Flag.sameStart_expandFrom pending rest), ih h.2⟩
  | expanded pending inner tag later behind hfree htag ih =>
      have hbehind : Settled ('>' :: behind) := h.2.right
      rw [Flag.expandFrom_expanded hfree htag]
      exact (ih hbehind.2).append (Flag.amp_not_mem_of_expansion? htag)
  | kept pending rest hkeeps ih =>
      rw [Flag.expandFrom_kept hkeeps]
      exact ⟨fun e => absurd e (by decide), ih h.2⟩

/-- Each pass, and the two of them together, change nothing in what they made. -/
theorem passes_idempotent (t : Text) :
    LegacyCode.toTags (LegacyCode.toTags t) = LegacyCode.toTags t
      ∧ Flag.expand (Flag.expand t) = Flag.expand t
      ∧ spellOut (spellOut t) = spellOut t := by
  have hcodes := LegacyCode.settled_toTags t
  have hspelled : LegacyCode.toTags (spellOut t) = spellOut t :=
    LegacyCode.toTags_of_settled (hcodes.expandFrom 0)
  refine ⟨LegacyCode.toTags_of_settled hcodes, Flag.expandFrom_expandFrom 0 t, ?_⟩
  rw [spellOut, hspelled]
  exact Flag.expandFrom_expandFrom 0 (LegacyCode.toTags t)

end StyledChat
