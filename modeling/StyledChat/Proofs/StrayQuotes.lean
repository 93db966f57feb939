/-
Where the two scanners of a tag disagree about quotes.

The search for the end of a tag takes any quote for the start of a quoted stretch, and the
splitting of the arguments only a quote that stands first in its argument.  Splitting is a
run of steps, each of which depends on the place reached and puts something in front of
what is split off behind it (`Token.splitAtColons_cons`).  The two scanners stand at the
same place throughout a content exactly when every quote outside of quotes stands first in
its argument, and then the end of the tag is the first `>` outside of quotes for both of
them (`Token.scanners_agree`).

An apostrophe within an argument is enough for them to disagree (`Token.scanners_differ`):
the tag is not found, or it ends behind a `>` that is a part of no quoted argument, or
within a quote that does not end.
-/
import Mathlib.Data.List.Induction
import StyledChat.Proofs.Partition

namespace StyledChat

/-! ## Splitting step by step -/

/-- Where the splitting of arguments stands: with respect to quotes, and whether nothing of
the current argument has been read. -/
structure Splitting where
  place : Quoting
  fresh : Bool

namespace Splitting

def start : Splitting := ⟨.outside, true⟩

/-- The quote that opens with a character outside of quotes. -/
def opened? (s : Splitting) (c : Char) : Option Quote :=
  if s.fresh then Quote.ofChar? c else none

def step (s : Splitting) (c : Char) : Splitting :=
  match s.place with
  | .outside =>
    match s.opened? c with
    | some q => ⟨.inside q, true⟩
    | none => ⟨.outside, c = ':'⟩
  | .inside q =>
    if c = '\\' then ⟨.escaped q, s.fresh⟩
    else if c = q.char then ⟨.outside, s.fresh⟩
    else ⟨.inside q, false⟩
  | .escaped q => ⟨.inside q, false⟩

/-- What a character puts in front of the arguments that are split off behind it. -/
def put (s : Splitting) (c : Char) (args : List Text) : List Text :=
  match s.place with
  | .outside =>
    match s.opened? c with
    | some _ => args
    | none => if c = ':' then [] :: args else Token.consArg c args
  | .inside q =>
    if c = '\\' then args
    else if c = q.char then args
    else Token.consArg c args
  | .escaped q =>
    if c = q.char ∨ c = '\\' then Token.consArg c args
    else Token.consArg '\\' (Token.consArg c args)

/-- What a text puts in front of the arguments that are split off behind it. -/
def putAll (s : Splitting) : Text → List Text → List Text
  | [], args => args
  | c :: rest, args => s.put c ((s.step c).putAll rest args)

/-- The place behind the first part of a content, whose lead is not split. -/
def past (p : Text) : Splitting := (Token.lead p).2.2.foldl step start

def placePast (p : Text) : Quoting := (past p).place

end Splitting

namespace Token

theorem splitAtColons_outside (fresh : Bool) (c : Char) (rest : Text) :
    splitAtColons .outside fresh (c :: rest) = match (Splitting.mk .outside fresh).opened? c with
      | some q => splitAtColons (.inside q) true rest
      | none => if c = ':' then [] :: splitAtColons .outside true rest
          else consArg c (splitAtColons .outside false rest) := by
  cases fresh <;> cases hquote : Quote.ofChar? c <;>
    simp [splitAtColons, Splitting.opened?, hquote]

theorem splitAtColons_cons (s : Splitting) (c : Char) (rest : Text) :
    splitAtColons s.place s.fresh (c :: rest)
      = s.put c (splitAtColons (s.step c).place (s.step c).fresh rest) := by
  obtain ⟨place, fresh⟩ := s
  rw [Splitting.put, Splitting.step]
  cases place with
  | outside =>
      rw [splitAtColons_outside]
      cases (Splitting.mk .outside fresh).opened? c with
      | some q => rfl
      | none =>
          dsimp only
          split
          · next hc => rw [decide_eq_true hc]
          · next hc => rw [decide_eq_false hc]
  | inside q =>
      rw [splitAtColons]
      dsimp only
      split
      · rfl
      · split <;> rfl
  | escaped q => rfl

theorem splitAtColons_append (s : Splitting) (p rest : Text) :
    splitAtColons s.place s.fresh (p ++ rest)
      = s.putAll p (splitAtColons (p.foldl Splitting.step s).place
          (p.foldl Splitting.step s).fresh rest) := by
  induction p generalizing s with
  | nil => rfl
  | cons c more ih =>
      rw [List.cons_append, splitAtColons_cons, ih]
      rfl

theorem lead_append {p : Text} (hne : p ≠ []) (u : Text) :
    (lead (p ++ u)).2.2 = (lead p).2.2 ++ u := by
  obtain ⟨c, rest, rfl⟩ := List.exists_cons_of_ne_nil hne
  rw [List.cons_append]
  by_cases hclose : c = '/'
  · rw [hclose]
    rfl
  · by_cases hnegate : c = '!'
    · rw [hnegate]
      rfl
    · rw [lead_cons hclose hnegate, lead_cons hclose hnegate]
      rfl

end Token

namespace Splitting

/-- The splitting takes a step with each character that is not the lead. -/
theorem past_concat (p : Text) (c : Char) : past (p ++ [c])
    = if p = [] ∧ (c = '/' ∨ c = '!') then start else (past p).step c := by
  cases p with
  | nil =>
      by_cases hlead : c = '/' ∨ c = '!'
      · rw [if_pos ⟨rfl, hlead⟩]
        rcases hlead with rfl | rfl <;> rfl
      · rw [if_neg fun h => hlead h.2, List.nil_append, past,
          Token.lead_cons (fun e => hlead (Or.inl e)) fun e => hlead (Or.inr e)]
        rfl
  | cons d rest =>
      rw [if_neg fun h => absurd h.1 (List.cons_ne_nil d rest), past,
        Token.lead_append (List.cons_ne_nil d rest), List.foldl_concat]
      rfl

theorem past_concat_quote {c : Char} (hc : Quote.ofChar? c ≠ none) (p : Text) :
    past (p ++ [c]) = (past p).step c := by
  rw [past_concat, if_neg]
  rintro ⟨-, rfl | rfl⟩ <;> exact hc (by decide)

/-- Where no quote is met within an argument, both scanners take the same step. -/
theorem place_step {s : Splitting} {c : Char}
    (h : s.place = .outside → Quote.ofChar? c ≠ none → s.fresh) :
    (s.step c).place = s.place.step c := by
  obtain ⟨place, fresh⟩ := s
  rw [step]
  cases place with
  | outside =>
      dsimp only
      rw [Quoting.step, opened?]
      cases hquote : Quote.ofChar? c with
      | none => cases fresh <;> rfl
      | some q =>
          obtain rfl : fresh = true := h rfl (hquote ▸ Option.some_ne_none q)
          rfl
  | inside q =>
      dsimp only
      rw [Quoting.step]
      split
      · rfl
      · split <;> rfl
  | escaped q => rfl

/-- A quote that is met within an argument is a part of it. -/
theorem place_step_of_not_fresh {s : Splitting} (hplace : s.place = .outside)
    (hfresh : s.fresh = false) (c : Char) : (s.step c).place = .outside := by
  rw [step, hplace]
  dsimp only
  rw [opened?, hfresh]
  rfl

end Splitting

/-! ## Agreement -/

namespace Token

/-- Every quote outside of quotes stands first in its argument. -/
def QuotesLead (content : Text) : Prop :=
  content.Everywhere fun before c => Splitting.placePast before = .outside →
    Quote.ofChar? c ≠ none → (Splitting.past before).fresh

instance (content : Text) : Decidable (QuotesLead content) :=
  inferInstanceAs (Decidable (Text.Everywhere _ content))

/-- Both scanners stand at the same place behind each first part of a content. -/
def SamePlaces (content : Text) : Prop :=
  ∀ p, p <+: content → Splitting.placePast p = Quoting.outside.past p

/-- The lead is no quote, so that it makes no difference that it is not split. -/
theorem place_past_concat {p : Text} {c : Char}
    (h : Splitting.placePast p = .outside → Quote.ofChar? c ≠ none → (Splitting.past p).fresh) :
    Splitting.placePast (p ++ [c]) = (Splitting.placePast p).step c := by
  rw [Splitting.placePast, Splitting.past_concat]
  split
  · next hlead =>
      obtain ⟨rfl, rfl | rfl⟩ := hlead <;> rfl
  · exact Splitting.place_step h

theorem samePlaces_iff {content : Text} : SamePlaces content ↔ QuotesLead content := by
  constructor
  · intro h before c behind he hplace hquote
    have hsame := h (before ++ [c]) ⟨behind, by rw [he, List.append_assoc]; rfl⟩
    have hbefore := h before ⟨c :: behind, he.symm⟩
    by_contra hfresh
    have hpart := Splitting.place_step_of_not_fresh hplace (Bool.eq_false_iff.mpr hfresh) c
    obtain ⟨q, hq⟩ := Option.ne_none_iff_exists'.mp hquote
    rw [Splitting.placePast, Splitting.past_concat_quote hquote, hpart, Quoting.past_concat,
      ← hbefore, hplace, Quoting.step, hq] at hsame
    cases hsame
  · intro h p
    induction p using List.reverseRecOn with
    | nil => exact fun _ => rfl
    | append_singleton p c ih =>
        rintro ⟨behind, he⟩
        rw [List.append_assoc] at he
        rw [place_past_concat (h p c behind he.symm), Quoting.past_concat, ih ⟨c :: behind, he⟩]

/-- Scanners that stand at the same places close the same contents. -/
theorem Encloses.congr {place place' : Text → Quoting} {content : Text}
    (h : ∀ p, p <+: content → place p = place' p) (hencloses : Encloses place content) :
    Encloses place' content := by
  have hend : place content = place' content := h content (List.prefix_refl content)
  refine ⟨hend.symm.trans hencloses.1, fun before c behind he => ?_⟩
  have hplace : place before = place' before := h before ⟨c :: behind, he.symm⟩
  show place' before = .outside → _
  rw [← hplace]
  exact hencloses.2 before c behind he

/-- The content of a tag among the tokens is closed where any quote opens. -/
theorem encloses_of_mem_ofText {t content : Text} {tok : Token} (hmem : tok ∈ ofText t)
    (hmade : ofContent? content = some tok) : Encloses Quoting.outside.past content := by
  obtain ⟨behind, hpiece⟩ := (isPartition_ofText t).isPiece hmem
  cases hpiece with
  | tag hraw hencloses _ =>
      have he := (List.cons.inj (hraw.symm.trans (raw_of_ofContent? hmade))).2
      exact List.append_cancel_right he ▸ hencloses
  | bracket _ => exact absurd rfl (not_text_of_ofContent? hmade _)
  | run _ _ _ => exact absurd rfl (not_text_of_ofContent? hmade _)

/-- The arguments of a content are split behind its first part at `Splitting.past` of that
part.  The scanners stand at the same places exactly when every quote outside of quotes stands
first in its argument.  Then the tag ends at the first `>` that the arguments have outside of
quotes, if no `<` is outside of them before, and a tag that is among the tokens has no
unquoted bracket and no quote that does not end. -/
theorem scanners_agree (content : Text) :
    (∀ p rest, p ≠ [] → content = p ++ rest → splitAtColons .outside true (lead content).2.2
      = Splitting.start.putAll (lead p).2.2
          (splitAtColons (Splitting.past p).place (Splitting.past p).fresh rest))
      ∧ (SamePlaces content ↔ QuotesLead content)
      ∧ (QuotesLead content →
        (∀ t behind, cutTag? .outside t = some (content, behind)
          ↔ t = content ++ '>' :: behind ∧ Encloses Splitting.placePast content)
        ∧ ∀ t, ∀ tok ∈ ofText t, ofContent? content = some tok →
          Encloses Splitting.placePast content) := by
  refine ⟨fun p rest hne he => ?_, samePlaces_iff, fun hquotes => ?_⟩
  · rw [he, lead_append hne]
    exact splitAtColons_append .start (lead p).2.2 rest
  · have hsame := samePlaces_iff.mpr hquotes
    have hcongr : Encloses Quoting.outside.past content ↔ Encloses Splitting.placePast content :=
      ⟨Encloses.congr fun p hp => (hsame p hp).symm, Encloses.congr hsame⟩
    refine ⟨fun t behind => ?_, fun t tok hmem hmade => ?_⟩
    · rw [cutTag?_eq_some_iff, hcongr]
    · exact hcongr.mp (encloses_of_mem_ofText hmem hmade)

/-- A bracket and a colon within a quoted argument. -/
theorem scanners_agree_on_quoted_bracket :
    let content := "insert:'a>b:c'".toList
    QuotesLead content
      ∧ cutTag? .outside (content ++ ">d".toList) = some (content, ['d'])
      ∧ Encloses Splitting.placePast content := by
  intro content
  have hquotes : QuotesLead content := by decide +kernel
  have hcut : cutTag? .outside (content ++ ">d".toList) = some (content, ['d']) := by
    decide +kernel
  exact ⟨hquotes, hcut, ((((scanners_agree content).2.2 hquotes).1 _ _).mp hcut).2⟩

/-- An apostrophe within an argument hides the end of a tag, or lets the tag end behind an
unquoted `>`, or within a quote that does not end. -/
theorem scanners_differ :
    (∃ content behind tok, ofContent? content = some tok ∧ Encloses Splitting.placePast content
      ∧ ofText ('<' :: (content ++ '>' :: behind))
        = [.text ['<'], .text (content ++ '>' :: behind)])
    ∧ (∃ content tok, ofText ('<' :: (content ++ ['>'])) = [tok] ∧ ofContent? content = some tok
      ∧ ∃ before behind, content = before ++ '>' :: behind
          ∧ Splitting.placePast before = .outside)
    ∧ ∃ content tok q, ofText ('<' :: (content ++ ['>'])) = [tok] ∧ ofContent? content = some tok
      ∧ Splitting.placePast content = .inside q := by
  refine ⟨⟨"insert:it's".toList, ['x'],
      .opening (taggedOf "insert:it's".toList "insert".toList ["it's".toList]), ?_⟩,
    ⟨"insert:it's>x's".toList,
      .opening (taggedOf "insert:it's>x's".toList "insert".toList ["it's>x's".toList]), ?_⟩,
    ⟨"insert:a'b:'c".toList,
      .opening (taggedOf "insert:a'b:'c".toList "insert".toList ["a'b".toList, ['c']]),
      .single, ?_⟩⟩
  · decide +kernel
  · exact ⟨by decide +kernel, by decide +kernel, "insert:it's".toList, "x's".toList,
      by decide +kernel, by decide +kernel⟩
  · decide +kernel

end Token

end StyledChat
