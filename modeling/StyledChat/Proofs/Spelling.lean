/-
The two passes that spell a text out, step by step.

Codes first: a text is read from its start, and every `&` either makes a tag with what
stands behind it or is kept.  Then flags: every `<` either makes a tag with what stands
up to the next `>` or is kept, which is decided by that piece of text and by whether a
flag is pending (`Flag.expansion?`).  The equations below say which, and
`LegacyCode.induction` and `Flag.induction` follow them, so that no argument about
spelled-out text has to open the passes.

The tags that are made have neither quotes nor a `\` in them (`Token.IsUnquoted`).
-/
import Mathlib.Data.List.Infix
import StyledChat.Markup.Flag
import StyledChat.Proofs.Quoting

namespace StyledChat

/-! ## Codes -/

namespace LegacyCode

/-- The code of a colour in hexadecimal digits, without its `&`. -/
structure IsHexCode (digits : Text) : Prop where
  length : digits.length = 6
  hex : ∀ c ∈ digits, Text.isHexDigit c

theorem startsWithHex_iff {t : Text} :
    startsWithHex t ↔ ∃ digits behind, IsHexCode digits ∧ t = '#' :: (digits ++ behind) := by
  cases t with
  | nil =>
      constructor
      · intro h
        cases h
      · rintro ⟨_, _, -, h⟩
        cases h
  | cons c rest =>
      simp only [startsWithHex, Bool.and_eq_true, beq_iff_eq, List.all_eq_true]
      constructor
      · rintro ⟨⟨rfl, hlength⟩, hhex⟩
        exact ⟨rest.take 6, rest.drop 6, ⟨hlength, hhex⟩, by rw [List.take_append_drop]⟩
      · rintro ⟨digits, behind, ⟨hlength, hhex⟩, he⟩
        obtain ⟨rfl, rfl⟩ := List.cons.inj he
        have htake : (digits ++ behind).take 6 = digits := by rw [← hlength, List.take_left]
        exact ⟨⟨rfl, by rw [htake, hlength]⟩, by rwa [htake]⟩

namespace IsHexCode

variable {digits : Text}

theorem startsWithHex (h : IsHexCode digits) (behind : Text) :
    startsWithHex ('#' :: (digits ++ behind)) :=
  startsWithHex_iff.mpr ⟨digits, behind, h, rfl⟩

theorem take (h : IsHexCode digits) (behind : Text) :
    ('#' :: (digits ++ behind)).take 7 = '#' :: digits := by
  rw [List.take_succ_cons, List.take_left' h.length]

theorem drop (h : IsHexCode digits) (behind : Text) :
    ('#' :: (digits ++ behind)).drop 7 = behind := by
  rw [List.drop_succ_cons, List.drop_left' h.length]

end IsHexCode

theorem tag?_of_hash : tag? '#' = none := by decide

theorem mem_table_of_tag? {code : Char} {tag : Text} (h : tag? code = some tag) :
    (code, tag) ∈ table := by
  obtain ⟨before, behind, he, -⟩ := List.lookup_eq_some_iff.mp h
  rw [he]
  exact List.mem_append_right _ List.mem_cons_self

/-- Neither a code nor the tag it makes has anything to do with quotes. -/
theorem isUnquoted_of_tag? {code : Char} {tag : Text} (h : tag? code = some tag) :
    ∀ c ∈ code :: tag, Token.IsUnquoted c := by
  have htable : ∀ e ∈ table, (e.1 :: e.2).all fun c => Token.IsUnquoted c := by decide
  exact Text.forall_mem_of_all (htable _ (mem_table_of_tag? h))

theorem IsHexCode.isUnquoted {digits : Text} (h : IsHexCode digits) :
    ∀ c ∈ digits, Token.IsUnquoted c := by
  intro c hc
  have hne : ∀ d : Char, Text.isHexDigit d = false → c ≠ d := by
    rintro d hd rfl
    rw [h.hex c hc] at hd
    cases hd
  refine ⟨hne _ (by decide), fun q => hne _ ?_⟩
  cases q <;> decide

theorem toTags_nil : toTags [] = [] := by rw [toTags]

theorem toTags_other {c : Char} (h : c ≠ '&') (rest : Text) :
    toTags (c :: rest) = c :: toTags rest := by
  conv_lhs => unfold toTags
  exact if_neg h

theorem toTags_hex {digits : Text} (h : IsHexCode digits) (behind : Text) :
    toTags ('&' :: '#' :: (digits ++ behind))
      = '<' :: '#' :: (digits ++ '>' :: toTags behind) := by
  rw [toTags, if_pos rfl, if_pos (h.startsWithHex behind), h.take, h.drop]
  rfl

theorem not_startsWithHex {code : Char} {tag : Text} (h : tag? code = some tag)
    (behind : Text) : ¬startsWithHex (code :: behind) := by
  intro hstarts
  obtain ⟨_, _, -, he⟩ := startsWithHex_iff.mp hstarts
  rw [(List.cons.inj he).1, tag?_of_hash] at h
  cases h

theorem toTags_code {code : Char} {tag : Text} (h : tag? code = some tag) (behind : Text) :
    toTags ('&' :: code :: behind) = tag ++ toTags behind := by
  rw [toTags, if_pos rfl, if_neg (not_startsWithHex h behind)]
  simp only [h]

/-- What stands behind an `&` that is kept. -/
def KeepsAmp (rest : Text) : Prop := ¬startsWithHex rest ∧ ∀ code ∈ rest.head?, tag? code = none

theorem toTags_kept {rest : Text} (h : KeepsAmp rest) :
    toTags ('&' :: rest) = '&' :: toTags rest := by
  conv_lhs => unfold toTags
  rw [if_pos rfl, if_neg h.1]
  cases rest with
  | nil => rw [toTags_nil]
  | cons code behind => simp only [h.2 code rfl]

theorem toTags_of_no_amp {t : Text} (h : '&' ∉ t) (u : Text) :
    toTags (t ++ u) = t ++ toTags u := by
  induction t with
  | nil => rfl
  | cons c rest ih =>
      have hc : c ≠ '&' := fun e => h (e ▸ List.mem_cons_self)
      rw [List.cons_append, toTags_other hc, ih fun hmem => h (List.mem_cons_of_mem c hmem)]
      rfl

/-- Along the steps of `toTags`. -/
theorem induction {motive : Text → Prop} (nil : motive [])
    (other : ∀ c rest, c ≠ '&' → motive rest → motive (c :: rest))
    (hex : ∀ digits behind, IsHexCode digits → motive behind →
      motive ('&' :: '#' :: (digits ++ behind)))
    (code : ∀ code tag behind, tag? code = some tag → motive behind →
      motive ('&' :: code :: behind))
    (kept : ∀ rest, KeepsAmp rest → motive rest → motive ('&' :: rest)) : ∀ t, motive t
  | [] => nil
  | c :: rest => by
      by_cases hc : c = '&'
      · rw [hc]
        by_cases hstarts : startsWithHex rest
        · obtain ⟨digits, behind, hhex, he⟩ := startsWithHex_iff.mp hstarts
          have hshorter : behind.length < rest.length + 1 := by
            rw [he, List.length_cons, List.length_append]
            omega
          rw [he]
          exact hex digits behind hhex (induction nil other hex code kept behind)
        · cases rest with
          | nil => exact kept [] ⟨hstarts, fun _ h => nomatch h⟩ nil
          | cons d behind =>
              cases htag : tag? d with
              | some tag =>
                  exact code d tag behind htag (induction nil other hex code kept behind)
              | none =>
                  refine kept (d :: behind) ⟨hstarts, fun e he => ?_⟩
                    (induction nil other hex code kept (d :: behind))
                  rwa [← Option.some.inj he]
      · exact other c rest hc (induction nil other hex code kept rest)
termination_by t => t.length

end LegacyCode

/-! ## Flags -/

namespace Flag

/-- The text has no brackets. -/
def NoBracket (t : Text) : Prop := ∀ c ∈ t, c ≠ '<' ∧ c ≠ '>'

theorem NoBracket.tail {c : Char} {t : Text} (h : NoBracket (c :: t)) : NoBracket t :=
  fun d hd => h d (List.mem_cons_of_mem c hd)

theorem NoBracket.not_mem_concat {t : Text} (h : NoBracket t) : '<' ∉ t ++ ['>'] := by
  intro hmem
  rcases List.mem_append.mp hmem with hmem | hmem
  · exact (h '<' hmem).1 rfl
  · exact absurd (List.mem_singleton.mp hmem) (by decide)

theorem bracketed?_eq {inner : Text} (h : NoBracket inner) (behind : Text) :
    bracketed? (inner ++ '>' :: behind) = some (inner, behind) := by
  induction inner with
  | nil => rfl
  | cons c rest ih =>
      obtain ⟨hopen, hclose⟩ := h c List.mem_cons_self
      rw [List.cons_append, bracketed?, if_neg hclose, if_neg hopen, ih h.tail]
      rfl

theorem bracketed?_of_opening {before : Text} (h : NoBracket before) (behind : Text) :
    bracketed? (before ++ '<' :: behind) = none := by
  induction before with
  | nil => rfl
  | cons c rest ih =>
      obtain ⟨hopen, hclose⟩ := h c List.mem_cons_self
      rw [List.cons_append, bracketed?, if_neg hclose, if_neg hopen, ih h.tail]
      rfl

theorem bracketed?_of_noBracket {t : Text} (h : NoBracket t) : bracketed? t = none := by
  induction t with
  | nil => rfl
  | cons c rest ih =>
      obtain ⟨hopen, hclose⟩ := h c List.mem_cons_self
      rw [bracketed?, if_neg hclose, if_neg hopen, ih h.tail]
      rfl

/-- A text up to its first bracket. -/
inductive FirstBracket : Text → Prop
  | none {t : Text} : NoBracket t → FirstBracket t
  | opening {before : Text} (behind : Text) : NoBracket before →
      FirstBracket (before ++ '<' :: behind)
  | closing {inner : Text} (behind : Text) : NoBracket inner →
      FirstBracket (inner ++ '>' :: behind)

theorem firstBracket : ∀ t : Text, FirstBracket t
  | [] => .none fun _ h => absurd h List.not_mem_nil
  | c :: rest => by
      have hnil : NoBracket [] := fun _ h => absurd h List.not_mem_nil
      by_cases hopen : c = '<'
      · rw [hopen]
        exact .opening rest hnil
      by_cases hclose : c = '>'
      · rw [hclose]
        exact .closing rest hnil
      have hcons : ∀ {t : Text}, NoBracket t → NoBracket (c :: t) := by
        intro t h d hd
        rcases List.mem_cons.mp hd with rfl | hd
        · exact ⟨hopen, hclose⟩
        · exact h d hd
      cases firstBracket rest with
      | none h => exact .none (hcons h)
      | opening behind h => exact .opening behind (hcons h)
      | closing behind h => exact .closing behind (hcons h)

theorem eq_of_bracketed? {t inner behind : Text} (h : bracketed? t = some (inner, behind)) :
    NoBracket inner ∧ t = inner ++ '>' :: behind := by
  cases firstBracket t with
  | none hfree =>
      rw [bracketed?_of_noBracket hfree] at h
      cases h
  | opening b hfree =>
      rw [bracketed?_of_opening hfree] at h
      cases h
  | closing b hfree =>
      rw [bracketed?_eq hfree] at h
      obtain ⟨rfl, rfl⟩ := Prod.mk.inj (Option.some.inj h)
      exact ⟨hfree, rfl⟩

/-- The tag that a piece of text between brackets is expanded to, and how many flags are
pending behind it. -/
def expansion? (pending : Nat) (inner : Text) : Option (Text × Nat) :=
  match Shorthand.ofInner? inner, pending with
  | some (.start name), _ => (ofName? name).map fun flag => (flag.openTag, pending + 1)
  | some .finish, pending + 1 => some (closeTag, pending)
  | _, _ => none

/-- The name in a shorthand tag. -/
def nameOf (body : Text) : Text := ((Text.cutAt? ':' body).map Prod.fst).getD body

/-- The flag that a starting shorthand tag names. -/
def argumentOf (body : Text) : Text :=
  ((Text.cutAt? ':' body).map fun cut => Text.trim cut.2).getD defaultName

theorem expansion?_closing (pending : Nat) (body : Text) : expansion? pending ('/' :: body)
    = if Text.sameLetters (nameOf body) tagName then
        match pending with
        | 0 => none
        | pending + 1 => some (closeTag, pending)
      else none := by
  have hread : Shorthand.ofInner? ('/' :: body)
      = if Text.sameLetters (nameOf body) tagName then some .finish else none := by
    rw [Shorthand.ofInner?, nameOf]
    dsimp only
    cases Text.cutAt? ':' body <;> rfl
  unfold expansion?
  rw [hread]
  by_cases h : Text.sameLetters (nameOf body) tagName
  · rw [if_pos h, if_pos h]
    cases pending <;> rfl
  · rw [if_neg h, if_neg h]

theorem expansion?_opening {inner : Text} (h : inner.head? ≠ some '/') (pending : Nat) :
    expansion? pending inner
      = if Text.sameLetters (nameOf inner) tagName then
          (ofName? (argumentOf inner)).map fun flag => (flag.openTag, pending + 1)
        else none := by
  have hread : Shorthand.ofInner? inner = if Text.sameLetters (nameOf inner) tagName
      then some (.start (argumentOf inner)) else none := by
    rw [nameOf, argumentOf]
    unfold Shorthand.ofInner?
    split
    next closing body hlead =>
      split at hlead
      · exact absurd rfl h
      · obtain ⟨rfl, rfl⟩ := Prod.mk.inj hlead
        cases Text.cutAt? ':' inner <;> rfl
  unfold expansion?
  rw [hread]
  by_cases hname : Text.sameLetters (nameOf inner) tagName
  · rw [if_pos hname, if_pos hname]
  · rw [if_neg hname, if_neg hname]

theorem mem_all_of_ofName? {name : Text} {flag : Flag} (h : ofName? name = some flag) :
    flag ∈ all ∧ flag.name = Text.lower name := by
  have hname := List.find?_some h
  exact ⟨List.mem_of_find?_eq_some h, beq_iff_eq.mp hname⟩

/-- What is expanded becomes the start of a gradient in the colours of a flag, or the
end of one that is pending. -/
theorem expansion?_eq_some {pending later : Nat} {inner tag : Text}
    (h : expansion? pending inner = some (tag, later)) :
    (∃ flag ∈ all, tag = flag.openTag ∧ later = pending + 1)
      ∨ tag = closeTag ∧ pending = later + 1 := by
  unfold expansion? at h
  split at h
  · obtain ⟨flag, hflag, he⟩ := Option.map_eq_some_iff.mp h
    obtain ⟨rfl, rfl⟩ := Prod.mk.inj he
    exact Or.inl ⟨flag, (mem_all_of_ofName? hflag).1, rfl, rfl⟩
  · obtain ⟨rfl, rfl⟩ := Prod.mk.inj (Option.some.inj h)
    exact Or.inr ⟨rfl, rfl⟩
  · cases h

theorem isUnquoted_of_expansion? {pending later : Nat} {inner tag : Text}
    (h : expansion? pending inner = some (tag, later)) : ∀ c ∈ tag, Token.IsUnquoted c := by
  have hopen : ∀ flag ∈ all, flag.openTag.all fun c => Token.IsUnquoted c := by decide +kernel
  rcases expansion?_eq_some h with ⟨flag, hflag, rfl, -⟩ | ⟨rfl, -⟩
  · exact Text.forall_mem_of_all (hopen flag hflag)
  · exact Text.forall_mem_of_all (by decide)

/-- The brackets at the start of a text, if they are read at all, are not expanded. -/
def KeepsBracket (pending : Nat) (rest : Text) : Prop :=
  ∀ inner behind, bracketed? rest = some (inner, behind) → expansion? pending inner = none

theorem expandFrom_nil (pending : Nat) : expandFrom pending [] = [] := by rw [expandFrom]

theorem expandFrom_other {c : Char} (h : c ≠ '<') (pending : Nat) (rest : Text) :
    expandFrom pending (c :: rest) = c :: expandFrom pending rest := by
  rw [expandFrom, if_neg h]

theorem expandFrom_bracket (pending : Nat) (rest : Text) : expandFrom pending ('<' :: rest)
    = match bracketed? rest with
      | none => '<' :: expandFrom pending rest
      | some (inner, behind) =>
        match expansion? pending inner with
        | none => '<' :: expandFrom pending rest
        | some (tag, later) => tag ++ expandFrom later behind := by
  rw [expandFrom, if_pos rfl]
  split
  · next h => rw [h]
  · next inner behind h =>
      rw [h]
      cases hs : Shorthand.ofInner? inner with
      | none => simp only [expansion?, hs]
      | some shorthand =>
          cases shorthand with
          | start name => cases hf : ofName? name <;> simp only [expansion?, hs, hf] <;> rfl
          | finish => cases pending <;> simp only [expansion?, hs]

theorem expandFrom_expanded {pending later : Nat} {inner tag : Text} (hfree : NoBracket inner)
    (h : expansion? pending inner = some (tag, later)) (behind : Text) :
    expandFrom pending ('<' :: (inner ++ '>' :: behind)) = tag ++ expandFrom later behind := by
  rw [expandFrom_bracket, bracketed?_eq hfree]
  simp only [h]

theorem expandFrom_kept {pending : Nat} {rest : Text} (h : KeepsBracket pending rest) :
    expandFrom pending ('<' :: rest) = '<' :: expandFrom pending rest := by
  rw [expandFrom_bracket]
  cases hb : bracketed? rest with
  | none => rfl
  | some found => simp only [h found.1 found.2 hb]

theorem expandFrom_of_no_bracket {t : Text} (h : '<' ∉ t) (pending : Nat) (u : Text) :
    expandFrom pending (t ++ u) = t ++ expandFrom pending u := by
  induction t with
  | nil => rfl
  | cons c rest ih =>
      have hc : c ≠ '<' := fun e => h (e ▸ List.mem_cons_self)
      rw [List.cons_append, expandFrom_other hc, ih fun hmem => h (List.mem_cons_of_mem c hmem)]
      rfl

/-- A tag in brackets of its own that is not expanded stays as it is. -/
theorem expandFrom_bracketed {pending : Nat} {content : Text} (hfree : NoBracket content)
    (h : expansion? pending content = none) (u : Text) :
    expandFrom pending ('<' :: (content ++ '>' :: u))
      = '<' :: (content ++ '>' :: expandFrom pending u) := by
  have hkeeps : KeepsBracket pending (content ++ '>' :: u) := by
    intro inner behind hb
    rw [bracketed?_eq hfree] at hb
    obtain ⟨rfl, -⟩ := Prod.mk.inj (Option.some.inj hb)
    exact h
  rw [expandFrom_kept hkeeps, List.append_cons, expandFrom_of_no_bracket hfree.not_mem_concat,
    List.append_assoc]
  rfl

/-- The brackets at the start of a text are kept, or they make a tag. -/
theorem keepsBracket_or_expanded (pending : Nat) (rest : Text) : KeepsBracket pending rest
    ∨ ∃ inner tag later behind, NoBracket inner ∧ expansion? pending inner = some (tag, later)
        ∧ rest = inner ++ '>' :: behind := by
  by_cases hkeeps : KeepsBracket pending rest
  · exact Or.inl hkeeps
  · simp only [KeepsBracket, not_forall] at hkeeps
    obtain ⟨inner, behind, hb, hexpansion⟩ := hkeeps
    obtain ⟨⟨tag, later⟩, htag⟩ := Option.ne_none_iff_exists'.mp hexpansion
    obtain ⟨hfree, he⟩ := eq_of_bracketed? hb
    exact Or.inr ⟨inner, tag, later, behind, hfree, htag, he⟩

/-- Along the steps of `expandFrom`. -/
theorem induction {motive : Nat → Text → Prop} (nil : ∀ pending, motive pending [])
    (other : ∀ pending c rest, c ≠ '<' → motive pending rest → motive pending (c :: rest))
    (expanded : ∀ pending inner tag later behind, NoBracket inner →
      expansion? pending inner = some (tag, later) → motive later behind →
      motive pending ('<' :: (inner ++ '>' :: behind)))
    (kept : ∀ pending rest, KeepsBracket pending rest → motive pending rest →
      motive pending ('<' :: rest)) : ∀ pending t, motive pending t
  | pending, [] => nil pending
  | pending, c :: rest => by
      by_cases hc : c = '<'
      · rw [hc]
        rcases keepsBracket_or_expanded pending rest with
          hkeeps | ⟨inner, tag, later, behind, hfree, htag, he⟩
        · exact kept pending rest hkeeps (induction nil other expanded kept pending rest)
        · have hshorter : behind.length < rest.length + 1 := by
            rw [he, List.length_append, List.length_cons]
            omega
          rw [he]
          exact expanded pending inner tag later behind hfree htag
            (induction nil other expanded kept later behind)
      · exact other pending c rest hc (induction nil other expanded kept pending rest)
termination_by _ t => t.length

end Flag

end StyledChat
