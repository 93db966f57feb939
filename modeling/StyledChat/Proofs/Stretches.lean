/-
Reading on from a draft.

What a text adds to a draft can be read off its first stretch: a stretch of text is
added as it reads and a tag takes its step, and the rest is read on from there
(`readOn_stretch`, `readOn_tag`).  A stretch of text need not be a whole token.  It
may be cut off anywhere but behind a `\`, since added texts are joined.

Escaping every `<` makes a text a stretch that reads as the text
(`readOn_escape`).
-/
import StyledChat.Proofs.Draft

namespace StyledChat

/-- The draft after a text is read. -/
def Draft.readOn (v : Vocabulary) (read : Text → Component) (d : Draft) (t : Text) : Draft :=
  (Token.ofText t).foldl (Draft.step v read) d

/-- The text with a `\` before every `<`. -/
def Text.escape (t : Text) : Text := t.flatMap fun c => if c = '<' then ['\\', '<'] else [c]

theorem Text.escape_cons (c : Char) (rest : Text) :
    Text.escape (c :: rest) = (if c = '<' then ['\\', '<'] else [c]) ++ Text.escape rest :=
  List.flatMap_cons

theorem Text.getLast?_escape (t : Text) : (Text.escape t).getLast? = t.getLast? := by
  induction t with
  | nil => rfl
  | cons c rest ih =>
      rw [Text.escape_cons, List.getLast?_append, ih, List.getLast?_cons]
      cases rest.getLast? with
      | none => split <;> simp_all
      | some d => rfl

namespace Token

/-! ## The first token -/

theorem first_tag {rest behind : Text} {tok : Token} (h : tag? rest = some (tok, behind)) :
    first '<' rest = (tok, behind) := by
  rw [first, if_pos rfl, h]
  rfl

theorem first_bracket {rest : Text} (h : tag? rest = none) :
    first '<' rest = (.text ['<'], rest) := by
  rw [first, if_pos rfl, h]
  rfl

theorem first_text {c : Char} (hc : c ≠ '<') (rest : Text) : first c rest
    = (.text (cutText false (c :: rest)).1, (cutText false (c :: rest)).2) := by
  rw [first, if_neg hc]

/-! ## Stretches of text -/

theorem cutText_bracket (rest : Text) : cutText false ('<' :: rest) = ([], '<' :: rest) :=
  if_pos ⟨rfl, rfl⟩

theorem cutText_cons {c : Char} {escaped : Bool} (h : ¬(c = '<' ∧ !escaped)) (rest : Text) :
    cutText escaped (c :: rest)
      = (c :: (cutText (c == '\\') rest).1, (cutText (c == '\\') rest).2) := by
  rw [cutText, if_neg h]

/-- A text is one stretch when it has no `<` without a `\` before it. -/
def IsStretch (escaped : Bool) (t : Text) : Prop := (cutText escaped t).2 = []

theorem IsStretch.not_bracket {c : Char} {rest : Text} {escaped : Bool}
    (h : IsStretch escaped (c :: rest)) : ¬(c = '<' ∧ !escaped) := by
  intro hc
  rw [IsStretch, cutText, if_pos hc] at h
  cases h

theorem IsStretch.tail {c : Char} {rest : Text} {escaped : Bool}
    (h : IsStretch escaped (c :: rest)) : IsStretch (c == '\\') rest := by
  have hc := h.not_bracket
  rwa [IsStretch, cutText_cons hc] at h

theorem isStretch_of_no_bracket {t : Text} (h : '<' ∉ t) (escaped : Bool) : IsStretch escaped t := by
  induction t generalizing escaped with
  | nil => rfl
  | cons c rest ih =>
      have hc : ¬(c = '<' ∧ !escaped) := fun e => h (e.1 ▸ List.mem_cons_self)
      rw [IsStretch, cutText_cons hc]
      exact ih (fun hmem => h (List.mem_cons_of_mem c hmem)) _

/-- Behind a stretch that does not end in `\`, text goes on as if it began there. -/
theorem cutText_append {p : Text} {escaped : Bool} (h : IsStretch escaped p) (hne : p ≠ [])
    (hlast : p.getLast? ≠ some '\\') (u : Text) :
    cutText escaped (p ++ u) = (p ++ (cutText false u).1, (cutText false u).2) := by
  induction p generalizing escaped with
  | nil => exact absurd rfl hne
  | cons c rest ih =>
      rw [List.cons_append, cutText_cons h.not_bracket]
      cases rest with
      | nil =>
          have hc : (c == '\\') = false := by
            rw [beq_eq_false_iff_ne]
            exact fun e => hlast (congrArg some e)
          rw [hc]
          rfl
      | cons e more =>
          rw [ih h.tail (List.cons_ne_nil _ _) hlast]
          rfl

theorem isStretch_cutText (t : Text) (escaped : Bool) : IsStretch escaped (cutText escaped t).1 := by
  induction t generalizing escaped with
  | nil => rfl
  | cons c rest ih =>
      by_cases hc : c = '<' ∧ !escaped
      · rw [cutText, if_pos hc]
        rfl
      · rw [cutText_cons hc, IsStretch, cutText_cons hc]
        exact ih _

/-- A stretch that ends before the text does, ends before a `<` that is not escaped. -/
theorem getLast?_cutText {t : Text} {escaped : Bool} (h : (cutText escaped t).2 ≠ []) :
    (cutText escaped t).1.getLast? ≠ some '\\' := by
  induction t generalizing escaped with
  | nil => exact absurd rfl h
  | cons c rest ih =>
      by_cases hc : c = '<' ∧ !escaped
      · rw [cutText, if_pos hc]
        intro e
        cases e
      · rw [cutText_cons hc] at h ⊢
        have hlast := ih h
        cases hrun : (cutText (c == '\\') rest).1 with
        | cons e more =>
            rw [hrun] at hlast
            exact hlast
        | nil =>
            -- nothing is read behind `c`, so `c` escapes nothing
            intro e
            obtain rfl : c = '\\' := Option.some.inj e
            cases rest with
            | nil => exact h rfl
            | cons e more =>
                rw [cutText_cons (by simp)] at hrun
                cases hrun

theorem unescape_append {p : Text} (hlast : p.getLast? ≠ some '\\') (u : Text) :
    unescape (p ++ u) = unescape p ++ unescape u := by
  induction p with
  | nil => rfl
  | cons c rest ih =>
      cases rest with
      | nil =>
          have hc : c ≠ '\\' := fun e => hlast (congrArg some e)
          rw [List.singleton_append, unescape, if_neg fun h => hc h.1, unescape,
            if_neg fun h => hc h.1]
          rfl
      | cons e more =>
          rw [List.cons_append, unescape, unescape, ih hlast]
          by_cases h : c = '\\' ∧ (e :: more).head? = some '<'
          · rw [if_pos h]
            exact if_pos h
          · rw [if_neg h]
            exact if_neg h

theorem unescape_of_no_slash {t : Text} (h : '\\' ∉ t) : unescape t = t := by
  induction t with
  | nil => rfl
  | cons c rest ih =>
      have hc : c ≠ '\\' := fun e => h (e ▸ List.mem_cons_self)
      rw [unescape, if_neg fun e => hc e.1, ih fun hmem => h (List.mem_cons_of_mem c hmem)]

/-! ### Escaped texts -/

theorem isStretch_escape (t : Text) (escaped : Bool) : IsStretch escaped (Text.escape t) := by
  induction t generalizing escaped with
  | nil => rfl
  | cons c rest ih =>
      rw [Text.escape_cons]
      by_cases h : c = '<'
      · -- the `\` itself may stand behind another one
        rw [if_pos h, IsStretch, List.cons_append, cutText_cons (by simp), List.singleton_append,
          cutText_cons (by decide)]
        exact ih _
      · rw [if_neg h, IsStretch, List.singleton_append, cutText_cons fun e => h e.1]
        exact ih _

theorem unescape_escape (t : Text) : unescape (Text.escape t) = t := by
  induction t with
  | nil => rfl
  | cons c rest ih =>
      rw [Text.escape_cons]
      by_cases h : c = '<'
      · rw [if_pos h, h, List.cons_append, unescape, if_pos ⟨rfl, rfl⟩, List.singleton_append,
          unescape, if_neg fun e => absurd e.1 (by decide), ih]
      · have hhead : (Text.escape rest).head? ≠ some '<' := by
          cases rest with
          | nil => exact fun e => nomatch e
          | cons e more =>
              rw [Text.escape_cons]
              split
              · exact fun he => absurd (Option.some.inj he) (by decide)
              · next he => exact fun he' => he (Option.some.inj he')
        rw [if_neg h, List.singleton_append, unescape, if_neg fun e => hhead e.2, ih]

end Token

/-! ## Adding texts -/

namespace Draft

/-- Texts that are added one after the other are joined. -/
theorem addText_addText (children : List Component) (t u : Text) :
    addText (addText children t) u = addText children (t ++ u) := by
  by_cases ht : t = []
  · rw [ht]
    rfl
  · by_cases hu : u = []
    · rw [hu, List.append_nil]
      rfl
    · have htu : t ++ u ≠ [] := List.append_ne_nil_of_left_ne_nil ht u
      rcases children.eq_nil_or_concat with rfl | ⟨before, last, rfl⟩
      · have hone : ∀ {t : Text}, t ≠ [] → addText [] t = [Component.leaf t] := fun ht =>
          if_neg (by simpa using ht)
        rw [hone ht, hone htu]
        exact addText_leaf [] t hu
      · by_cases hlast : last.isLeaf
        · rw [List.concat_eq_append, isLeaf_iff.mp hlast, addText_leaf before _ ht,
            addText_leaf before _ hu, addText_leaf before _ htu, List.append_assoc]
        · rw [List.concat_eq_append, addText_other before hlast ht,
            addText_leaf (before ++ [last]) t hu, addText_other before hlast htu]

theorem text_text (d : Draft) (t u : Text) : (d.text t).text u = d.text (t ++ u) :=
  congrArg (Draft.mk · d.openTags) (addText_addText d.here t u)

/-! ## Reading on -/

variable {v : Vocabulary} {read : Text → Component}

theorem readOn_nil (d : Draft) : d.readOn v read [] = d := by
  rw [readOn, Token.ofText]
  rfl

theorem readOn_cons (d : Draft) (c : Char) (rest : Text) : d.readOn v read (c :: rest)
    = (d.step v read (Token.first c rest).1).readOn v read (Token.first c rest).2 := by
  rw [readOn, Token.ofText]
  rfl

/-- A tag takes its step. -/
theorem readOn_tag (d : Draft) {rest behind : Text} {tok : Token}
    (h : Token.tag? rest = some (tok, behind)) :
    d.readOn v read ('<' :: rest) = (d.step v read tok).readOn v read behind := by
  rw [readOn_cons, Token.first_tag h]

/-- A `<` that starts no tag is text. -/
theorem readOn_bracket (d : Draft) {rest : Text} (h : Token.tag? rest = none) :
    d.readOn v read ('<' :: rest) = (d.text ['<']).readOn v read rest := by
  rw [readOn_cons, Token.first_bracket h]
  rfl

/-- Text up to the next `<` is added as it reads. -/
theorem readOn_text (d : Draft) {c : Char} (hc : c ≠ '<') (rest : Text) :
    d.readOn v read (c :: rest)
      = (d.text (Token.unescape (Token.cutText false (c :: rest)).1)).readOn v read
          (Token.cutText false (c :: rest)).2 := by
  rw [readOn_cons, Token.first_text hc]
  rfl

/-- The same for any text, which may begin with a `<`. -/
theorem readOn_cutText (d : Draft) (t : Text) : d.readOn v read t
    = (d.text (Token.unescape (Token.cutText false t).1)).readOn v read
        (Token.cutText false t).2 := by
  cases t with
  | nil => rfl
  | cons c rest =>
      by_cases hc : c = '<'
      · rw [hc, Token.cutText_bracket]
        rfl
      · exact readOn_text d hc rest

/-- A stretch of text is added as it reads, whatever follows. -/
theorem readOn_stretch (d : Draft) {p : Text} (h : Token.IsStretch false p)
    (hlast : p.getLast? ≠ some '\\') (u : Text) :
    d.readOn v read (p ++ u) = (d.text (Token.unescape p)).readOn v read u := by
  by_cases hp : p = []
  · rw [hp]
    rfl
  · rw [readOn_cutText d (p ++ u), Token.cutText_append h hp hlast, Token.unescape_append hlast,
      ← text_text, ← readOn_cutText]

/-- An escaped text is added, whatever follows. -/
theorem readOn_escape (d : Draft) {t : Text} (hlast : t.getLast? ≠ some '\\') (u : Text) :
    d.readOn v read (Text.escape t ++ u) = (d.text t).readOn v read u := by
  rw [readOn_stretch d (Token.isStretch_escape t false) (by rwa [Text.getLast?_escape]),
    Token.unescape_escape]

end Draft

/-! ## Whole texts -/

theorem parse_eq_readOn (v : Vocabulary) (t : Text) :
    parse v t = (Draft.readOn v (parse v) {} t).finish :=
  parse_eq v t

end StyledChat
