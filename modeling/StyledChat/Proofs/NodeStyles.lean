/-
The styles set on the nodes of a tree, and where they come from.

Reading a text builds a tree out of three kinds of style only: that of its root
and of its text leaves, which sets nothing, and those of the tags it opened
(`mem_styles_parseWith`).  So whatever holds of the empty style and of the style
of every tag in a vocabulary holds of every node of every tree that is read with
it, whatever the text.  The argument is the same at each step of the reader:
ending tags moves styles about and makes none.
-/
import StyledChat.Proofs.Draft
import StyledChat.Proofs.Spans

namespace StyledChat

mutual

/-- The styles of all nodes of a tree, in reading order; those inside hover trees
are not among them. -/
def Component.styles : Component → List Style
  | ⟨_, style, children⟩ => style :: stylesOfAll children

def stylesOfAll : List Component → List Style
  | [] => []
  | c :: rest => c.styles ++ stylesOfAll rest

end

theorem stylesOfAll_append (cs ds : List Component) :
    stylesOfAll (cs ++ ds) = stylesOfAll cs ++ stylesOfAll ds := by
  induction cs with
  | nil => rfl
  | cons c rest ih => rw [List.cons_append, stylesOfAll, stylesOfAll, ih, List.append_assoc]

theorem stylesOfAll_singleton (c : Component) : stylesOfAll [c] = c.styles :=
  List.append_nil _

mutual

theorem Component.isInteractive_eq_any : ∀ c : Component,
    c.isInteractive = c.styles.any Style.isInteractive
  | ⟨_, style, children⟩ => by
      rw [Component.isInteractive, Component.styles, List.any_cons,
        anyInteractive_eq_any children]

theorem anyInteractive_eq_any : ∀ cs : List Component,
    anyInteractive cs = (stylesOfAll cs).any Style.isInteractive
  | [] => rfl
  | c :: rest => by
      rw [anyInteractive, stylesOfAll, List.any_append, c.isInteractive_eq_any,
        anyInteractive_eq_any rest]

end

mutual

/-- The nodes above a character are nodes of the tree. -/
theorem Component.style_mem_of_mem_characters : ∀ (c : Component),
    ∀ a ∈ c.characters, ∀ l ∈ a.2, l.style ∈ c.styles
  | ⟨text, style, children⟩, a, ha, l, hl => by
      rcases Component.level_cases ha hl with ⟨b, hb, hl⟩ | ⟨rank, -, rfl⟩
      · exact List.mem_cons_of_mem _ (style_mem_of_mem_charactersOfAll children b hb l hl)
      · exact List.mem_cons_self

theorem style_mem_of_mem_charactersOfAll : ∀ (cs : List Component),
    ∀ a ∈ charactersOfAll cs, ∀ l ∈ a.2, l.style ∈ stylesOfAll cs
  | c :: rest, a, ha, l, hl => by
      rcases List.mem_append.mp ha with ha | ha
      · exact List.mem_append_left _ (c.style_mem_of_mem_characters a ha l hl)
      · exact List.mem_append_right _ (style_mem_of_mem_charactersOfAll rest a ha l hl)

end

/-! ## The tree under construction -/

namespace Draft

/-- The styles of all nodes of a draft, those of its open tags included. -/
def styles (d : Draft) : List Style :=
  stylesOfAll d.here ++ d.openTags.flatMap fun tag => tag.style :: stylesOfAll tag.before

theorem mem_styles_addText {children : List Component} {t : Text} {s : Style}
    (h : s ∈ stylesOfAll (addText children t)) : s ∈ stylesOfAll children ∨ s = Style.empty := by
  by_cases ht : t = []
  · subst ht
    exact Or.inl h
  · rcases addText_cases children ht with ⟨before, text, hc, ha⟩ | ⟨-, ha⟩
    · rw [ha, stylesOfAll_append] at h
      rw [hc, stylesOfAll_append]
      exact Or.inl h
    · rw [ha, stylesOfAll_append] at h
      rcases List.mem_append.mp h with h | h
      · exact Or.inl h
      · exact Or.inr (by simpa [stylesOfAll, Component.leaf, Component.styles] using h)

/-- A tag that ends becomes a node: its style and those it holds stay. -/
theorem styles_wrap (tag : OpenTag) (here : List Component) (outer : List OpenTag) (s : Style) :
    s ∈ styles ⟨tag.wrap here, outer⟩ ↔ s ∈ styles ⟨here, tag :: outer⟩ := by
  simp only [styles, OpenTag.wrap, stylesOfAll_append, stylesOfAll_singleton, Component.node,
    Component.styles, List.flatMap_cons, List.mem_append, List.mem_cons]
  tauto

theorem mem_styles_endAll (s : Style) : ∀ (tags : List OpenTag) (here : List Component),
    s ∈ stylesOfAll (endAll here tags) ↔ s ∈ styles ⟨here, tags⟩
  | [], here => by simp [endAll, styles]
  | tag :: outer, here => by
      rw [endAll, mem_styles_endAll s outer, styles_wrap]

theorem mem_styles_endThrough {name : Text} {d : Draft} (s : Style) :
    ∀ {tags : List OpenTag} {here : List Component}, endThrough? name here tags = some d →
      (s ∈ d.styles ↔ s ∈ styles ⟨here, tags⟩)
  | tag :: outer, here, h => by
      unfold endThrough? at h
      split at h
      · obtain rfl := Option.some.inj h
        exact styles_wrap tag here outer s
      · exact (mem_styles_endThrough s h).trans (styles_wrap tag here outer s)

/-! ### What one token adds -/

/-- The style is that of a tag, opened by `tok`, that the vocabulary has. -/
def Opens (v : Vocabulary) (read : Text → Component) (tok : Token) (s : Style) : Prop :=
  ∃ tag meaning, tok = .opening tag ∧ allowedTag? v tag = some meaning ∧ s = meaning.style read

theorem mem_styles_text {d : Draft} {t : Text} {s : Style} (h : s ∈ (d.text t).styles) :
    s ∈ d.styles ∨ s = Style.empty := by
  rcases List.mem_append.mp h with h | h
  · exact (mem_styles_addText h).imp_left (List.mem_append_left _)
  · exact Or.inl (List.mem_append_right _ h)

theorem mem_styles_openTag {d : Draft} {name key : Text} {style s : Style}
    (h : s ∈ (d.openTag name key style).styles) : s ∈ d.styles ∨ s = style := by
  simp only [openTag, styles, stylesOfAll, List.nil_append, List.flatMap_cons, List.mem_append,
    List.mem_cons] at h ⊢
  tauto

theorem mem_styles_opened {read : Text → Component} {d : Draft} {name : Text} {meaning : Tag}
    {s : Style} (h : s ∈ (d.opened read name meaning).styles) :
    s ∈ d.styles ∨ s = Style.empty ∨ s = meaning.style read := by
  cases meaning with
  | reset => exact Or.inl (by simpa [opened, reset, styles, mem_styles_endAll] using h)
  | newline => exact (mem_styles_text h).imp_right Or.inl
  | color | decoration | fill | click | hover | insertion | font =>
      exact (mem_styles_openTag h).imp_right Or.inr

/-- A token adds plain leaves and, when it opens a tag, the style of that tag. -/
theorem mem_styles_step {v : Vocabulary} {read : Text → Component} {d : Draft} {tok : Token}
    {s : Style} (h : s ∈ (d.step v read tok).styles) :
    s ∈ d.styles ∨ s = Style.empty ∨ Opens v read tok s := by
  cases tok with
  | text raw => exact (mem_styles_text h).imp_right Or.inl
  | opening tag =>
      cases hm : allowedTag? v tag with
      | none =>
          rw [step_refused hm] at h
          exact (mem_styles_text h).imp_right Or.inl
      | some meaning =>
          rw [step_opened hm] at h
          rcases mem_styles_opened h with h | h | h
          · exact Or.inl h
          · exact Or.inr (Or.inl h)
          · exact Or.inr (Or.inr ⟨tag, meaning, rfl, hm, h⟩)
  | closing tag =>
      cases hc : endThrough? tag.name d.here d.openTags with
      | none =>
          rw [step_orphan hc] at h
          exact (mem_styles_text h).imp_right Or.inl
      | some closed =>
          rw [step_closed hc] at h
          exact Or.inl ((mem_styles_endThrough s hc).mp h)

theorem mem_styles_foldl {v : Vocabulary} {read : Text → Component} {s : Style} :
    ∀ {tokens : List Token} {d : Draft}, s ∈ (tokens.foldl (step v read) d).styles →
      s ∈ d.styles ∨ s = Style.empty ∨ ∃ tok ∈ tokens, Opens v read tok s
  | [], _, h => Or.inl h
  | tok :: rest, d, h => by
      have hrest : s ∈ (rest.foldl (step v read) (d.step v read tok)).styles := h
      rcases mem_styles_foldl hrest with h | h | ⟨later, hmem, h⟩
      · rcases mem_styles_step h with h | h | h
        · exact Or.inl h
        · exact Or.inr (Or.inl h)
        · exact Or.inr (Or.inr ⟨tok, List.mem_cons_self, h⟩)
      · exact Or.inr (Or.inl h)
      · exact Or.inr (Or.inr ⟨later, List.mem_cons_of_mem _ hmem, h⟩)

end Draft

/-- The styles of a tree that was read: the empty one, and those of the tags that
were opened. -/
theorem mem_styles_parseWith {v : Vocabulary} {read : Text → Component} {t : Text} {s : Style}
    (h : s ∈ (parseWith v read t).styles) :
    s = Style.empty ∨ ∃ tok ∈ Token.ofText t, Draft.Opens v read tok s := by
  rcases List.mem_cons.mp h with h | h
  · exact Or.inl h
  · rw [Draft.mem_styles_endAll] at h
    rcases Draft.mem_styles_foldl h with h | h | h
    · cases h
    · exact Or.inl h
    · exact Or.inr h

end StyledChat
