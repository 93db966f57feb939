/-
Writing a tree down and reading it back.

A node is written as the tags that set its properties, its text with every `<`
escaped, its children, and the tags that end it (`Component.markup`).  Hover text is
written the same way, between quotes, inside its tag.

Trees in normal form are read back as they were (`parse_markup`).  The written form of
nodes side by side adds these nodes to whatever draft it is read into
(`NormalNodes.readOn_markupOfAll`): their tags end before anything behind them is read,
and of their texts only one that ends in `\` could run on.
-/
import StyledChat.Proofs.NormalForm
import StyledChat.Proofs.Scan
import StyledChat.Proofs.Stretches
import StyledChat.Proofs.WrittenTags

namespace StyledChat

/-! ## Written trees -/

/-- The tag that ends what a tag of this form opened. -/
def TagForm.plain (f : TagForm) : TagForm := ⟨f.name, [], f.named⟩

/-- The opening tags of some meanings. -/
def Tag.openAll (tags : List Tag) : Text := tags.flatMap fun tag => tag.form.opening

/-- The tags that end them, the last one first. -/
def Tag.closeAll (tags : List Tag) : Text :=
  tags.reverse.flatMap fun tag => tag.form.plain.closing

def Decorations.tags (s : Decorations) : List Tag :=
  Decoration.all.filterMap fun d => (s.get d).map (Tag.decoration d)

mutual

/-- The tags that set the properties of a style. -/
def Style.tags : Style → List Tag
  | ⟨color, fill, decorations, click, hover, insertion, font⟩ =>
    color.toList.map Tag.color ++ fill.toList.map Tag.fill ++ decorations.tags
      ++ click.toList.map Tag.click ++ hoverTags hover ++ insertion.toList.map Tag.insertion
      ++ font.toList.map Tag.font

def hoverTags : Option Component → List Tag
  | none => []
  | some c => [.hover c.markup]

/-- The tree as it is written. -/
def Component.markup : Component → Text
  | ⟨text, style, children⟩ =>
    Tag.openAll style.tags ++ (Text.escape text ++ (markupOfAll children
      ++ Tag.closeAll style.tags))

def markupOfAll : List Component → Text
  | [] => []
  | c :: rest => c.markup ++ markupOfAll rest

end

theorem Component.markup_leaf (t : Text) : (Component.leaf t).markup = Text.escape t := by
  rw [leaf, markup]
  exact List.append_nil _

theorem Component.markup_node {style : Style} {tag : Tag} (h : style.tags = [tag])
    (children : List Component) : (Component.node style children).markup
      = tag.form.opening ++ (markupOfAll children ++ tag.form.plain.closing) := by
  rw [node, markup, h, Tag.openAll, Tag.closeAll, List.flatMap_singleton, List.reverse_singleton,
    List.flatMap_singleton]
  rfl

/-! ## Reading written tags -/

/-- The tag makes sense, is in the vocabulary, and opens a node of this style. -/
structure Tag.Sets (v : Vocabulary) (tag : Tag) (style : Style) : Prop where
  fits : tag.Fits
  allowed : v.allows tag.group
  opened_eq : ∀ (d : Draft) (name : Text),
    d.opened (parse v) name tag = d.openTag name tag.closeKey style

namespace Draft

variable {v : Vocabulary} {read : Text → Component}

theorem readOn_opening {tag : Tag} {style : Style} (h : tag.Sets v style) (d : Draft) (u : Text) :
    d.readOn v (parse v) (tag.form.opening ++ u)
      = (d.openTag (Text.lower tag.form.name) tag.closeKey style).readOn v (parse v) u := by
  have hmeaning : allowedTag? v tag.form.opened = some tag :=
    allowedTag?_eq_some_iff.mpr ⟨Tag.resolve?_form h.fits, h.allowed⟩
  have htag : Token.tag? (tag.form.content ++ ['>'] ++ u) = some (.opening tag.form.opened, u) := by
    rw [List.append_assoc]
    exact tag.form.tag?_opening u
  rw [TagForm.opening, List.cons_append, readOn_tag d htag, step_opened hmeaning, h.opened_eq]
  rfl

/-- A tag is ended by the tag of the same name. -/
theorem readOn_closing (f : TagForm) (key : Text) (style : Style)
    (before inside : List Component) (outer : List OpenTag) (u : Text) :
    (Draft.mk inside (⟨Text.lower f.name, key, style, before⟩ :: outer)).readOn v read
        (f.plain.closing ++ u)
      = (Draft.mk (before ++ [Component.node style inside]) outer).readOn v read u := by
  have hended : (OpenTag.mk (Text.lower f.name) key style before).endedBy
      (Text.lower f.name) := by
    rw [OpenTag.endedBy, beq_self_eq_true, Bool.true_or]
  have htag : Token.tag? ('/' :: (f.plain.content ++ ['>']) ++ u)
      = some (.closing f.plain.closed, u) := by
    rw [List.cons_append, List.append_assoc]
    exact f.plain.tag?_closing u
  rw [TagForm.closing, List.cons_append, readOn_tag _ htag]
  exact congrArg (readOn v read · u) (step_closed (if_pos hended))

/-- A leaf is added as one unless another stands before it. -/
theorem addText_of_not_leaf {children : List Component} (h : ∀ c ∈ children.getLast?, ¬c.isLeaf)
    {t : Text} (ht : t ≠ []) : addText children t = children ++ [Component.leaf t] := by
  rcases addText_cases children ht with ⟨before, text, rfl, -⟩ | ⟨-, hadded⟩
  · have hleaf : (Component.leaf text).isLeaf := isLeaf_iff.mpr rfl
    exact absurd hleaf (h _ (by rw [List.getLast?_concat]; exact rfl))
  · exact hadded

end Draft

/-! ## Reading written trees -/

mutual

/-- A tree in normal form is read back. -/
theorem NormalTree.parse_markup_eq {v : Vocabulary} : ∀ {c : Component}, NormalTree v c →
    (∀ t ∈ c.allTexts, t.getLast? ≠ some '\\') → parse v c.markup = c
  | _, .root h, hends => by
      have hread := h.readOn_markupOfAll
        (fun t ht => hends t (List.mem_cons_of_mem _ (List.mem_append_right _ ht))) {} []
        (fun _ _ _ _ hlast => nomatch hlast)
      rw [Draft.readOn_nil] at hread
      rw [parse_eq_readOn]
      exact congrArg Draft.finish hread

/-- Nodes in normal form are added to what stands before them, if that does not end in
a leaf that they begin with one. -/
theorem NormalNodes.readOn_markupOfAll {v : Vocabulary} : ∀ {cs : List Component},
    NormalNodes v cs → (∀ t ∈ allTextsOfAll cs, t.getLast? ≠ some '\\') →
    ∀ (d : Draft) (u : Text),
      (∀ c ∈ cs.head?, c.isLeaf → ∀ e ∈ d.here.getLast?, ¬e.isLeaf) →
      d.readOn v (parse v) (markupOfAll cs ++ u)
        = (Draft.mk (d.here ++ cs) d.openTags).readOn v (parse v) u
  | _, .nil, _, d, u, _ => by
      rw [markupOfAll, List.append_nil]
      rfl
  | _, @NormalNodes.leaf _ text rest htext hnext hrest, hends, d, u, hapart => by
      have hlast : text.getLast? ≠ some '\\' := hends text List.mem_cons_self
      have hleaf : (Component.leaf text).isLeaf := Draft.isLeaf_iff.mpr rfl
      have hadded : d.text text = ⟨d.here ++ [Component.leaf text], d.openTags⟩ :=
        congrArg (Draft.mk · d.openTags)
          (Draft.addText_of_not_leaf (hapart _ rfl hleaf) htext)
      have hbehind := hrest.readOn_markupOfAll
        (fun t ht => hends t (List.mem_append_right _ ht)) (d.text text) u
        (fun c hc hleaf => absurd hleaf (hnext c hc))
      rw [markupOfAll, Component.markup_leaf, List.append_assoc, Draft.readOn_escape d hlast,
        hbehind, hadded, List.append_assoc]
      rfl
  | _, @NormalNodes.node _ style children rest hstyle hchildren hrest, hends, d, u, hapart => by
      obtain ⟨tag, htags, hsets⟩ := hstyle.exists_tag fun t ht =>
        hends t (List.mem_append_left _ (List.mem_cons_of_mem _ (List.mem_append_left _ ht)))
      have hinside := hchildren.readOn_markupOfAll
        (fun t ht =>
          hends t (List.mem_append_left _ (List.mem_cons_of_mem _ (List.mem_append_right _ ht))))
        (d.openTag (Text.lower tag.form.name) tag.closeKey style)
        (tag.form.plain.closing ++ (markupOfAll rest ++ u)) (fun _ _ _ _ hlast => nomatch hlast)
      have hbehind := hrest.readOn_markupOfAll
        (fun t ht => hends t (List.mem_append_right _ ht))
        ⟨d.here ++ [Component.node style children], d.openTags⟩ u
        (fun c _ _ e he => by
          rw [List.getLast?_concat] at he
          exact Option.some.inj he ▸ hstyle.not_isLeaf children)
      rw [markupOfAll, Component.markup_node htags]
      simp only [List.append_assoc]
      rw [Draft.readOn_opening hsets, hinside]
      refine (Draft.readOn_closing tag.form tag.closeKey style d.here children d.openTags _).trans
        ?_
      rw [hbehind, List.append_assoc]
      rfl

/-- A style in normal form is that of one tag. -/
theorem OneProperty.exists_tag {v : Vocabulary} : ∀ {style : Style}, OneProperty v style →
    (∀ t ∈ style.hoverTexts, t.getLast? ≠ some '\\') →
      ∃ tag, style.tags = [tag] ∧ tag.Sets v style
  | _, .color c, _ => ⟨.color c, rfl, trivial, by cases v <;> rfl, fun _ _ => rfl⟩
  | _, .decoration d on, _ =>
      ⟨.decoration d on, by cases d <;> rfl, trivial, by cases v <;> rfl, fun _ _ => rfl⟩
  | _, .gradient hstops, _ =>
      ⟨.fill (.gradient _), rfl, hstops, by cases v <;> rfl, fun _ _ => rfl⟩
  | _, .rainbow phase reversed, _ =>
      ⟨.fill (.rainbow phase reversed), rfl, trivial, by cases v <;> rfl, fun _ _ => rfl⟩
  | _, .click event hallowed, _ => ⟨.click event, rfl, trivial, hallowed, fun _ _ => rfl⟩
  | _, @OneProperty.hover _ tree hallowed htree, hends => by
      refine ⟨.hover tree.markup, rfl, trivial, hallowed, fun d name => ?_⟩
      have hread : parse v tree.markup = tree := htree.parse_markup_eq hends
      show d.openTag name _ { hover := some (parse v tree.markup) } = _
      rw [hread]
  | _, .insertion t hallowed, _ => ⟨.insertion t, rfl, trivial, hallowed, fun _ _ => rfl⟩
  | _, .font hallowed hkey, _ => ⟨.font _, rfl, hkey, hallowed, fun _ _ => rfl⟩

end

/-- A tree in normal form, none of whose texts ends in a `\`, is what its written form
reads as.  The styling tags are enough for one that is only styled. -/
theorem parse_markup {c : Component} (h : NormalTree .trusted c)
    (hends : ∀ t ∈ c.allTexts, t.getLast? ≠ some '\\') :
    parse .trusted c.markup = c
      ∧ ((∀ s ∈ c.styles, s.isInteractive = false ∧ s.font = none) →
          parse .restricted c.markup = c) :=
  ⟨h.parse_markup_eq hends, fun hstyling => (h.restricted hstyling).parse_markup_eq hends⟩

/-- A text with a hover text that has a quote and a tag in it. -/
def hoverSample : Component :=
  .node .empty [.leaf "1 < 2 ".toList,
    .node { hover := some (.node .empty [.leaf "it's ".toList,
      .node (Style.empty.decorate .bold true) [.leaf "so".toList]]) } [.leaf "hi".toList]]

/-- A colour inside a reversed rainbow. -/
def styledSample : Component :=
  .node .empty [.node { fill := some (.rainbow 7 true) } [.leaf "a".toList,
    .node { color := some (.rgb ⟨0xff, 0, 0xaa⟩) } [.leaf "b".toList]]]

theorem parse_markup_of_samples :
    (NormalTree .trusted hoverSample ∧ (∀ t ∈ hoverSample.allTexts, t.getLast? ≠ some '\\')
        ∧ parse .trusted hoverSample.markup = hoverSample)
      ∧ NormalTree .trusted styledSample
        ∧ (∀ t ∈ styledSample.allTexts, t.getLast? ≠ some '\\')
        ∧ (∀ s ∈ styledSample.styles, s.isInteractive = false ∧ s.font = none)
        ∧ parse .restricted styledSample.markup = styledSample := by
  have hhover : NormalTree .trusted hoverSample := by
    refine .root (.leaf (by decide) (by decide +kernel) (.node (.hover rfl (.root ?_)) ?_ .nil))
    · exact .leaf (by decide) (by decide +kernel)
        (.node (.decoration .bold true) (.leaf (by decide) (by decide) .nil) .nil)
    · exact .leaf (by decide) (by decide) .nil
  have hstyled : NormalTree .trusted styledSample := by
    refine .root (.node (.rainbow 7 true) (.leaf (by decide) (by decide +kernel) ?_) .nil)
    exact .node (.color _) (.leaf (by decide) (by decide) .nil) .nil
  have hhoverEnds : ∀ t ∈ hoverSample.allTexts, t.getLast? ≠ some '\\' := by decide
  have hstyledEnds : ∀ t ∈ styledSample.allTexts, t.getLast? ≠ some '\\' := by decide
  have hstyling : ∀ s ∈ styledSample.styles, s.isInteractive = false ∧ s.font = none := by decide
  exact ⟨⟨hhover, hhoverEnds, (parse_markup hhover hhoverEnds).1⟩, hstyled, hstyledEnds, hstyling,
    (parse_markup hstyled hstyledEnds).2 hstyling⟩

example : hoverSample.markup
    = "1 \\< 2 <hover:show_text:'it\\'s <bold:true>so</bold>'>hi</hover>".toList := by
  decide

end StyledChat
