/-
What a reading says, and what the tree holds.

A tree holds what the reading of its text says, piece by piece: the pieces one after
the other are the plain text of the tree (`plainText_parse`), and every piece lies
within the text of one node (`exists_ownText_of_said`).  A node may hold more than one
piece, since a draft joins neighbouring texts, but none is ever cut.

Both are kept by every token for the same reason.  Ending and opening tags moves texts
about, and added text either becomes a leaf or makes the last leaf longer
(`Draft.Grows`).
-/
import StyledChat.Proofs.Interpreter
import StyledChat.Proofs.Scan

namespace StyledChat

mutual

/-- The plain text of a tree is that of its nodes one after the other. -/
theorem Component.flatten_ownTexts : ∀ c : Component, c.ownTexts.flatten = c.plainText
  | ⟨text, _, children⟩ => congrArg (text ++ ·) (flatten_ownTextsOfAll children)

theorem flatten_ownTextsOfAll : ∀ cs : List Component,
    (ownTextsOfAll cs).flatten = plainTexts cs
  | [] => rfl
  | c :: rest => by
      rw [ownTextsOfAll, List.flatten_append, c.flatten_ownTexts, flatten_ownTextsOfAll rest,
        plainTexts]

end

theorem ownTextsOfAll_append (cs ds : List Component) :
    ownTextsOfAll (cs ++ ds) = ownTextsOfAll cs ++ ownTextsOfAll ds := by
  induction cs with
  | nil => rfl
  | cons c rest ih => rw [List.cons_append, ownTextsOfAll, ownTextsOfAll, ih, List.append_assoc]

/-! ## The texts of a draft -/

/-- Some texts with more text behind them: `t` follows them, each of them lies within
a text that is there now, and so does `t`. -/
structure Grows (t : Text) (texts texts' : List Text) : Prop where
  flatten : texts'.flatten = texts.flatten ++ t
  old : ∀ u ∈ texts, ∃ u' ∈ texts', u <:+: u'
  new : t ≠ [] → ∃ u' ∈ texts', t <:+: u'

namespace Grows

theorem same {texts texts' : List Text} (hflatten : texts'.flatten = texts.flatten)
    (hsub : texts ⊆ texts') : Grows [] texts texts' where
  flatten := by rw [hflatten, List.append_nil]
  old := fun u hu => ⟨u, hsub hu, List.infix_refl u⟩
  new := fun h => absurd rfl h

theorem trans {texts between texts' : List Text} (h : Grows [] texts between)
    (h' : Grows [] between texts') : Grows [] texts texts' where
  flatten := by rw [h'.flatten, h.flatten, List.append_nil]
  old := by
    intro u hu
    obtain ⟨v, hv, huv⟩ := h.old u hu
    obtain ⟨w, hw, hvw⟩ := h'.old v hv
    exact ⟨w, hw, huv.trans hvw⟩
  new := fun h => absurd rfl h

theorem appendLeft {t : Text} {texts texts' : List Text} (h : Grows t texts texts')
    (before : List Text) : Grows t (before ++ texts) (before ++ texts') where
  flatten := by
    rw [List.flatten_append, List.flatten_append, h.flatten, List.append_assoc]
  old := by
    intro u hu
    rcases List.mem_append.mp hu with hu | hu
    · exact ⟨u, List.mem_append_left _ hu, List.infix_refl u⟩
    · obtain ⟨u', hu', hin⟩ := h.old u hu
      exact ⟨u', List.mem_append_right _ hu', hin⟩
  new := by
    intro ht
    obtain ⟨u', hu', hin⟩ := h.new ht
    exact ⟨u', List.mem_append_right _ hu', hin⟩

/-- The last text has become longer. -/
theorem longer (before : List Text) (text t : Text) :
    Grows t (before ++ [text]) (before ++ [text ++ t]) := by
  refine Grows.appendLeft ⟨?_, ?_, ?_⟩ before
  · simp
  · intro u hu
    obtain rfl := List.mem_singleton.mp hu
    exact ⟨u ++ t, List.mem_singleton_self _, (List.prefix_append u t).isInfix⟩
  · exact fun _ => ⟨text ++ t, List.mem_singleton_self _, (List.suffix_append text t).isInfix⟩

/-- A text of its own has been added. -/
theorem more (texts : List Text) (t : Text) : Grows t texts (texts ++ [t]) where
  flatten := by rw [List.flatten_append, List.flatten_singleton]
  old := fun u hu => ⟨u, List.mem_append_left _ hu, List.infix_refl u⟩
  new := fun _ => ⟨t, List.mem_append_right _ (List.mem_singleton_self t), List.infix_refl t⟩

end Grows

namespace Draft

/-- The texts of all nodes that stand before what the innermost open tag holds. -/
def ownTextsBefore : List OpenTag → List Text
  | [] => []
  | tag :: outer => ownTextsBefore outer ++ ownTextsOfAll tag.before

/-- The texts of all nodes of a draft, in reading order. -/
def ownTexts (d : Draft) : List Text := ownTextsBefore d.openTags ++ ownTextsOfAll d.here

theorem grows_addText (children : List Component) (t : Text) :
    Grows t (ownTextsOfAll children) (ownTextsOfAll (addText children t)) := by
  by_cases ht : t = []
  · subst ht
    exact Grows.same rfl (List.Subset.refl _)
  · have hleaf : ∀ before text, ownTextsOfAll (before ++ [Component.leaf text])
        = ownTextsOfAll before ++ [text] := fun before text => ownTextsOfAll_append before _
    rcases addText_cases children ht with ⟨before, text, hc, ha⟩ | ⟨-, ha⟩
    · rw [ha, hc, hleaf, hleaf]
      exact Grows.longer _ _ _
    · rw [ha, hleaf]
      exact Grows.more _ _

theorem grows_text (d : Draft) (t : Text) : Grows t d.ownTexts (d.text t).ownTexts :=
  (grows_addText d.here t).appendLeft _

theorem ownTexts_openTag (d : Draft) (name key : Text) (style : Style) :
    (d.openTag name key style).ownTexts = d.ownTexts :=
  List.append_nil _

/-- A tag that ends becomes a node without text. -/
theorem grows_wrap (tag : OpenTag) (here : List Component) (outer : List OpenTag) :
    Grows [] (ownTexts ⟨here, tag :: outer⟩) (ownTexts ⟨tag.wrap here, outer⟩) := by
  have hnode : ownTextsOfAll (tag.wrap here)
      = ownTextsOfAll tag.before ++ [] :: ownTextsOfAll here := by
    rw [OpenTag.wrap, ownTextsOfAll_append]
    exact congrArg (ownTextsOfAll tag.before ++ [] :: ·) (List.append_nil _)
  have hsame : Grows [] (ownTextsOfAll here) ([] :: ownTextsOfAll here) :=
    Grows.same rfl (List.subset_cons_self _ _)
  rw [ownTexts, ownTexts, hnode, ownTextsBefore, List.append_assoc]
  exact (hsame.appendLeft (ownTextsOfAll tag.before)).appendLeft (ownTextsBefore outer)

theorem grows_endAll : ∀ (tags : List OpenTag) (here : List Component),
    Grows [] (ownTexts ⟨here, tags⟩) (ownTexts ⟨endAll here tags, []⟩)
  | [], _ => Grows.same rfl (List.Subset.refl _)
  | tag :: outer, here => (grows_wrap tag here outer).trans (grows_endAll outer _)

theorem grows_endThrough {name : Text} {closed : Draft} : ∀ {tags : List OpenTag}
    {here : List Component}, endThrough? name here tags = some closed →
      Grows [] (ownTexts ⟨here, tags⟩) closed.ownTexts
  | tag :: outer, here, h => by
      unfold endThrough? at h
      split at h
      · obtain rfl := Option.some.inj h
        exact grows_wrap tag here outer
      · exact (grows_wrap tag here outer).trans (grows_endThrough h)

end Draft

/-! ## What was said -/

/-- The draft holds what the reading has said so far, no piece cut. -/
structure HoldsSaid (d : Draft) (r : Reading) : Prop where
  flatten : d.ownTexts.flatten = r.said.flatMap Run.text
  pieces : ∀ run ∈ r.said, run.text ≠ [] → ∃ u ∈ d.ownTexts, run.text <:+: u

theorem Reading.flatMap_text_emit (r : Reading) (t : Text) :
    (r.emit t).said.flatMap Run.text = r.said.flatMap Run.text ++ t := by
  rw [emit, List.flatMap_append, List.flatMap_singleton]

namespace HoldsSaid

variable {v : Vocabulary} {d d' : Draft} {r : Reading}

theorem emit (h : HoldsSaid d r) {t : Text} (hgrows : Grows t d.ownTexts d'.ownTexts) :
    HoldsSaid d' (r.emit t) where
  flatten := by
    rw [hgrows.flatten, h.flatten, Reading.flatMap_text_emit]
  pieces := by
    intro run hrun hne
    rcases List.mem_append.mp hrun with hrun | hrun
    · obtain ⟨u, hu, hin⟩ := h.pieces run hrun hne
      obtain ⟨u', hu', hin'⟩ := hgrows.old u hu
      exact ⟨u', hu', hin.trans hin'⟩
    · obtain rfl := List.mem_singleton.mp hrun
      exact hgrows.new hne

theorem moved (h : HoldsSaid d r) {r' : Reading} (hsaid : r'.said = r.said)
    (hgrows : Grows [] d.ownTexts d'.ownTexts) : HoldsSaid d' r' where
  flatten := by rw [hgrows.flatten, h.flatten, hsaid, List.append_nil]
  pieces := by
    intro run hrun hne
    obtain ⟨u, hu, hin⟩ := h.pieces run (hsaid ▸ hrun) hne
    obtain ⟨u', hu', hin'⟩ := hgrows.old u hu
    exact ⟨u', hu', hin.trans hin'⟩

theorem obey (h : HoldsSaid d r) (name : Text) (meaning : Tag) :
    HoldsSaid (d.opened (parse v) name meaning) (r.obey v name meaning) := by
  cases meaning with
  | reset => exact h.moved rfl (Draft.grows_endAll d.openTags d.here)
  | newline => exact h.emit (d.grows_text ['\n'])
  | color | decoration | fill | click | hover | insertion | font =>
      refine h.moved rfl ?_
      show Grows [] d.ownTexts (d.openTag _ _ _).ownTexts
      rw [Draft.ownTexts_openTag]
      exact Grows.same rfl (List.Subset.refl _)

theorem step (h : HoldsSaid d r) (hagrees : Agrees d r) (tok : Token) :
    HoldsSaid (d.step v (parse v) tok) (r.step v tok) := by
  cases tok with
  | text raw => exact h.emit (d.grows_text _)
  | opening tag =>
      cases hm : Draft.allowedTag? v tag with
      | none =>
          rw [Draft.step_refused hm, Reading.step_refused hm]
          exact h.emit (d.grows_text _)
      | some meaning =>
          rw [Draft.step_opened hm, Reading.step_opened hm]
          exact h.obey tag.name meaning
  | closing tag =>
      have hcut := Draft.truncate?_markedTags tag.name d.openTags d.here
      rw [← hagrees.tags] at hcut
      cases hc : Draft.endThrough? tag.name d.here d.openTags with
      | none =>
          rw [hc, Option.map_none] at hcut
          rw [Draft.step_orphan hc, Reading.step_orphan hcut]
          exact h.emit (d.grows_text _)
      | some closed =>
          rw [hc, Option.map_some] at hcut
          rw [Draft.step_closed hc, Reading.step_closed hcut]
          exact h.moved rfl (Draft.grows_endThrough hc)

theorem foldl (h : HoldsSaid d r) (hagrees : Agrees d r) (tokens : List Token) :
    HoldsSaid (tokens.foldl (Draft.step v (parse v)) d) (tokens.foldl (Reading.step v) r) := by
  induction tokens generalizing d r with
  | nil => exact h
  | cons tok rest ih => exact ih (h.step hagrees tok) (hagrees.step tok)

end HoldsSaid

/-! ## A whole text -/

/-- The nodes of a tree hold what its text says. -/
theorem holdsSaid_parse (v : Vocabulary) (t : Text) :
    (parse v t).ownTexts.flatten = (interpret v t).flatMap Run.text
      ∧ ∀ run ∈ interpret v t, run.text ≠ [] → ∃ u ∈ (parse v t).ownTexts, run.text <:+: u := by
  have hstart : HoldsSaid {} {} := ⟨rfl, fun _ h => absurd h List.not_mem_nil⟩
  have hagrees : Agrees {} {} := ⟨rfl, rfl, rfl, fun _ h => absurd h List.not_mem_nil⟩
  have hread := hstart.foldl (v := v) hagrees (Token.ofText t)
  have hend : HoldsSaid ⟨Draft.endAll _ _, []⟩ _ := hread.moved rfl (Draft.grows_endAll _ _)
  have htexts : (parse v t).ownTexts = [] :: Draft.ownTexts
      ⟨Draft.endAll ((Token.ofText t).foldl (Draft.step v (parse v)) {}).here
          ((Token.ofText t).foldl (Draft.step v (parse v)) {}).openTags, []⟩ := by
    rw [parse_eq]
    rfl
  rw [htexts]
  refine ⟨hend.flatten, fun run hrun hne => ?_⟩
  obtain ⟨u, hu, hin⟩ := hend.pieces run hrun hne
  exact ⟨u, List.mem_cons_of_mem _ hu, hin⟩

/-- The plain text of a tree is what its text says. -/
theorem plainText_parse (v : Vocabulary) (t : Text) :
    (parse v t).plainText = (interpret v t).flatMap Run.text := by
  rw [← Component.flatten_ownTexts]
  exact (holdsSaid_parse v t).1

/-- What is said in one piece stands in one node. -/
theorem exists_ownText_of_said {v : Vocabulary} {t : Text} {run : Run (List Mark)}
    (h : run ∈ interpret v t) : ∃ u ∈ (parse v t).ownTexts, run.text <:+: u :=
  (holdsSaid_parse v t).2 run h (text_ne_nil_of_mem_interpret run h)

end StyledChat
