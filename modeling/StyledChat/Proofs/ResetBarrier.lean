/-
A reset keeps two texts apart.

Behind `<reset>` a text is read as if it stood alone, and what stands before is read as if
nothing followed; only two leaves of plain text that meet there are joined
(`parse_reset`).  There are two halves to it.

A `<` that no quote follows ends whatever is half-written before it, so that the text
before has its tokens and the text behind has its own (`Text.IsBarrier.readOn_append`).

Nodes that stand at the root when everything is ended change nothing in how a text is
read behind them: each token has the same effect on a draft with them and without them
(`Draft.Normal.behind_step`).  They never lie in an open tag, so no closing tag meets them,
and the first node of the draft is behind them whatever becomes of it.
-/
import StyledChat.Proofs.NormalReading
import StyledChat.Proofs.Partition

namespace StyledChat

/-! ## Reading up to a barrier -/

/-- The text starts with a `<` and has no quote. -/
structure Text.IsBarrier (u : Text) : Prop where
  bracket : u.head? = some '<'
  unquoted : ∀ q : Quote, q.char ∉ u

/-- Only its own character closes a quote. -/
theorem Quoting.step_ne_outside {place : Quoting} (h : place ≠ .outside) {c : Char}
    (hc : ∀ q : Quote, c ≠ q.char) : place.step c ≠ .outside := by
  cases place with
  | outside => exact absurd rfl h
  | inside q =>
      rw [step, if_neg (hc q)]
      split <;> exact Quoting.noConfusion
  | escaped q => exact Quoting.noConfusion

/-- A quote that nothing closes hides the end of the tag. -/
theorem Token.cutTag?_of_unquoted {u : Text} (hu : ∀ q : Quote, q.char ∉ u) {place : Quoting}
    (h : place ≠ .outside) : cutTag? place u = none := by
  induction u generalizing place with
  | nil => rfl
  | cons c rest ih =>
      have hc : ∀ q : Quote, c ≠ q.char := fun q e => hu q (e ▸ List.mem_cons_self)
      have hrest : ∀ q : Quote, q.char ∉ rest := fun q hq => hu q (List.mem_cons_of_mem c hq)
      rw [cutTag?_quoted h, ih hrest (Quoting.step_ne_outside h hc), Option.map_none]

namespace Text.IsBarrier

variable {u : Text}

/-- No tag goes on through a barrier, whether a quote is open in it or not. -/
theorem cutTag? (hu : u.IsBarrier) (place : Quoting) : Token.cutTag? place u = none := by
  by_cases hplace : place = .outside
  · obtain ⟨rest, rfl⟩ := List.head?_eq_some_iff.mp hu.bracket
    rw [hplace, Token.cutTag?_outside_bracket]
  · exact Token.cutTag?_of_unquoted hu.unquoted hplace

theorem cutTag?_append (hu : u.IsBarrier) : ∀ (s : Text) (place : Quoting),
    Token.cutTag? place (s ++ u) = (Token.cutTag? place s).map fun cut => (cut.1, cut.2 ++ u)
  | [], place => hu.cutTag? place
  | c :: rest, place => by
      rw [List.cons_append, Token.cutTag?, Token.cutTag?, hu.cutTag?_append rest]
      split
      · rfl
      · split
        · rfl
        · rw [Option.map_map, Option.map_map]
          rfl

/-- In front of a barrier, the tags that start are those that start without it. -/
theorem tag?_append (hu : u.IsBarrier) (s : Text) :
    Token.tag? (s ++ u) = (Token.tag? s).map fun found => (found.1, found.2 ++ u) := by
  rw [Token.tag?, Token.tag?, hu.cutTag?_append]
  cases Token.cutTag? .outside s with
  | none => rfl
  | some cut =>
      show (Token.ofContent? cut.1).map _ = ((Token.ofContent? cut.1).map _).map _
      rw [Option.map_map]
      rfl

/-- A text that does not end in `\` is read the same with a barrier behind it, and then the
barrier is read on from there. -/
theorem readOn_append (hu : u.IsBarrier) {v : Vocabulary} {read : Text → Component} {s : Text}
    (hlast : s.getLast? ≠ some '\\') : ∀ d : Draft,
      d.readOn v read (s ++ u) = (d.readOn v read s).readOn v read u := by
  induction s using Token.ofText.induct with
  | case1 =>
      intro d
      rw [Draft.readOn_nil]
      rfl
  | case2 c rest ih =>
      intro d
      -- what is left behind the first token ends as the whole text does
      have hbehind : (Token.first c rest).2.getLast? ≠ some '\\' := by
        rw [← Token.raw_append_first c rest, List.getLast?_append] at hlast
        intro e
        rw [e] at hlast
        exact hlast rfl
      have ih := ih hbehind
      by_cases hc : c = '<'
      · subst hc
        cases htag : Token.tag? rest with
        | none =>
            have hnone : Token.tag? (rest ++ u) = none := by rw [hu.tag?_append, htag]; rfl
            rw [Token.first_bracket htag] at ih
            rw [List.cons_append, Draft.readOn_bracket d hnone, Draft.readOn_bracket d htag]
            exact ih _
        | some found =>
            obtain ⟨tok, behind⟩ := found
            have hsame : Token.tag? (rest ++ u) = some (tok, behind ++ u) := by
              rw [hu.tag?_append, htag]
              rfl
            rw [Token.first_tag htag] at ih
            rw [List.cons_append, Draft.readOn_tag d hsame, Draft.readOn_tag d htag]
            exact ih _
      · rw [Token.first_text hc] at ih
        have hrun : (Token.cutText false (c :: rest)).1.getLast? ≠ some '\\' := by
          by_cases hend : (Token.cutText false (c :: rest)).2 = []
          · have hwhole := Token.append_cutText false (c :: rest)
            rw [hend, List.append_nil] at hwhole
            rwa [hwhole]
          · exact Token.getLast?_cutText hend
        have hcut : c :: rest ++ u = (Token.cutText false (c :: rest)).1
            ++ ((Token.cutText false (c :: rest)).2 ++ u) := by
          rw [← List.append_assoc, Token.append_cutText]
        rw [hcut, Draft.readOn_stretch d (Token.isStretch_cutText _ _) hrun, ih,
          Draft.readOn_text d hc]

end Text.IsBarrier

/-! ## Nodes before nodes -/

namespace Component

/-- The nodes of both lists, the last of the first and the first of the second joined if
both are leaves of plain text. -/
def joined (cs ds : List Component) : List Component :=
  match cs.getLast?, ds with
  | some last, first :: rest =>
    if last.isLeaf && first.isLeaf then cs.dropLast ++ leaf (last.text ++ first.text) :: rest
    else cs ++ ds
  | _, _ => cs ++ ds

theorem joined_leaf (before : List Component) (text t : Text) (rest : List Component) :
    joined (before ++ [leaf text]) (leaf t :: rest) = before ++ leaf (text ++ t) :: rest := by
  have hleaf : ∀ t, (leaf t).isLeaf := fun _ => Draft.isLeaf_iff.mpr rfl
  unfold joined
  rw [List.getLast?_concat]
  show (if (leaf text).isLeaf && (leaf t).isLeaf then _ else _) = _
  rw [if_pos (Bool.and_eq_true_iff.mpr ⟨hleaf text, hleaf t⟩), List.dropLast_concat]
  rfl

theorem joined_apart {cs ds : List Component}
    (h : ∀ last ∈ cs.getLast?, last.isLeaf → ∀ d ∈ ds.head?, ¬d.isLeaf) :
    joined cs ds = cs ++ ds := by
  unfold joined
  split
  · next last first rest hlast =>
      refine if_neg fun hleaf => ?_
      obtain ⟨hlastLeaf, hfirstLeaf⟩ := Bool.and_eq_true_iff.mp hleaf
      exact h last hlast hlastLeaf first rfl hfirstLeaf
  · rfl

theorem joined_nil (cs : List Component) : joined cs [] = cs := by
  unfold joined
  cases cs.getLast? <;> exact List.append_nil cs

/-- Only the first node is joined. -/
theorem joined_append (cs : List Component) {ds : List Component} (hds : ds ≠ [])
    (es : List Component) : joined cs (ds ++ es) = joined cs ds ++ es := by
  obtain ⟨first, rest, rfl⟩ := List.exists_cons_of_ne_nil hds
  rw [List.cons_append]
  unfold joined
  cases cs.getLast? with
  | none => exact (List.append_assoc cs (first :: rest) es).symm
  | some last =>
      dsimp only
      split
      · exact (List.append_assoc cs.dropLast (_ :: rest) es).symm
      · exact (List.append_assoc cs (first :: rest) es).symm

theorem joined_concat {c : Component} (hc : ¬c.isLeaf) (cs ds : List Component) :
    joined cs (ds ++ [c]) = joined cs ds ++ [c] := by
  by_cases hds : ds = []
  · rw [hds, joined_nil]
    exact joined_apart fun _ _ _ d hd => Option.some.inj hd ▸ hc
  · exact joined_append cs hds [c]

/-- A leaf is joined as its text is added. -/
theorem joined_singleton_leaf (cs : List Component) {t : Text} (ht : t ≠ []) :
    joined cs [leaf t] = Draft.addText cs t := by
  rcases Draft.addText_cases cs ht with ⟨before, text, rfl, hadded⟩ | ⟨hlast, hadded⟩
  · rw [hadded, joined_leaf]
  · rw [hadded, joined_apart fun c hc hleaf => absurd hleaf (hlast c hc)]

/-- Text that is added to a leaf may be added before or after it is joined. -/
theorem joined_addText_leaf (cs : List Component) (text : Text) {t : Text} (ht : t ≠ []) :
    joined cs (Draft.addText [leaf text] t) = Draft.addText (joined cs [leaf text]) t := by
  rcases Draft.addText_cases cs ht with ⟨before, last, rfl, -⟩ | ⟨hlast, -⟩
  · have hadded : Draft.addText [leaf text] t = [leaf (text ++ t)] :=
      Draft.addText_leaf [] text ht
    rw [hadded, joined_leaf, joined_leaf, Draft.addText_leaf before _ ht, List.append_assoc]
  · have hapart : ∀ ds, joined cs ds = cs ++ ds := fun ds =>
      joined_apart fun c hc hleaf => absurd hleaf (hlast c hc)
    rw [hapart, hapart, Draft.addText_append cs (List.cons_ne_nil _ _)]

/-- Text is added behind joined nodes as it is added to the second ones. -/
theorem joined_addText (cs ds : List Component) (t : Text) :
    joined cs (Draft.addText ds t) = Draft.addText (joined cs ds) t := by
  by_cases ht : t = []
  · rw [ht]
    rfl
  · match ds with
    | [] =>
        have hadded : Draft.addText [] t = [leaf t] := if_neg (by simpa using ht)
        rw [hadded, joined_nil, joined_singleton_leaf cs ht]
    | [c] =>
        by_cases hc : c.isLeaf
        · rw [Draft.isLeaf_iff.mp hc, joined_addText_leaf cs c.text ht]
        · have hadded : Draft.addText [c] t = [c] ++ [leaf t] := Draft.addText_other [] hc ht
          have hown : joined cs [c] = cs ++ [c] :=
            joined_apart fun _ _ _ d hd => Option.some.inj hd ▸ hc
          rw [hadded, joined_append cs (List.cons_ne_nil c []), hown,
            Draft.addText_other cs hc ht]
    | c :: d :: rest =>
        have hfirst : [c] ≠ [] := List.cons_ne_nil c []
        have hbehind : d :: rest ≠ [] := List.cons_ne_nil d rest
        rw [← List.singleton_append, Draft.addText_append [c] hbehind, joined_append cs hfirst,
          joined_append cs hfirst, Draft.addText_append _ hbehind]

end Component

/-! ## A draft behind nodes -/

namespace Draft

/-- The nodes and open tags of a draft behind nodes that stand at the root. -/
def behindTags (cs here : List Component) : List OpenTag → Draft
  | [] => ⟨Component.joined cs here, []⟩
  | tag :: outer =>
    let around := behindTags cs tag.before outer
    ⟨here, { tag with before := around.here } :: around.openTags⟩

/-- The draft with these nodes before all others at the root. -/
def behind (cs : List Component) (d : Draft) : Draft := behindTags cs d.here d.openTags

variable {v : Vocabulary} {read : Text → Component} (cs : List Component)

theorem behind_start : behind cs {} = ⟨cs, []⟩ :=
  congrArg (Draft.mk · []) (Component.joined_nil cs)

theorem behind_text (d : Draft) (t : Text) : (d.text t).behind cs = (d.behind cs).text t := by
  obtain ⟨here, tags⟩ := d
  cases tags with
  | nil => exact congrArg (Draft.mk · []) (Component.joined_addText cs here t)
  | cons tag outer => rfl

theorem behind_openTag (d : Draft) (name key : Text) (style : Style) :
    (d.openTag name key style).behind cs = (d.behind cs).openTag name key style := rfl

namespace Normal

/-- A tag that ends becomes a node behind all others, which joins none. -/
theorem behind_wrap {tag : OpenTag} {here : List Component} {outer : List OpenTag}
    (h : (Draft.mk here (tag :: outer)).Normal v) :
    behind cs ⟨tag.wrap here, outer⟩
      = ⟨OpenTag.wrap { tag with before := (behind cs ⟨tag.before, outer⟩).here } here,
          (behind cs ⟨tag.before, outer⟩).openTags⟩ := by
  have hnode : ¬(Component.node tag.style here).isLeaf :=
    (h.styles tag List.mem_cons_self).not_isLeaf here
  cases outer with
  | nil => exact congrArg (Draft.mk · []) (Component.joined_concat hnode cs tag.before)
  | cons next outer => rfl

theorem endAll_behind : ∀ {tags : List OpenTag} {here : List Component},
    (Draft.mk here tags).Normal v →
      Draft.endAll (behind cs ⟨here, tags⟩).here (behind cs ⟨here, tags⟩).openTags
        = Component.joined cs (Draft.endAll here tags)
  | [], _, _ => rfl
  | tag :: outer, here, h => by
      have ih := h.wrap.endAll_behind
      rw [h.behind_wrap] at ih
      exact ih

theorem endThrough?_behind (name : Text) : ∀ {tags : List OpenTag} {here : List Component},
    (Draft.mk here tags).Normal v →
      endThrough? name (behind cs ⟨here, tags⟩).here (behind cs ⟨here, tags⟩).openTags
        = (endThrough? name here tags).map (behind cs)
  | [], _, _ => rfl
  | tag :: outer, here, h => by
      have ih := h.wrap.endThrough?_behind name
      have hwrap := h.behind_wrap cs
      rw [hwrap] at ih
      show (if tag.endedBy name then some _ else endThrough? name _ _) = _
      rw [endThrough?]
      by_cases hends : tag.endedBy name
      · rw [if_pos hends, if_pos hends, Option.map_some, hwrap]
        rfl
      · rw [if_neg hends, if_neg hends, ← ih]
        rfl

theorem behind_opened {d : Draft} (h : d.Normal v) (name : Text) (meaning : Tag) :
    (d.opened read name meaning).behind cs = (d.behind cs).opened read name meaning := by
  cases meaning with
  | reset => exact congrArg (Draft.mk · []) (h.endAll_behind cs).symm
  | newline => exact behind_text cs d ['\n']
  | color | decoration | fill | click | hover | insertion | font =>
      exact behind_openTag cs d name _ _

/-- A token does the same to a draft with and without nodes before it. -/
theorem behind_step {d : Draft} (h : d.Normal v) (tok : Token) :
    (d.step v read tok).behind cs = (d.behind cs).step v read tok := by
  cases tok with
  | text raw => exact behind_text cs d (Token.unescape raw)
  | opening tag =>
      cases hm : allowedTag? v tag with
      | none =>
          rw [step_refused hm, step_refused hm]
          exact behind_text cs d tag.raw
      | some meaning =>
          rw [step_opened hm, step_opened hm]
          exact h.behind_opened cs tag.name meaning
  | closing tag =>
      have hends := h.endThrough?_behind cs tag.name
      cases hc : endThrough? tag.name d.here d.openTags with
      | none =>
          rw [hc, Option.map_none] at hends
          rw [step_orphan hc, step_orphan hends]
          exact behind_text cs d tag.raw
      | some closed =>
          rw [hc, Option.map_some] at hends
          rw [step_closed hc, step_closed hends]

/-- So do tokens one after the other. -/
theorem behind_foldl : ∀ (tokens : List Token) {d : Draft}, d.Normal v →
    (tokens.foldl (Draft.step v (parse v)) d).behind cs
      = tokens.foldl (Draft.step v (parse v)) (d.behind cs)
  | [], _, _ => rfl
  | tok :: rest, d, h => by
      have hnext : (d.step v (parse v) tok).Normal v :=
        h.step tok fun _ _ markup _ => normalTree_parse v markup
      rw [List.foldl_cons, List.foldl_cons, ← h.behind_step, hnext.behind_foldl rest]

end Normal

/-- A text that is read behind nodes gives the nodes it gives alone, behind them. -/
theorem finish_readOn_behind (t : Text) : (readOn v (parse v) ⟨cs, []⟩ t).finish
    = Component.node Style.empty (Component.joined cs (parse v t).children) := by
  have hnormal : (readOn v (parse v) {} t).Normal v :=
    Normal.start.foldl fun _ _ markup _ => normalTree_parse v markup
  have hbehind : (readOn v (parse v) {} t).behind cs = readOn v (parse v) ⟨cs, []⟩ t := by
    rw [readOn, Normal.start.behind_foldl, behind_start]
    rfl
  rw [← hbehind, parse_eq_readOn]
  exact congrArg (Component.node Style.empty) (hnormal.endAll_behind cs)

end Draft

/-! ## Resets -/

namespace Token

def resetTag : Tagged := ⟨"<reset>".toList, "reset".toList, [], false⟩

theorem tag?_reset (t : Text) : tag? ("reset>".toList ++ t) = some (.opening resetTag, t) :=
  tag?_eq_some_iff.mpr ⟨"reset".toList, rfl, by decide, by decide⟩

end Token

/-- Both vocabularies have the reset: it ends everything. -/
theorem Draft.readOn_reset {v : Vocabulary} {read : Text → Component} (d : Draft) (t : Text) :
    d.readOn v read ("<reset>".toList ++ t) = d.reset.readOn v read t := by
  have hmeaning : allowedTag? v Token.resetTag = some .reset := by cases v <;> rfl
  refine (readOn_tag d (Token.tag?_reset t)).trans ?_
  rw [step_opened hmeaning]
  rfl

theorem Text.isBarrier_reset {t : Text} (ht : ∀ q : Quote, q.char ∉ t) :
    Text.IsBarrier ("<reset>".toList ++ t) where
  bracket := rfl
  unquoted := by
    intro q hq
    rcases List.mem_append.mp hq with hq | hq
    · revert hq
      cases q <;> decide
    · exact ht q hq

/-- A reset is a full barrier.  Behind a text that does not end in `\`, and before one
without quotes, `<reset>` keeps both apart: the tree has the nodes of the first text as
it is read alone, and then those of the second as it is read alone.  So nothing that is
left open, half-written or wrongly nested in the first text reaches into the second, and
no closing tag of the second ends anything in the first.  Only where plain text ends the
one and starts the other is it joined. -/
theorem parse_reset (v : Vocabulary) {s t : Text} (hs : s.getLast? ≠ some '\\')
    (ht : ∀ q : Quote, q.char ∉ t) :
    parse v (s ++ "<reset>".toList ++ t)
      = Component.node Style.empty
          (Component.joined (parse v s).children (parse v t).children) := by
  have hbefore : (Draft.readOn v (parse v) {} s).reset = ⟨(parse v s).children, []⟩ := by
    rw [parse_eq_readOn]
    rfl
  rw [List.append_assoc, parse_eq_readOn, (Text.isBarrier_reset ht).readOn_append hs,
    Draft.readOn_reset, hbefore, Draft.finish_readOn_behind]

/-- A tag whose quote is never closed ends at the reset, and its text is joined with that
of a closing tag behind it; and tags that are left open end there, so that none of them is
left to be closed. -/
theorem parse_reset_of_samples :
    let s := "<b>x</b>y<font:'half".toList
    let t := "</b>z<i>w".toList
    let s' := "a<red><font:uniform>b".toList
    let bold := Style.empty.decorate .bold true
    let italic := Style.empty.decorate .italic true
    (s.getLast? ≠ some '\\' ∧ s'.getLast? ≠ some '\\' ∧ ∀ q : Quote, q.char ∉ t)
      ∧ parse .restricted (s ++ "<reset>".toList ++ t) = .node .empty
        [.node bold [.leaf "x".toList], .leaf "y<font:'half</b>z".toList,
          .node italic [.leaf "w".toList]]
      ∧ parse .trusted (s' ++ "<reset>".toList ++ t) = .node .empty
        [.leaf "a".toList,
          .node { color := some (.named .red) }
            [.node { font := some "uniform".toList } [.leaf "b".toList]],
          .leaf "</b>z".toList, .node italic [.leaf "w".toList]] := by
  intro s t s' bold italic
  have hs : s.getLast? ≠ some '\\' := by decide
  have hs' : s'.getLast? ≠ some '\\' := by decide
  have ht : ∀ q : Quote, q.char ∉ t := by
    intro q
    cases q <;> decide
  refine ⟨⟨hs, hs', ht⟩, ?_, ?_⟩
  · rw [parse_reset .restricted hs ht]
    decide +kernel
  · rw [parse_reset .trusted hs' ht]
    decide +kernel

end StyledChat
