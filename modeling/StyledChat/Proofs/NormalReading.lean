/-
Reading builds trees in normal form.

The nodes of a draft are in normal form at every point of the reading, those before
its open tags included, and every open tag sets one property (`Draft.Normal`).  A text
that is added joins a leaf that stands last, so no two leaves come to stand side by
side, and a tag that ends becomes a node behind what stood before it.  Whatever tag
opens next is therefore as good as the hover markup it may hold
(`normalTree_parseWith`), and hover markup is shorter than the text it stands in
(`normalTree_parse`).
-/
import StyledChat.Proofs.NormalForm

namespace StyledChat

/-! ## Nodes side by side -/

namespace NormalNodes

variable {v : Vocabulary}

/-- Nodes in normal form may be joined where no two leaves meet. -/
theorem append {ds : List Component} (hds : NormalNodes v ds) :
    ∀ {cs : List Component}, NormalNodes v cs →
      (∀ c ∈ cs.getLast?, c.isLeaf → ∀ d ∈ ds.head?, ¬d.isLeaf) → NormalNodes v (cs ++ ds)
  | _, .nil, _ => hds
  | _, @leaf _ text rest htext hnext hrest, hapart => by
      have hlast : ∀ c ∈ rest.getLast?, c.isLeaf → ∀ d ∈ ds.head?, ¬d.isLeaf := by
        intro c hc
        exact hapart c (List.mem_getLast?_cons hc)
      refine .leaf htext ?_ (append hds hrest hlast)
      cases rest with
      | nil =>
          have hleaf : (Component.leaf text).isLeaf := Draft.isLeaf_iff.mpr rfl
          exact hapart _ rfl hleaf
      | cons _ _ => exact hnext
  | _, @node _ style children rest hstyle hchildren hrest, hapart => by
      refine .node hstyle hchildren (append hds hrest fun c hc => ?_)
      exact hapart c (List.mem_getLast?_cons hc)

/-- A leaf that stands last may grow. -/
theorem longer {text t : Text} (ht : t ≠ []) : ∀ {before : List Component},
    NormalNodes v (before ++ [Component.leaf text]) →
      NormalNodes v (before ++ [Component.leaf (text ++ t)])
  | [], _ => .leaf (List.append_ne_nil_of_right_ne_nil text ht) (fun _ h => nomatch h) .nil
  | c :: rest, h => by
      rw [List.cons_append] at h ⊢
      cases h with
      | leaf htext hnext hrest =>
          refine .leaf htext ?_ (longer ht hrest)
          cases rest with
          | nil =>
              have hleaf : (Component.leaf text).isLeaf := Draft.isLeaf_iff.mpr rfl
              exact absurd hleaf (hnext _ rfl)
          | cons _ _ => exact hnext
      | node hstyle hchildren hrest => exact .node hstyle hchildren (longer ht hrest)

theorem addText {children : List Component} (h : NormalNodes v children) (t : Text) :
    NormalNodes v (Draft.addText children t) := by
  by_cases ht : t = []
  · rw [ht]
    exact h
  · rcases Draft.addText_cases children ht with ⟨before, text, rfl, ha⟩ | ⟨hlast, ha⟩
    · rw [ha]
      exact longer ht h
    · rw [ha]
      have hleaf : NormalNodes v [Component.leaf t] := .leaf ht (fun _ h => nomatch h) .nil
      exact append hleaf h fun c hc hleaf => absurd hleaf (hlast c hc)

end NormalNodes

/-! ## The tree under construction -/

/-- All nodes that are read so far are in normal form, and every open tag sets one
property. -/
structure Draft.Normal (v : Vocabulary) (d : Draft) : Prop where
  here : NormalNodes v d.here
  styles : ∀ tag ∈ d.openTags, OneProperty v tag.style
  before : ∀ tag ∈ d.openTags, NormalNodes v tag.before

namespace Draft.Normal

variable {v : Vocabulary} {d : Draft}

theorem start : (Draft.mk [] []).Normal v :=
  ⟨.nil, fun _ h => absurd h List.not_mem_nil, fun _ h => absurd h List.not_mem_nil⟩

theorem text (h : d.Normal v) (t : Text) : (d.text t).Normal v :=
  ⟨h.here.addText t, h.styles, h.before⟩

theorem openTag (h : d.Normal v) (name key : Text) {style : Style}
    (hstyle : OneProperty v style) : (d.openTag name key style).Normal v where
  here := .nil
  styles := by
    intro tag htag
    rcases List.mem_cons.mp htag with rfl | htag
    · exact hstyle
    · exact h.styles tag htag
  before := by
    intro tag htag
    rcases List.mem_cons.mp htag with rfl | htag
    · exact h.here
    · exact h.before tag htag

/-- The innermost open tag ends: its node is no leaf, so it may stand behind any other. -/
theorem wrap {tag : OpenTag} {here : List Component} {outer : List OpenTag}
    (h : (Draft.mk here (tag :: outer)).Normal v) : (Draft.mk (tag.wrap here) outer).Normal v where
  here := by
    have hstyle : OneProperty v tag.style := h.styles tag List.mem_cons_self
    have hnode : NormalNodes v [Component.node tag.style here] := .node hstyle h.here .nil
    refine hnode.append (h.before tag List.mem_cons_self) fun _ _ _ d hd => ?_
    obtain rfl := Option.some.inj hd
    exact hstyle.not_isLeaf here
  styles := fun other hother => h.styles other (List.mem_cons_of_mem tag hother)
  before := fun other hother => h.before other (List.mem_cons_of_mem tag hother)

theorem endAll : ∀ {tags : List OpenTag} {here : List Component},
    (Draft.mk here tags).Normal v → NormalNodes v (Draft.endAll here tags)
  | [], _, h => h.here
  | _ :: _, _, h => h.wrap.endAll

theorem endThrough {name : Text} {closed : Draft} : ∀ {tags : List OpenTag}
    {here : List Component}, (Draft.mk here tags).Normal v →
      Draft.endThrough? name here tags = some closed → closed.Normal v
  | tag :: outer, here, h, hclosed => by
      unfold Draft.endThrough? at hclosed
      split at hclosed
      · obtain rfl := Option.some.inj hclosed
        exact h.wrap
      · exact h.wrap.endThrough hclosed

end Draft.Normal

/-! ## Tags -/

theorem length_of_mapM {α β : Type} {f : α → Option β} : ∀ {l : List α} {l' : List β},
    l.mapM f = some l' → l'.length = l.length
  | [], _, h => by
      obtain rfl := Option.some.inj h
      rfl
  | a :: rest, l', h => by
      rw [List.mapM_cons] at h
      obtain ⟨b, -, h⟩ := Option.bind_eq_some_iff.mp h
      obtain ⟨bs, hrest, h⟩ := Option.bind_eq_some_iff.mp h
      obtain rfl := Option.some.inj h
      exact congrArg (· + 1) (length_of_mapM hrest)

/-- A gradient has the two stops it is given without arguments, or as many as it has
arguments, which are never one. -/
theorem Tag.two_le_length_of_stops? {args : List Text} {stops : List Color}
    (h : stops? args = some stops) : 2 ≤ stops.length := by
  match args with
  | [] =>
      obtain rfl := Option.some.inj h
      exact Nat.le_refl _
  | [_] => cases h
  | first :: second :: more =>
      rw [length_of_mapM h, List.length_cons, List.length_cons]
      exact Nat.le_add_left 2 more.length

/-- A tag that stays open sets one property, if its hover markup is read as a tree in
normal form. -/
theorem Tag.oneProperty_style {v : Vocabulary} {read : Text → Component} {tag : Tagged}
    {meaning : Tag} (h : Draft.allowedTag? v tag = some meaning) (hopen : meaning.StaysOpen)
    (hread : ∀ markup ∈ tag.args, NormalTree v (read markup)) :
    OneProperty v (meaning.style read) := by
  obtain ⟨hresolve, hallowed⟩ := Draft.allowedTag?_eq_some_iff.mp h
  obtain ⟨name, -, hmeans⟩ := exists_means_of_resolve? hresolve
  cases hmeans with
  | reset => exact absurd rfl hopen.1
  | newline => exact absurd rfl hopen.2
  | decoration => exact .decoration _ _
  | plainColor | color => exact .color _
  | gradient hstops => exact .gradient (two_le_length_of_stops? hstops)
  | plainRainbow | rainbow => exact .rainbow _ _
  | click => exact .click _ hallowed
  | hover => exact .hover hallowed (hread _ (mem_args_of_hover hresolve))
  | insertion => exact .insertion _ hallowed
  | font _ hkey => exact .font hallowed hkey

namespace Draft.Normal

variable {v : Vocabulary} {read : Text → Component} {d : Draft}

theorem opened (h : d.Normal v) {tag : Tagged} {meaning : Tag}
    (hmeaning : allowedTag? v tag = some meaning)
    (hread : ∀ markup ∈ tag.args, NormalTree v (read markup)) :
    (d.opened read tag.name meaning).Normal v := by
  cases meaning with
  | reset =>
      exact ⟨h.endAll, fun _ h => absurd h List.not_mem_nil, fun _ h => absurd h List.not_mem_nil⟩
  | newline => exact h.text ['\n']
  | color | decoration | fill | click | hover | insertion | font =>
      refine h.openTag _ _ (Tag.oneProperty_style hmeaning ?_ hread)
      exact ⟨Tag.noConfusion, Tag.noConfusion⟩

/-- Every token keeps what is read in normal form, if it does so with the hover markup it
holds. -/
theorem step (h : d.Normal v) (tok : Token)
    (hread : ∀ tag, tok = .opening tag → ∀ markup ∈ tag.args, NormalTree v (read markup)) :
    (d.step v read tok).Normal v := by
  cases tok with
  | text raw => exact h.text (Token.unescape raw)
  | opening tag =>
      cases hm : allowedTag? v tag with
      | none =>
          rw [step_refused hm]
          exact h.text tag.raw
      | some meaning =>
          rw [step_opened hm]
          exact h.opened hm (hread tag rfl)
  | closing tag =>
      cases hc : endThrough? tag.name d.here d.openTags with
      | none =>
          rw [step_orphan hc]
          exact h.text tag.raw
      | some closed =>
          rw [step_closed hc]
          exact h.endThrough hc

theorem foldl : ∀ {tokens : List Token} {d : Draft}, d.Normal v →
    (∀ tag, .opening tag ∈ tokens → ∀ markup ∈ tag.args, NormalTree v (read markup)) →
      (tokens.foldl (Draft.step v read) d).Normal v
  | [], _, h, _ => h
  | tok :: rest, _, h, hread => by
      refine (h.step tok fun tag htag => ?_).foldl fun tag htag => ?_
      · exact hread tag (htag ▸ List.mem_cons_self)
      · exact hread tag (List.mem_cons_of_mem tok htag)

end Draft.Normal

/-! ## Whole texts -/

theorem normalTree_parseWith {v : Vocabulary} {read : Text → Component} {t : Text}
    (hread : ∀ markup : Text, markup.length < t.length → NormalTree v (read markup)) :
    NormalTree v (parseWith v read t) := by
  have hend : ((Token.ofText t).foldl (Draft.step v read) {}).Normal v := by
    refine Draft.Normal.start.foldl fun tag htag markup hmarkup => hread markup ?_
    exact Token.length_arg_lt_of_opening htag hmarkup
  exact .root hend.endAll

/-- Whatever the text is, and with either vocabulary, the tree that is read is in normal
form, and so is every hover tree in it. -/
theorem normalTree_parse (v : Vocabulary) (t : Text) : NormalTree v (parse v t) := by
  induction hlength : t.length using Nat.strongRecOn generalizing t with
  | ind n ih =>
      rw [parse_eq]
      exact normalTree_parseWith fun markup hshorter =>
        ih markup.length (hlength ▸ hshorter) markup rfl

end StyledChat
