/-
The texts of a tree, each under the nodes that style it.

Two nodes of one style are still two nodes: the nodes that set something are
numbered in reading order, and a `Mark` is such a node, its number with its style.
`Component.texts` lists what a tree says, every text under its marks.  A draft is
listed in the same way, its open tags being marks of what they hold so far
(`Draft.texts`).  Ending a tag changes nothing in the list, opening one puts a
mark over what is still to come, and added text stands at its end.
-/
import StyledChat.Proofs.NodeStyles

namespace StyledChat

/-- A node that sets something: how many of them begin before it in reading
order, and what it sets. -/
structure Mark where
  number : Nat
  style : Style
deriving DecidableEq

/-- How many nodes of some trees set something. -/
def marksIn (cs : List Component) : Nat :=
  (stylesOfAll cs).countP fun s => !s.isEmpty

/-- The text of one node. -/
def ownText (marks : List Mark) (text : Text) : List (Run (List Mark)) :=
  if text.isEmpty then [] else [⟨marks, text⟩]

mutual

/-- The texts of a tree in reading order, each under the nodes at or above it that
set something, from the root down.  `above` are those above the tree, and `n` is
the number of the next. -/
def Component.texts (above : List Mark) (n : Nat) : Component → List (Run (List Mark))
  | ⟨text, style, children⟩ =>
    if style.isEmpty then ownText above text ++ textsOfAll above n children
    else ownText (above ++ [⟨n, style⟩]) text ++
      textsOfAll (above ++ [⟨n, style⟩]) (n + 1) children

def textsOfAll (above : List Mark) (n : Nat) : List Component → List (Run (List Mark))
  | [] => []
  | c :: rest => c.texts above n ++ textsOfAll above (n + marksIn [c]) rest

end

/-! ## Trees in a row -/

theorem Style.isEmpty_empty : Style.empty.isEmpty := beq_self_eq_true _

theorem marksIn_append (cs ds : List Component) : marksIn (cs ++ ds) = marksIn cs + marksIn ds := by
  rw [marksIn, stylesOfAll_append, List.countP_append]
  rfl

theorem marksIn_leaf (t : Text) : marksIn [Component.leaf t] = 0 :=
  List.countP_eq_zero.mpr (by simp [stylesOfAll, Component.leaf, Component.styles,
    Style.isEmpty_empty])

theorem marksIn_node {style : Style} (h : ¬style.isEmpty) (cs : List Component) :
    marksIn [Component.node style cs] = marksIn cs + 1 := by
  rw [marksIn, stylesOfAll_singleton, Component.node, Component.styles,
    List.countP_cons_of_pos (by simpa using h)]
  rfl

theorem textsOfAll_append (above : List Mark) (ds : List Component) :
    ∀ (cs : List Component) (n : Nat), textsOfAll above n (cs ++ ds)
      = textsOfAll above n cs ++ textsOfAll above (n + marksIn cs) ds
  | [], _ => rfl
  | c :: rest, n => by
      have hcount : marksIn (c :: rest) = marksIn [c] + marksIn rest := marksIn_append [c] rest
      rw [List.cons_append, textsOfAll, textsOfAll, textsOfAll_append above ds rest,
        List.append_assoc, hcount, Nat.add_assoc]

theorem textsOfAll_singleton (above : List Mark) (n : Nat) (c : Component) :
    textsOfAll above n [c] = c.texts above n :=
  List.append_nil _

theorem texts_root (cs : List Component) :
    (Component.node Style.empty cs).texts [] 0 = textsOfAll [] 0 cs := by
  rw [Component.node, Component.texts, if_pos Style.isEmpty_empty]
  rfl

theorem texts_node {style : Style} (h : ¬style.isEmpty) (above : List Mark) (n : Nat)
    (cs : List Component) : (Component.node style cs).texts above n
      = textsOfAll (above ++ [⟨n, style⟩]) (n + 1) cs := by
  rw [Component.node, Component.texts, if_neg h]
  rfl

theorem listing_texts_leaf (above : List Mark) (n : Nat) (t : Text) :
    Run.listing ((Component.leaf t).texts above n) = Run.chars ⟨above, t⟩ := by
  rw [Component.leaf, Component.texts, if_pos Style.isEmpty_empty, textsOfAll, List.append_nil, ownText]
  cases t with
  | nil => rfl
  | cons c rest => exact List.append_nil _

mutual

/-- Only nodes with a text are listed. -/
theorem Component.text_ne_nil_of_mem_texts : ∀ (c : Component) (above : List Mark) (n : Nat),
    ∀ run ∈ c.texts above n, run.text ≠ []
  | ⟨text, style, children⟩, above, n, run, hrun => by
      have hown : ∀ marks : List Mark, run ∈ ownText marks text → run.text ≠ [] := by
        intro marks h
        unfold ownText at h
        split at h
        · cases h
        · next htext =>
            obtain rfl := List.mem_singleton.mp h
            exact fun e => htext (List.isEmpty_iff.mpr e)
      unfold Component.texts at hrun
      split at hrun
      all_goals
        rcases List.mem_append.mp hrun with h | h
        · exact hown _ h
        · exact text_ne_nil_of_mem_textsOfAll children _ _ run h

theorem text_ne_nil_of_mem_textsOfAll : ∀ (cs : List Component) (above : List Mark) (n : Nat),
    ∀ run ∈ textsOfAll above n cs, run.text ≠ []
  | c :: rest, above, n, run, hrun => by
      rw [textsOfAll] at hrun
      rcases List.mem_append.mp hrun with h | h
      · exact c.text_ne_nil_of_mem_texts above n run h
      · exact text_ne_nil_of_mem_textsOfAll rest above _ run h

end

/-! ## Adding text -/

namespace Draft

theorem marksIn_addText (children : List Component) (t : Text) :
    marksIn (addText children t) = marksIn children := by
  by_cases ht : t = []
  · rw [ht]
    rfl
  · rcases addText_cases children ht with ⟨before, text, hc, ha⟩ | ⟨-, ha⟩
    · rw [ha, hc, marksIn_append, marksIn_append, marksIn_leaf, marksIn_leaf]
    · rw [ha, marksIn_append, marksIn_leaf, Nat.add_zero]

/-- Added text stands at the end, under the marks of its surroundings. -/
theorem listing_addText (above : List Mark) (n : Nat) (children : List Component) (t : Text) :
    Run.listing (textsOfAll above n (addText children t))
      = Run.listing (textsOfAll above n children) ++ Run.chars ⟨above, t⟩ := by
  by_cases ht : t = []
  · rw [ht]
    exact (List.append_nil _).symm
  · rcases addText_cases children ht with ⟨before, text, hc, ha⟩ | ⟨-, ha⟩
    · -- the leaf that stands last holds both texts
      have hboth : Run.chars (⟨above, text ++ t⟩ : Run (List Mark))
          = Run.chars ⟨above, text⟩ ++ Run.chars ⟨above, t⟩ := List.map_append
      rw [ha, hc, textsOfAll_append, textsOfAll_append, textsOfAll_singleton,
        textsOfAll_singleton, Run.listing_append, Run.listing_append, listing_texts_leaf,
        listing_texts_leaf, hboth, List.append_assoc]
    · rw [ha, textsOfAll_append, textsOfAll_singleton, Run.listing_append, listing_texts_leaf]

/-! ## Open tags -/

/-- How many nodes that set something begin before what the innermost open tag
holds, open tags included. -/
def begun : List OpenTag → Nat
  | [] => 0
  | tag :: outer => begun outer + marksIn tag.before + 1

/-- The marks of open tags, from the outermost on. -/
def marks : List OpenTag → List Mark
  | [] => []
  | tag :: outer => marks outer ++ [⟨begun outer + marksIn tag.before, tag.style⟩]

/-- The texts that stand before what the innermost open tag holds. -/
def textsBefore : List OpenTag → List (Run (List Mark))
  | [] => []
  | tag :: outer => textsBefore outer ++ textsOfAll (marks outer) (begun outer) tag.before

/-- How many nodes of a draft set something. -/
def marked (d : Draft) : Nat := begun d.openTags + marksIn d.here

/-- The texts of a draft, those of its open tags included. -/
def texts (d : Draft) : List (Run (List Mark)) :=
  textsBefore d.openTags ++ textsOfAll (marks d.openTags) (begun d.openTags) d.here

theorem marked_text (d : Draft) (t : Text) : (d.text t).marked = d.marked :=
  congrArg (begun d.openTags + ·) (marksIn_addText d.here t)

theorem listing_text (d : Draft) (t : Text) :
    Run.listing (d.text t).texts = Run.listing d.texts ++ Run.chars ⟨marks d.openTags, t⟩ := by
  rw [texts, texts, Run.listing_append, Run.listing_append, List.append_assoc]
  exact congrArg _ (listing_addText _ _ d.here t)

/-- Opening a tag leaves every text where it is. -/
theorem texts_openTag (d : Draft) (name key : Text) (style : Style) :
    (d.openTag name key style).texts = d.texts :=
  List.append_nil _

section Wrap

variable {tag : OpenTag} (h : ¬tag.style.isEmpty) (here : List Component) (outer : List OpenTag)

include h

theorem marked_wrap : marked ⟨tag.wrap here, outer⟩ = marked ⟨here, tag :: outer⟩ := by
  simp only [marked, begun, OpenTag.wrap, marksIn_append, marksIn_node h]
  omega

/-- A tag that ends becomes a node with the mark it had. -/
theorem texts_wrap : texts ⟨tag.wrap here, outer⟩ = texts ⟨here, tag :: outer⟩ := by
  simp only [texts, textsBefore, begun, marks, OpenTag.wrap, textsOfAll_append,
    textsOfAll_singleton, texts_node h, List.append_assoc]

end Wrap

end Draft

end StyledChat
