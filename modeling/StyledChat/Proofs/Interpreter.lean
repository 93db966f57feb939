/-
Reading in one pass.

What a text says can be told one token after the other, with no tree in between: a
`Reading` keeps the tags that are open in a list, and puts down every text under
the marks of that list.  An opening tag is added to the list, `<reset>` empties it,
and a closing tag cuts it off just before the innermost tag it ends.

The tree built from a text says the same.  The invariant is `Agrees`, which every
token keeps (`Agrees.step`): draft and reading have the same open tags, have marked
equally many nodes, and list the same characters under the same marks.  The lists
themselves may be cut differently, since a draft joins neighbouring texts.
-/
import StyledChat.Proofs.Marks

namespace StyledChat

/-- An open tag as a reading lists it, with the mark of its node. -/
structure MarkedTag where
  name : Text
  key : Text
  mark : Mark

/-- Whether a closing tag of this name ends the tag: it has the same name, or it
ends all tags of the key. -/
def MarkedTag.endedBy (name : Text) (tag : MarkedTag) : Bool :=
  tag.name == name || Tag.genericKey? name == some tag.key

/-- The list, outermost tag first, cut off before the innermost tag that a closing
tag of this name ends; `none` when it ends none of them. -/
def truncate? (name : Text) : List MarkedTag → Option (List MarkedTag)
  | [] => none
  | tag :: inner =>
    match truncate? name inner with
    | some kept => some (tag :: kept)
    | none => if tag.endedBy name then some [] else none

/-- A text that is being read: the open tags, outermost first, how many tags were
opened so far, and what was said, each piece under the tags open at that point. -/
structure Reading where
  tags : List MarkedTag := []
  opened : Nat := 0
  said : List (Run (List Mark)) := []

namespace Reading

def emit (r : Reading) (t : Text) : Reading :=
  { r with said := r.said ++ [⟨r.tags.map MarkedTag.mark, t⟩] }

def push (r : Reading) (name key : Text) (style : Style) : Reading :=
  { r with tags := r.tags ++ [⟨name, key, ⟨r.opened, style⟩⟩], opened := r.opened + 1 }

/-- One tag that means something. -/
def obey (v : Vocabulary) (r : Reading) (name : Text) : Tag → Reading
  | .reset => { r with tags := [] }
  | .newline => r.emit ['\n']
  | meaning => r.push name meaning.closeKey (meaning.style (parse v))

/-- One token. -/
def step (v : Vocabulary) (r : Reading) : Token → Reading
  | .text raw => r.emit (Token.unescape raw)
  | .opening tag =>
    match Draft.allowedTag? v tag with
    | none => r.emit tag.raw
    | some meaning => r.obey v tag.name meaning
  | .closing tag =>
    match truncate? tag.name r.tags with
    | none => r.emit tag.raw
    | some kept => { r with tags := kept }

end Reading

/-- What a text says, read in one pass. -/
def interpret (v : Vocabulary) (t : Text) : List (Run (List Mark)) :=
  ((Token.ofText t).foldl (Reading.step v) {}).said

namespace Reading

variable {v : Vocabulary} {r : Reading} {tag : Tagged}

theorem step_refused (h : Draft.allowedTag? v tag = none) :
    r.step v (.opening tag) = r.emit tag.raw := by
  simp only [step, h]

theorem step_opened {meaning : Tag} (h : Draft.allowedTag? v tag = some meaning) :
    r.step v (.opening tag) = r.obey v tag.name meaning := by
  simp only [step, h]

theorem step_orphan (h : truncate? tag.name r.tags = none) :
    r.step v (.closing tag) = r.emit tag.raw := by
  simp only [step, h]

theorem step_closed {kept : List MarkedTag} (h : truncate? tag.name r.tags = some kept) :
    r.step v (.closing tag) = { r with tags := kept } := by
  simp only [step, h]

end Reading

/-! ## No piece is empty

So there is nothing in the two listings that joining neighbours could hide. -/

namespace Reading

variable {v : Vocabulary} {r : Reading}

theorem text_ne_nil_emit (h : ∀ run ∈ r.said, run.text ≠ []) {t : Text} (ht : t ≠ []) :
    ∀ run ∈ (r.emit t).said, run.text ≠ [] := by
  intro run hrun
  rcases List.mem_append.mp hrun with hrun | hrun
  · exact h run hrun
  · obtain rfl := List.mem_singleton.mp hrun
    exact ht

theorem text_ne_nil_step (h : ∀ run ∈ r.said, run.text ≠ []) {tok : Token}
    (htok : tok.raw ≠ []) : ∀ run ∈ (r.step v tok).said, run.text ≠ [] := by
  cases tok with
  | text raw => exact text_ne_nil_emit h (Token.unescape_ne_nil htok)
  | opening tag =>
      cases hm : Draft.allowedTag? v tag with
      | none =>
          rw [step_refused hm]
          exact text_ne_nil_emit h htok
      | some meaning =>
          rw [step_opened hm]
          cases meaning with
          | newline => exact text_ne_nil_emit h (List.cons_ne_nil _ _)
          | reset | color | decoration | fill | click | hover | insertion | font => exact h
  | closing tag =>
      cases hc : truncate? tag.name r.tags with
      | none =>
          rw [step_orphan hc]
          exact text_ne_nil_emit h htok
      | some kept =>
          rw [step_closed hc]
          exact h

theorem text_ne_nil_foldl {tokens : List Token} (htokens : ∀ tok ∈ tokens, tok.raw ≠ [])
    (h : ∀ run ∈ r.said, run.text ≠ []) :
    ∀ run ∈ (tokens.foldl (step v) r).said, run.text ≠ [] := by
  induction tokens generalizing r with
  | nil => exact h
  | cons tok rest ih =>
      refine ih (fun later hlater => htokens later (List.mem_cons_of_mem _ hlater)) ?_
      exact text_ne_nil_step h (htokens tok List.mem_cons_self)

end Reading

theorem text_ne_nil_of_mem_interpret {v : Vocabulary} {t : Text} :
    ∀ run ∈ interpret v t, run.text ≠ [] :=
  Reading.text_ne_nil_foldl (fun _ htok => Token.raw_ne_nil_of_mem_ofText htok)
    fun _ h => absurd h List.not_mem_nil

/-! ## The open tags of a draft -/

theorem truncate?_concat (name : Text) (tag : MarkedTag) : ∀ tags : List MarkedTag,
    truncate? name (tags ++ [tag])
      = if tag.endedBy name then some tags else truncate? name tags
  | [] => rfl
  | outer :: rest => by
      rw [List.cons_append, truncate?, truncate?_concat name tag rest, truncate?]
      by_cases h : tag.endedBy name
      · rw [if_pos h, if_pos h]
      · rw [if_neg h, if_neg h]

namespace Draft

/-- The open tags of a draft as a reading lists them. -/
def markedTags : List OpenTag → List MarkedTag
  | [] => []
  | tag :: outer =>
    markedTags outer ++ [⟨tag.name, tag.key, ⟨begun outer + marksIn tag.before, tag.style⟩⟩]

theorem map_mark_markedTags (tags : List OpenTag) :
    (markedTags tags).map MarkedTag.mark = marks tags := by
  induction tags with
  | nil => rfl
  | cons tag outer ih => rw [markedTags, List.map_append, ih]; rfl

/-- A closing tag ends the same tags in the list as in the draft. -/
theorem truncate?_markedTags (name : Text) : ∀ (tags : List OpenTag) (here : List Component),
    truncate? name (markedTags tags)
      = (endThrough? name here tags).map fun d => markedTags d.openTags
  | [], _ => rfl
  | tag :: outer, here => by
      rw [markedTags, truncate?_concat, endThrough?]
      show (if tag.endedBy name then _ else _) = _
      by_cases h : tag.endedBy name
      · rw [if_pos h, if_pos h]
        rfl
      · rw [if_neg h, if_neg h, truncate?_markedTags name outer (tag.wrap here)]

end Draft

/-- A tag that stays open sets something. -/
theorem Tag.style_isEmpty (read : Text → Component) {meaning : Tag} (hopen : meaning.StaysOpen) :
    ¬(meaning.style read).isEmpty := by
  cases meaning with
  | reset => exact absurd rfl hopen.1
  | newline => exact absurd rfl hopen.2
  | decoration d on =>
      cases d <;> simp [Tag.style, Style.isEmpty, Style.empty, Style.decorate, Decorations.set]
  | color | fill | click | hover | insertion | font =>
      simp [Tag.style, Style.isEmpty, Style.empty]

/-! ## One token -/

/-- The draft holds what the reading has said so far, under the same open tags. -/
structure Agrees (d : Draft) (r : Reading) : Prop where
  tags : r.tags = Draft.markedTags d.openTags
  opened : r.opened = d.marked
  said : Run.listing r.said = Run.listing d.texts
  styled : ∀ tag ∈ d.openTags, ¬tag.style.isEmpty

namespace Agrees

variable {v : Vocabulary} {d : Draft} {r : Reading}

theorem marks_eq (h : Agrees d r) : r.tags.map MarkedTag.mark = Draft.marks d.openTags := by
  rw [h.tags, Draft.map_mark_markedTags]

theorem text (h : Agrees d r) (t : Text) : Agrees (d.text t) (r.emit t) where
  tags := h.tags
  opened := h.opened.trans (Draft.marked_text d t).symm
  said := by
    rw [Reading.emit, Run.listing_append, h.said, h.marks_eq, Draft.listing_text]
    exact congrArg _ (List.append_nil _)
  styled := h.styled

theorem push (h : Agrees d r) (name key : Text) {style : Style}
    (hstyle : ¬style.isEmpty) : Agrees (d.openTag name key style) (r.push name key style) where
  tags := by
    rw [Reading.push, h.tags, h.opened]
    rfl
  opened := congrArg (· + 1) h.opened
  said := by
    rw [Draft.texts_openTag]
    exact h.said
  styled := by
    intro tag htag
    rcases List.mem_cons.mp htag with rfl | htag
    · exact hstyle
    · exact h.styled tag htag

theorem wrap {tag : OpenTag} {here : List Component} {outer : List OpenTag}
    (h : Agrees ⟨here, tag :: outer⟩ r) :
    Agrees ⟨tag.wrap here, outer⟩ { r with tags := Draft.markedTags outer } where
  tags := rfl
  opened := h.opened.trans (Draft.marked_wrap (h.styled tag List.mem_cons_self) here outer).symm
  said := by
    rw [Draft.texts_wrap (h.styled tag List.mem_cons_self)]
    exact h.said
  styled := fun other hother => h.styled other (List.mem_cons_of_mem _ hother)

theorem endAll : ∀ {tags : List OpenTag} {here : List Component} {r : Reading},
    Agrees ⟨here, tags⟩ r → Agrees ⟨Draft.endAll here tags, []⟩ { r with tags := [] }
  | [], _, _, h => ⟨rfl, h.opened, h.said, h.styled⟩
  | _ :: _, _, _, h => h.wrap.endAll

theorem endThrough {name : Text} {closed : Draft} : ∀ {tags : List OpenTag}
    {here : List Component} {r : Reading}, Agrees ⟨here, tags⟩ r →
      Draft.endThrough? name here tags = some closed →
      Agrees closed { r with tags := Draft.markedTags closed.openTags }
  | tag :: outer, here, r, h, hclosed => by
      unfold Draft.endThrough? at hclosed
      split at hclosed
      · obtain rfl := Option.some.inj hclosed
        exact h.wrap
      · exact h.wrap.endThrough hclosed

theorem obey (h : Agrees d r) (name : Text) (meaning : Tag) :
    Agrees (d.opened (parse v) name meaning) (r.obey v name meaning) := by
  cases meaning with
  | reset => exact h.endAll
  | newline => exact h.text ['\n']
  | color | decoration | fill | click | hover | insertion | font =>
      exact h.push name _ (Tag.style_isEmpty _ ⟨Tag.noConfusion, Tag.noConfusion⟩)

theorem step (h : Agrees d r) (tok : Token) :
    Agrees (d.step v (parse v) tok) (r.step v tok) := by
  cases tok with
  | text raw => exact h.text (Token.unescape raw)
  | opening tag =>
      cases hm : Draft.allowedTag? v tag with
      | none =>
          rw [Draft.step_refused hm, Reading.step_refused hm]
          exact h.text tag.raw
      | some meaning =>
          rw [Draft.step_opened hm, Reading.step_opened hm]
          exact h.obey tag.name meaning
  | closing tag =>
      have hcut := Draft.truncate?_markedTags tag.name d.openTags d.here
      rw [← h.tags] at hcut
      cases hc : Draft.endThrough? tag.name d.here d.openTags with
      | none =>
          rw [hc, Option.map_none] at hcut
          rw [Draft.step_orphan hc, Reading.step_orphan hcut]
          exact h.text tag.raw
      | some closed =>
          rw [hc, Option.map_some] at hcut
          rw [Draft.step_closed hc, Reading.step_closed hcut]
          exact h.endThrough hc

theorem foldl (h : Agrees d r) (tokens : List Token) :
    Agrees (tokens.foldl (Draft.step v (parse v)) d) (tokens.foldl (Reading.step v) r) := by
  induction tokens generalizing d r with
  | nil => exact h
  | cons tok rest ih => exact ih (h.step tok)

end Agrees

/-! ## A whole text -/

/-- The texts of the tree, each under the nodes above it, are what the text says
when it is read in one pass, neighbours under the same nodes joined. -/
theorem join_texts_parse (v : Vocabulary) (t : Text) :
    Run.join ((parse v t).texts [] 0) = Run.join (interpret v t) := by
  have hstart : Agrees {} {} := ⟨rfl, rfl, rfl, fun _ h => absurd h List.not_mem_nil⟩
  have hend := (hstart.foldl (v := v) (Token.ofText t)).endAll
  have htexts : (parse v t).texts [] 0
      = Draft.texts ⟨Draft.endAll ((Token.ofText t).foldl (Draft.step v (parse v)) {}).here
          ((Token.ofText t).foldl (Draft.step v (parse v)) {}).openTags, []⟩ := by
    rw [parse_eq]
    exact texts_root _
  rw [Run.join, Run.join, htexts, ← hend.said]
  rfl

end StyledChat
