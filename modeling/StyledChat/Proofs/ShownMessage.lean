/-
Where a template shows the message.

Checking a template asks for the message placeholder anywhere in its text.  What shows
the message is a placeholder that lies within the text of one node of the template's
tree: both placeholders are braces around a word, so none can hide a part of another
from the scan (`put_mem_scan`), and what is put in is shown where it is put
(`infix_plainText_splice`).  A placeholder in a hover text shows the message there, and
one in another argument of a tag is no text of the tree at all.

Which of these it is can be told from the text: what a reading says in one piece lies
within one node (`exists_ownText_of_said`).
-/
import Mathlib.Data.List.Infix
import StyledChat.Proofs.Interactions
import StyledChat.Proofs.Said

namespace StyledChat

theorem Text.hasInfix_iff {needle : Text} (hne : needle ≠ []) : ∀ {t : Text},
    hasInfix needle t ↔ needle <:+: t
  | [] => by
      have hempty : ¬needle.isEmpty := fun e => hne (List.isEmpty_iff.mp e)
      rw [hasInfix, cutAround?, if_neg hempty, List.infix_nil]
      exact iff_of_false Bool.false_ne_true hne
  | c :: rest => by
      have ih := hasInfix_iff hne (t := rest)
      rw [hasInfix, cutAround?, after?_eq_ite, List.infix_cons_iff]
      by_cases h : needle.isPrefixOf (c :: rest)
      · rw [if_pos h]
        exact ⟨fun _ => Or.inl (List.isPrefixOf_iff_prefix.mp h), fun _ => rfl⟩
      · rw [if_neg h, ← ih]
        have hprefix : ¬needle <+: c :: rest := fun e => h (List.isPrefixOf_iff_prefix.mpr e)
        show (Option.map _ _).isSome ↔ _
        rw [Option.isSome_map]
        exact ⟨Or.inr, fun h' => h'.resolve_left hprefix⟩

/-! ## Finding the message -/

section Scan

variable (name : Text) (m : Component)

/-- The message put in for its placeholder. -/
def messagePiece : Piece := .put ⟨Template.messagePlaceholder, m⟩

/-- No `{` stands inside a needle that is put in. -/
theorem brace_not_mem_tail {r : Replacement} (h : r ∈ fillings name m) : '{' ∉ r.needle.tail := by
  rcases List.mem_cons.mp h with rfl | h
  · show '{' ∉ Template.namePlaceholder.tail
    decide
  · obtain rfl := List.mem_singleton.mp h
    show '{' ∉ Template.messagePlaceholder.tail
    decide

theorem at?_messagePlaceholder {t : Text} (h : Template.messagePlaceholder <+: t) :
    Replacement.at? (fillings name m) t = some ⟨Template.messagePlaceholder, m⟩ := by
  obtain ⟨rest, rfl⟩ := h
  rfl

/-- The scan finds every placeholder of the message, behind a needle already replaced as
well: that needle has no `{` in what is skipped of it. -/
theorem put_mem_scanFrom : ∀ (t : Text) (skip : Nat), '{' ∉ t.take skip →
    Template.messagePlaceholder <:+: t → messagePiece m ∈ scanFrom (fillings name m) skip t
  | [], _, _, h => absurd (List.infix_nil.mp h) (by decide)
  | c :: rest, skip + 1, hskip, h => by
      rw [List.take_succ_cons] at hskip
      rcases List.infix_cons_iff.mp h with ⟨tail, htail⟩ | hrest
      · have hc : c = '{' := (List.cons.inj htail).1.symm
        exact absurd (hc ▸ List.mem_cons_self) hskip
      · exact put_mem_scanFrom rest skip (fun h' => hskip (List.mem_cons_of_mem c h')) hrest
  | c :: rest, 0, _, h => by
      rw [scanFrom]
      rcases List.infix_cons_iff.mp h with hprefix | hrest
      · rw [at?_messagePlaceholder name m hprefix]
        exact List.mem_cons_self
      · cases hat : Replacement.at? (fillings name m) (c :: rest) with
        | none => exact List.mem_cons_of_mem _ (put_mem_scanFrom rest 0 List.not_mem_nil hrest)
        | some r =>
            obtain ⟨hne, u, hu⟩ := Replacement.starts_iff.mp (Replacement.starts_of_at? hat)
            have hskip : rest.take (r.needle.length - 1) = r.needle.tail := by
              obtain ⟨d, word, hword⟩ := List.exists_cons_of_ne_nil hne
              rw [hword, List.cons_append] at hu
              rw [hword, ← (List.cons.inj hu).2]
              exact List.take_left
            refine List.mem_cons_of_mem _ (put_mem_scanFrom rest _ ?_ hrest)
            rw [hskip]
            exact brace_not_mem_tail name m (List.mem_of_find?_eq_some hat)

theorem put_mem_scan {t : Text} (h : Template.messagePlaceholder <:+: t) :
    messagePiece m ∈ scan (fillings name m) t :=
  put_mem_scanFrom name m t 0 List.not_mem_nil h

/-- A placeholder within the text of a node shows the message. -/
theorem infix_plainText_splice {c : Component}
    (h : ∃ t ∈ c.ownTexts, Template.messagePlaceholder <:+: t) :
    m.plainText <:+: (c.splice (fillings name m)).plainText := by
  obtain ⟨t, ht, hin⟩ := h
  have hpiece : m.plainText <:+: (scan (fillings name m) t).flatMap Piece.text :=
    List.infix_of_mem_flatten (List.mem_map_of_mem (put_mem_scan name m hin))
  have hnode : (scan (fillings name m) t).flatMap Piece.text
      <:+: (c.splice (fillings name m)).plainText := by
    rw [Component.plainText_splice]
    exact List.infix_of_mem_flatten (List.mem_map_of_mem ht)
  exact hpiece.trans hnode

end Scan

/-! ## Hover texts -/

mutual

/-- All hover trees in a tree, those inside hover trees included. -/
def Component.hovers : Component → List Component
  | ⟨_, style, children⟩ => style.hovers ++ hoversOfAll children

def Style.hovers : Style → List Component
  | ⟨_, _, _, _, hover, _, _⟩ => hoversOfHover hover

def hoversOfHover : Option Component → List Component
  | none => []
  | some c => c :: c.hovers

def hoversOfAll : List Component → List Component
  | [] => []
  | c :: rest => c.hovers ++ hoversOfAll rest

end

theorem hoversOfAll_append (cs ds : List Component) :
    hoversOfAll (cs ++ ds) = hoversOfAll cs ++ hoversOfAll ds := by
  induction cs with
  | nil => rfl
  | cons c rest ih => rw [List.cons_append, hoversOfAll, hoversOfAll, ih, List.append_assoc]

mutual

/-- A hover tree is rewritten where it stands. -/
theorem Component.mem_hovers_splice (rs : List Replacement) {h : Component} :
    ∀ {c : Component}, h ∈ c.hovers → h.splice rs ∈ (c.splice rs).hovers
  | ⟨text, ⟨_, _, _, _, hover, _, _⟩, children⟩, hmem => by
      rw [Component.splice, Component.hovers, Style.hovers, hoversOfAll_append]
      rcases List.mem_append.mp hmem with hmem | hmem
      · exact List.mem_append_left _ (mem_hoversOfHover_splice rs hmem)
      · exact List.mem_append_right _ (List.mem_append_right _ (mem_hoversOfAll_splice rs hmem))

theorem mem_hoversOfHover_splice (rs : List Replacement) {h : Component} :
    ∀ {hover : Option Component}, h ∈ hoversOfHover hover →
      h.splice rs ∈ hoversOfHover (spliceHover rs hover)
  | some c, hmem => by
      rw [spliceHover, hoversOfHover]
      rcases List.mem_cons.mp hmem with rfl | hmem
      · exact List.mem_cons_self
      · exact List.mem_cons_of_mem _ (Component.mem_hovers_splice rs hmem)

theorem mem_hoversOfAll_splice (rs : List Replacement) {h : Component} :
    ∀ {cs : List Component}, h ∈ hoversOfAll cs → h.splice rs ∈ hoversOfAll (spliceAll rs cs)
  | c :: rest, hmem => by
      rw [spliceAll, hoversOfAll]
      rcases List.mem_append.mp hmem with hmem | hmem
      · exact List.mem_append_left _ (Component.mem_hovers_splice rs hmem)
      · exact List.mem_append_right _ (mem_hoversOfAll_splice rs hmem)

end

/-! ## Checked templates -/

/-- The placeholder of the message lies within the text of a node of the tree. -/
def Component.MessageInText (c : Component) : Prop :=
  ∃ t ∈ c.ownTexts, Template.messagePlaceholder <:+: t

namespace Template

/-- A text with the placeholder is kept as it is, and any other is replaced. -/
theorem text_checked (id text : Text) (permission : Option Text) :
    (checked id text permission).value.text
      = if messagePlaceholder <:+: text then text else fallbackText := by
  have hgate : (made id text permission).text = text := by
    cases permission with
    | none => rfl
    | some node => rfl
  rw [checked]
  by_cases h : messagePlaceholder <:+: text
  · rw [if_pos ((Text.hasInfix_iff (by decide)).mpr h), if_pos h]
    exact hgate
  · rw [if_neg (mt (Text.hasInfix_iff (by decide)).mp h), if_neg h]
    rfl

theorem messageInText_fallback : (templateTree fallbackText).MessageInText :=
  ⟨fallbackText, by decide +kernel, by decide +kernel⟩

/-- What is said in one piece lies within the text of a node. -/
theorem messageInText_of_said {text : Text} {run : Run (List Mark)}
    (hrun : run ∈ interpret .trusted (spellOut text)) (h : messagePlaceholder <:+: run.text) :
    (templateTree text).MessageInText := by
  obtain ⟨u, hu, hin⟩ := exists_ownText_of_said hrun
  exact ⟨u, hu, h.trans hin⟩

end Template

/-! ## Rendered messages -/

namespace Renderer

/-- A checked template shows every message whole if the placeholder lies within the text
of a node of its tree, as it does if it lies within one piece of what the text says, and
also if the text does not have it and was replaced.  A hover text that has the placeholder
is rendered with both placeholders filled, and shows the message there. -/
theorem message_shown_of_checked (r : Renderer) (perms : Permissions) (id text : Text)
    (permission : Option Text) (hhook : r.expander = none)
    (hresolved : (r.snapshot.resolve perms).value
      = (Template.checked id text permission).value) :
    ((¬Template.messagePlaceholder <:+: text ∨ (templateTree text).MessageInText
        ∨ ∃ run ∈ interpret .trusted (spellOut text), Template.messagePlaceholder <:+: run.text) →
      ∀ name raw mixing, (messageTree raw mixing).plainText
        <:+: (r.render name raw perms mixing).value.plainText)
    ∧ (Template.messagePlaceholder <:+: text →
        ∀ hover ∈ (templateTree text).hovers, hover.MessageInText →
          ∀ name raw mixing,
            let message := messageTree raw mixing
            let shown := hover.splice (fillings (name.getD consoleName) message)
            shown ∈ (r.render name raw perms mixing).value.hovers
              ∧ message.plainText <:+: shown.plainText) := by
  have htext : (r.snapshot.resolve perms).value.text
      = if Template.messagePlaceholder <:+: text then text else Template.fallbackText := by
    rw [hresolved, Template.text_checked]
  refine ⟨fun hwhere name raw mixing => ?_, fun hin hover hhover hmessage name raw mixing => ?_⟩
  · rw [value_render_of_no_hook hhook, htext]
    refine infix_plainText_splice _ _ ?_
    by_cases hin : Template.messagePlaceholder <:+: text
    · rw [if_pos hin]
      rcases hwhere with hmissing | htree | ⟨run, hrun, hsaid⟩
      · exact absurd hin hmissing
      · exact htree
      · exact Template.messageInText_of_said hrun hsaid
    · rw [if_neg hin]
      exact Template.messageInText_fallback
  · rw [value_render_of_no_hook hhook, htext, if_pos hin]
    exact ⟨Component.mem_hovers_splice _ hhover, infix_plainText_splice _ _ hmessage⟩

/-- A template that shows the message twice, in a hover text and beside a name. -/
def twiceShown : Text :=
  "<hover:show_text:'<i>{message}'>{display_name}</hover> <foo>says <b>{message}</b>!".toList

theorem message_shown_of_twiceShown :
    let t := (Template.checked Template.defaultId twiceShown none).value
    let r : Renderer := ⟨⟨[t], t⟩, none⟩
    let name := some "Ann".toList
    let raw := some "&c<b>hi".toList
    let shown := (parse .trusted "<i>{message}".toList).splice
      (fillings "Ann".toList (messageTree raw true))
    r.expander = none ∧ (r.snapshot.resolve Permissions.refuseAll).value = t
      ∧ (templateTree twiceShown).MessageInText
      ∧ (messageTree raw true).plainText = "hi".toList
      ∧ (messageTree raw true).plainText
        <:+: (r.render name raw Permissions.refuseAll true).value.plainText
      ∧ shown ∈ (r.render name raw Permissions.refuseAll true).value.hovers
      ∧ (messageTree raw true).plainText <:+: shown.plainText := by
  intro t r name raw shown
  have hmessage : (templateTree twiceShown).MessageInText :=
    ⟨Template.messagePlaceholder, by decide +kernel, List.infix_refl _⟩
  have hhover : parse .trusted "<i>{message}".toList ∈ (templateTree twiceShown).hovers := by
    decide +kernel
  have hinside : (parse .trusted "<i>{message}".toList).MessageInText :=
    ⟨Template.messagePlaceholder, by decide +kernel, List.infix_refl _⟩
  have hresolved : (r.snapshot.resolve Permissions.refuseAll).value = t := by decide +kernel
  have hin : Template.messagePlaceholder <:+: twiceShown := by decide +kernel
  obtain ⟨hshown, hshownThere⟩ := message_shown_of_checked r Permissions.refuseAll
    Template.defaultId twiceShown none rfl hresolved
  exact ⟨rfl, hresolved, hmessage, by decide +kernel,
    hshown (Or.inr (Or.inl hmessage)) name raw true,
    hshownThere hin _ hhover hinside name raw true⟩

/-- A template that shows the message only when a reader hovers over the name: its text
has the placeholder, but nothing of the message is in the text of the tree. -/
theorem message_not_shown_beside_hover :
    let text := "<hover:show_text:'{message}'>{display_name}</hover>".toList
    let t := (Template.checked Template.defaultId text none).value
    let r : Renderer := ⟨⟨[t], t⟩, none⟩
    r.expander = none ∧ (r.snapshot.resolve Permissions.refuseAll).value = t
      ∧ ¬(messageTree (some "hi".toList) false).plainText
        <:+: (r.render (some "Ann".toList) (some "hi".toList) Permissions.refuseAll
          false).value.plainText :=
  ⟨rfl, by decide +kernel, by decide +kernel⟩

end Renderer

end StyledChat
