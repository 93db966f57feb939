/-
What a reader can do with a text is decided by its template.

`Component.interactions` lists everything interactive in a tree in reading order,
hover texts included.  Putting trees without interactions in the place of literal
text leaves that list as it is, wherever the text stood
(`Component.interactions_splice`), and the tree of a message has none.  The
rendered tree therefore lists what its template lists, and two messages cannot
differ in it.
-/
import StyledChat.Proofs.Restricted
import StyledChat.Proofs.Splice

namespace StyledChat

/-- An entry in a listing of what is interactive. -/
inductive Interaction where
  | click (event : ClickEvent)
  /-- A hover text begins; what is interactive in it comes next. -/
  | hoverStart
  | hoverEnd
  | insertion (t : Text)
  | font (key : Text)
deriving DecidableEq

mutual

/-- Everything interactive in a tree, fonts included, in reading order and with
the hover texts gone into. -/
def Component.interactions : Component → List Interaction
  | ⟨_, style, children⟩ => style.interactions ++ interactionsOfAll children

def Style.interactions : Style → List Interaction
  | ⟨_, _, _, click, hover, insertion, font⟩ =>
    (click.map .click).toList ++ hoverInteractions hover
      ++ (insertion.map .insertion).toList ++ (font.map .font).toList

def hoverInteractions : Option Component → List Interaction
  | none => []
  | some c => .hoverStart :: (c.interactions ++ [.hoverEnd])

def interactionsOfAll : List Component → List Interaction
  | [] => []
  | c :: rest => c.interactions ++ interactionsOfAll rest

end

theorem interactionsOfAll_append (cs ds : List Component) :
    interactionsOfAll (cs ++ ds) = interactionsOfAll cs ++ interactionsOfAll ds := by
  induction cs with
  | nil => rfl
  | cons c rest ih =>
      rw [List.cons_append, interactionsOfAll, interactionsOfAll, ih, List.append_assoc]

theorem interactionsOfAll_eq_nil {cs : List Component} (h : ∀ c ∈ cs, c.interactions = []) :
    interactionsOfAll cs = [] := by
  induction cs with
  | nil => rfl
  | cons c rest ih =>
      rw [interactionsOfAll, h c List.mem_cons_self,
        ih fun d hd => h d (List.mem_cons_of_mem _ hd)]
      rfl

/-! ## Trees without interactions -/

theorem Style.Inert.interactions {s : Style} (h : s.Inert) : s.interactions = [] := by
  obtain ⟨_, _, _, click, hover, insertion, font⟩ := s
  obtain ⟨hclick, hhover, hinsertion, hfont⟩ := h
  dsimp only at hclick hhover hinsertion hfont
  rw [hclick, hhover, hinsertion, hfont]
  rfl

mutual

theorem Component.interactions_of_inert : ∀ {c : Component}, (∀ s ∈ c.styles, s.Inert) →
    c.interactions = []
  | ⟨_, style, children⟩, h => by
      rw [Component.interactions, (h style List.mem_cons_self).interactions,
        interactionsOfAll_of_inert fun s hs => h s (List.mem_cons_of_mem _ hs)]
      rfl

theorem interactionsOfAll_of_inert : ∀ {cs : List Component},
    (∀ s ∈ stylesOfAll cs, s.Inert) → interactionsOfAll cs = []
  | [], _ => rfl
  | c :: rest, h => by
      rw [interactionsOfAll,
        Component.interactions_of_inert fun s hs => h s (List.mem_append_left _ hs),
        interactionsOfAll_of_inert fun s hs => h s (List.mem_append_right _ hs)]
      rfl

end

/-- The tree of a message has no interactions. -/
theorem interactions_messageTree (raw : Option Text) (mixing : Bool) :
    (messageTree raw mixing).interactions = [] :=
  Component.interactions_of_inert (inert_of_mem_styles_messageTree raw mixing)

/-! ## Putting such trees into another -/

/-- None of the trees to put in has interactions. -/
def Replacement.AllInert (rs : List Replacement) : Prop := ∀ r ∈ rs, r.content.interactions = []

theorem interactions_of_mem_spliceText {rs : List Replacement} (hrs : Replacement.AllInert rs)
    {text : Text} : ∀ p ∈ (spliceText rs text).2, p.interactions = [] := by
  intro p hp
  rcases mem_spliceText rs text p hp with ⟨r, hr, rfl⟩ | ⟨t, rfl⟩
  · exact hrs r hr
  · rfl

mutual

/-- Trees without interactions, put in the place of text, change none. -/
theorem Component.interactions_splice {rs : List Replacement}
    (hrs : Replacement.AllInert rs) : ∀ c : Component,
    (c.splice rs).interactions = c.interactions
  | ⟨text, ⟨_, _, _, _, hover, _, _⟩, children⟩ => by
      rw [Component.splice]
      simp only [Component.interactions, Style.interactions, interactionsOfAll_append,
        interactionsOfAll_eq_nil (interactions_of_mem_spliceText hrs),
        hoverInteractions_splice hrs hover, interactionsOfAll_splice hrs children, List.nil_append]

theorem hoverInteractions_splice {rs : List Replacement}
    (hrs : Replacement.AllInert rs) : ∀ hover : Option Component,
    hoverInteractions (spliceHover rs hover) = hoverInteractions hover
  | none => by rw [spliceHover]
  | some c => by
      rw [spliceHover, hoverInteractions, hoverInteractions, c.interactions_splice hrs]

theorem interactionsOfAll_splice {rs : List Replacement}
    (hrs : Replacement.AllInert rs) : ∀ cs : List Component,
    interactionsOfAll (spliceAll rs cs) = interactionsOfAll cs
  | [] => by rw [spliceAll]
  | c :: rest => by
      rw [spliceAll, interactionsOfAll, interactionsOfAll, c.interactions_splice hrs,
        interactionsOfAll_splice hrs rest]

end

/-! ## Rendered messages -/

theorem interactions_filledTree (text name : Text) (raw : Option Text) (mixing : Bool) :
    (filledTree text name (messageTree raw mixing)).interactions
      = (templateTree text).interactions := by
  refine Component.interactions_splice (fun r hr => ?_) (templateTree text)
  rcases List.mem_cons.mp hr with rfl | hr
  · rfl
  · obtain rfl := List.mem_singleton.mp hr
    exact interactions_messageTree raw mixing

namespace Renderer

/-- The template text a message is rendered into, the hook already run over it. -/
def sourceText (r : Renderer) (name : Option Text) (perms : Permissions) : Text :=
  let text := (r.snapshot.resolve perms).value.text
  match name, r.expander with
  | some name, some expand => expand name text
  | _, _ => text

/-- Nothing but the message itself depends on what the player typed. -/
theorem value_render (r : Renderer) (name raw : Option Text) (perms : Permissions)
    (mixing : Bool) : (r.render name raw perms mixing).value =
      filledTree (r.sourceText name perms) (name.getD consoleName) (messageTree raw mixing) := by
  obtain ⟨snapshot, expander⟩ := r
  cases name with
  | none => rfl
  | some name =>
      cases expander with
      | none => rfl
      | some expand => rfl

theorem value_render_of_no_hook {r : Renderer} (hhook : r.expander = none)
    (name raw : Option Text) (perms : Permissions) (mixing : Bool) :
    (r.render name raw perms mixing).value
      = filledTree (r.snapshot.resolve perms).value.text (name.getD consoleName)
          (messageTree raw mixing) := by
  obtain ⟨snapshot, expander⟩ := r
  obtain rfl : expander = none := hhook
  cases name <;> rfl

/-- What players type neither adds, removes, moves nor alters anything
interactive: any two messages, sent or absent, are rendered into trees that list
the same click events, hover texts, insertions and fonts in the same order. -/
theorem interactions_render_eq (r : Renderer) (name : Option Text) (perms : Permissions)
    (mixing : Bool) (raw other : Option Text) :
    (r.render name raw perms mixing).value.interactions
      = (r.render name other perms mixing).value.interactions := by
  rw [value_render, value_render, interactions_filledTree, interactions_filledTree]

end Renderer

end StyledChat
