/-
Trees in normal form.

The trees that reading can make have a root without text and style.  Below it, text
stands in plain leaves, none of them empty and no two side by side, and every other
node has no text and sets one property, in a way that a tag of the vocabulary can
(`OneProperty`).  A hover text is such a tree in turn, so the three notions are
defined together.
-/
import StyledChat.Markup.Parse
import StyledChat.Proofs.NodeStyles

namespace StyledChat

mutual

/-- The tree has neither text nor style at its root, and is normal below. -/
inductive NormalTree (v : Vocabulary) : Component → Prop
  | root {children : List Component} : NormalNodes v children →
      NormalTree v (Component.node Style.empty children)

/-- Nodes side by side: leaves with text, none in front of another, and nodes that set
one property. -/
inductive NormalNodes (v : Vocabulary) : List Component → Prop
  | nil : NormalNodes v []
  | leaf {text : Text} {rest : List Component} : text ≠ [] →
      (∀ c ∈ rest.head?, ¬c.isLeaf) → NormalNodes v rest →
      NormalNodes v (Component.leaf text :: rest)
  | node {style : Style} {children rest : List Component} : OneProperty v style →
      NormalNodes v children → NormalNodes v rest →
      NormalNodes v (Component.node style children :: rest)

/-- The style sets one property, which the tags of the vocabulary can set. -/
inductive OneProperty (v : Vocabulary) : Style → Prop
  | color (c : Color) : OneProperty v { color := some c }
  | decoration (d : Decoration) (on : Bool) : OneProperty v (Style.empty.decorate d on)
  | gradient {stops : List Color} : 2 ≤ stops.length →
      OneProperty v { fill := some (.gradient stops) }
  | rainbow (phase : UInt32) (reversed : Bool) :
      OneProperty v { fill := some (.rainbow phase reversed) }
  | click (event : ClickEvent) : v.allows .click → OneProperty v { click := some event }
  | hover {tree : Component} : v.allows .hover → NormalTree v tree →
      OneProperty v { hover := some tree }
  | insertion (t : Text) : v.allows .insertion → OneProperty v { insertion := some t }
  | font {key : Text} : v.allows .font → key ≠ [] → OneProperty v { font := some key }

end

/-- A node that sets a property is no leaf. -/
theorem OneProperty.not_isLeaf {v : Vocabulary} {style : Style} (h : OneProperty v style)
    (children : List Component) : ¬(Component.node style children).isLeaf := by
  intro hleaf
  have hempty : style = {} := congrArg Component.style (Draft.isLeaf_iff.mp hleaf)
  cases h with
  | decoration d on => cases d <;> cases hempty
  | color | gradient | rainbow | click | hover | insertion | font => cases hempty

/-! ## Styling only -/

/-- What sets no font and is not interactive is a matter of styling tags. -/
theorem OneProperty.restricted {v : Vocabulary} {style : Style} (h : OneProperty v style)
    (hstyling : style.isInteractive = false ∧ style.font = none) :
    OneProperty .restricted style := by
  cases h with
  | color c => exact .color c
  | decoration d on => exact .decoration d on
  | gradient hstops => exact .gradient hstops
  | rainbow phase reversed => exact .rainbow phase reversed
  | click | hover | insertion => cases hstyling.1
  | font => cases hstyling.2

theorem NormalNodes.restricted {v : Vocabulary} : ∀ {cs : List Component}, NormalNodes v cs →
    (∀ s ∈ stylesOfAll cs, s.isInteractive = false ∧ s.font = none) → NormalNodes .restricted cs
  | _, .nil, _ => .nil
  | _, .leaf htext hnext hrest, hstyling =>
      .leaf htext hnext (hrest.restricted fun s hs => hstyling s (List.mem_append_right _ hs))
  | _, .node hstyle hchildren hrest, hstyling => by
      have hown := hstyling _ (List.mem_append_left _ List.mem_cons_self)
      refine .node (hstyle.restricted hown) (hchildren.restricted fun s hs => ?_)
        (hrest.restricted fun s hs => hstyling s (List.mem_append_right _ hs))
      exact hstyling s (List.mem_append_left _ (List.mem_cons_of_mem _ hs))

theorem NormalTree.restricted {v : Vocabulary} {c : Component} (h : NormalTree v c)
    (hstyling : ∀ s ∈ c.styles, s.isInteractive = false ∧ s.font = none) :
    NormalTree .restricted c := by
  cases h with
  | root hchildren =>
      exact .root (hchildren.restricted fun s hs => hstyling s (List.mem_cons_of_mem _ hs))

end StyledChat
