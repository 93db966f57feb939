/-
Styled text as the JSON that chat clients read.

The root is an empty text whose `extra` holds one object per run, so a fill
arrives as one colour per character.  The hover text of a run is written the
same way; it ends because every hover tree among the runs of a tree has fewer
nodes than that tree.
-/
import StyledChat.Component.Spans
import StyledChat.Json

namespace StyledChat

/-! ## The number of nodes, hover trees included -/

mutual

def Component.nodeCount : Component → Nat
  | ⟨_, style, children⟩ => 1 + style.nodeCount + nodeCounts children

def Style.nodeCount : Style → Nat
  | ⟨_, _, _, _, hover, _, _⟩ => hoverNodeCount hover

def hoverNodeCount : Option Component → Nat
  | none => 0
  | some c => c.nodeCount

def nodeCounts : List Component → Nat
  | [] => 0
  | c :: rest => c.nodeCount + nodeCounts rest

end

theorem Style.nodeCount_of_hover {s : Style} {h : Component} (e : s.hover = some h) :
    s.nodeCount = h.nodeCount := by
  obtain ⟨_, _, _, _, hover, _, _⟩ := s
  have e : hover = some h := e
  subst e
  simp [Style.nodeCount, hoverNodeCount]

/-! ## Where the hover trees of the runs come from -/

theorem Style.hover_resolve (own parent : Style) :
    (own.resolve parent).hover = own.hover.or parent.hover := by
  unfold Style.resolve
  split <;> rfl

theorem Span.hover_of_mem_paint {style : Style} {s : Span} :
    ∀ {text : Text} {place : FillPlace}, s ∈ Span.paint style place text →
      s.style.hover = style.hover
  | [], _, h => by simp [Span.paint] at h
  | _ :: _, _, h => by
    simp only [Span.paint, List.mem_cons] at h
    rcases h with rfl | h
    · rfl
    · exact hover_of_mem_paint h

theorem Span.hover_of_mem_ofText {text : Text} {style : Style} {place : Option FillPlace}
    {s : Span} (h : s ∈ Span.ofText text style place) : s.style.hover = style.hover := by
  unfold Span.ofText at h
  split at h
  · simp at h
  · split at h
    · exact Span.hover_of_mem_paint h
    · simp only [List.mem_singleton] at h
      exact h ▸ rfl

/-- The hover tree of a run is the one handed down from above, or it is smaller
than the tree the run comes from. -/
def HoverBelow (parent : Style) (size : Nat) (s : Span) : Prop :=
  ∀ h, s.style.hover = some h → parent.hover = some h ∨ h.nodeCount < size

theorem hoverBelow_of_resolve {own parent : Style} {s : Span} {size : Nat}
    (hs : s.style.hover = (own.resolve parent).hover) (hsize : own.nodeCount < size) :
    HoverBelow parent size s := by
  intro h e
  rw [hs, Style.hover_resolve] at e
  cases ho : own.hover with
  | none => exact Or.inl (by simpa [ho] using e)
  | some k =>
    have hk : k = h := by simpa [ho] using e
    subst hk
    exact Or.inr (Style.nodeCount_of_hover ho ▸ hsize)

theorem HoverBelow.through {own parent : Style} {s : Span} {small size : Nat}
    (hb : HoverBelow (own.resolve parent) small s) (hsmall : small < size)
    (hown : own.nodeCount < size) : HoverBelow parent size s := by
  intro h e
  rcases hb h e with hp | hlt
  · exact hoverBelow_of_resolve (s := ⟨s.text, own.resolve parent⟩) rfl hown h hp
  · exact Or.inr (Nat.lt_trans hlt hsmall)

mutual

theorem Component.hoverBelow_flatten (parent : Style) (outer : Option FillPlace) :
    ∀ (c : Component), ∀ s ∈ (c.flatten parent outer).1, HoverBelow parent c.nodeCount s
  | ⟨text, style, children⟩, s, hs => by
    have hown : style.nodeCount < Component.nodeCount ⟨text, style, children⟩ := by
      simp only [Component.nodeCount]; omega
    have hsmall : nodeCounts children < Component.nodeCount ⟨text, style, children⟩ := by
      simp only [Component.nodeCount]; omega
    simp only [Component.flatten] at hs
    split at hs
    all_goals
      rcases List.mem_append.mp hs with hs | hs
      · exact hoverBelow_of_resolve (Span.hover_of_mem_ofText hs) hown
      · exact (hoverBelow_flattenAll _ _ children s hs).through hsmall hown

theorem hoverBelow_flattenAll (parent : Style) (outer : Option FillPlace) :
    ∀ (cs : List Component), ∀ s ∈ (flattenAll parent outer cs).1,
      HoverBelow parent (nodeCounts cs) s
  | [], s, hs => by simp [flattenAll] at hs
  | c :: rest, s, hs => by
    simp only [flattenAll] at hs
    rcases List.mem_append.mp hs with hs | hs
    · intro h e
      refine (c.hoverBelow_flatten parent outer s hs h e).imp id (fun hlt => ?_)
      simp only [nodeCounts]; omega
    · intro h e
      refine (hoverBelow_flattenAll parent _ rest s hs h e).imp id (fun hlt => ?_)
      simp only [nodeCounts]; omega

end

theorem Span.mem_style_of_mem_merge {s : Span} :
    ∀ {l : List Span}, s ∈ Span.merge l → ∃ t ∈ l, t.style = s.style
  | [], h => by simp [Span.merge] at h
  | a :: rest, h => by
    simp only [Span.merge] at h
    split at h
    · simp only [List.mem_singleton] at h
      exact ⟨a, List.mem_cons_self, h ▸ rfl⟩
    · next t more hm =>
      split at h
      · rcases List.mem_cons.mp h with rfl | h
        · exact ⟨a, List.mem_cons_self, rfl⟩
        · obtain ⟨u, hu, e⟩ := mem_style_of_mem_merge (hm ▸ List.mem_cons_of_mem _ h)
          exact ⟨u, List.mem_cons_of_mem _ hu, e⟩
      · rcases List.mem_cons.mp h with rfl | h
        · exact ⟨s, List.mem_cons_self, rfl⟩
        · obtain ⟨u, hu, e⟩ := mem_style_of_mem_merge (hm ▸ h)
          exact ⟨u, List.mem_cons_of_mem _ hu, e⟩

/-- A hover tree among the runs of a tree has fewer nodes than the tree. -/
theorem Component.nodeCount_hover_lt {c : Component} {s : Span} {h : Component}
    (hs : s ∈ c.spans) (e : s.style.hover = some h) : h.nodeCount < c.nodeCount := by
  obtain ⟨t, ht, hst⟩ := Span.mem_style_of_mem_merge hs
  rcases c.hoverBelow_flatten Style.empty none t ht h (hst ▸ e) with hp | hlt
  · simp [Style.empty] at hp
  · exact hlt

/-! ## Writing -/

/-- A click event: what to do, and with what. -/
def ClickEvent.toJson (e : ClickEvent) : Json :=
  .object [("action".toList, .string e.action.name), ("value".toList, .string e.value)]

/-- A hover event showing an already written text. -/
def Json.showText (contents : Json) : Json :=
  .object [("action".toList, .string "show_text".toList), ("contents".toList, contents)]

/-- One run: its text and every property that is set.  `hover` is the written
form of its hover tree. -/
def Span.toJson (s : Span) (hover : Option Json) : Json :=
  .object <|
    ("text".toList, .string s.text)
    :: Json.field? "color".toList (s.style.color.map fun c => .string c.text)
    ++ Decoration.all.flatMap (fun d =>
        Json.field? d.name ((s.style.decorations.get d).map .bool))
    ++ Json.field? "clickEvent".toList (s.style.click.map ClickEvent.toJson)
    ++ Json.field? "hoverEvent".toList (hover.map Json.showText)
    ++ Json.field? "insertion".toList (s.style.insertion.map .string)
    ++ Json.field? "font".toList (s.style.font.map .string)

/-- The root around the written runs; without runs it has no `extra`. -/
def Json.root (runs : List Json) : Json :=
  .object <|
    ("text".toList, .string [])
    :: Json.field? "extra".toList (if runs.isEmpty then none else some (.array runs))

/-- The tree as a text component. -/
def Component.toJson (c : Component) : Json :=
  Json.root <| c.spans.attach.map fun ⟨s, _⟩ =>
    s.toJson <|
      match _e : s.style.hover with
      | none => none
      | some h => some h.toJson
termination_by c.nodeCount
decreasing_by exact Component.nodeCount_hover_lt ‹_› ‹_›

/-- Every run is written with its hover tree written the same way. -/
theorem Component.toJson_eq (c : Component) :
    c.toJson = Json.root (c.spans.map fun s => s.toJson (s.style.hover.map Component.toJson)) := by
  rw [Component.toJson]
  congr 1
  refine (List.map_congr_left fun x _ => ?_).trans
    (List.attach_map_val (f := fun s : Span => s.toJson (s.style.hover.map Component.toJson)))
  show x.1.toJson _ = _
  congr 1
  split <;> simp_all

end StyledChat
