/-
What players type is never interactive.

The styling vocabulary has no tag that sets a click event, a hover text, an
insertion or a font, so no node of a tree read with it carries one, whatever the
text is and however it was rewritten before (`inert_of_mem_styles_parse`).  The
rest follows from that alone: such a tree is not interactive, its characters look
inert, and what clients are sent of it has none of the four fields.
-/
import StyledChat.Chat.Render
import StyledChat.Component.Json
import StyledChat.Proofs.NodeStyles

namespace StyledChat

/-- Nothing to click, to hover over or to insert, and no font. -/
structure Style.Inert (s : Style) : Prop where
  click : s.click = none
  hover : s.hover = none
  insertion : s.insertion = none
  font : s.font = none

theorem Style.inert_empty : Style.empty.Inert := ⟨rfl, rfl, rfl, rfl⟩

theorem Style.Inert.isInteractive {s : Style} (h : s.Inert) : s.isInteractive = false := by
  rw [Style.isInteractive, h.click, h.hover, h.insertion]
  rfl

/-! ## Restricted reading -/

/-- A tag that the styling vocabulary allows sets a colour, a decoration or a
fill. -/
theorem Tag.inert_style {tag : Tag} (h : Vocabulary.restricted.allows tag.group)
    (read : Text → Component) : (tag.style read).Inert := by
  cases tag with
  | color | decoration | fill | reset => exact ⟨rfl, rfl, rfl, rfl⟩
  | click | hover | insertion | newline | font => exact absurd h Bool.false_ne_true

theorem inert_of_mem_styles_parse {t : Text} {s : Style}
    (h : s ∈ (parse .restricted t).styles) : s.Inert := by
  rw [parse_eq] at h
  rcases mem_styles_parseWith h with rfl | ⟨_, _, _, meaning, _, hallowed, rfl⟩
  · exact Style.inert_empty
  · exact Tag.inert_style (Draft.allowedTag?_eq_some_iff.mp hallowed).2 _

/-- No node of a message's tree is interactive or has a font. -/
theorem inert_of_mem_styles_messageTree (raw : Option Text) (mixing : Bool) :
    ∀ s ∈ (messageTree raw mixing).styles, s.Inert := by
  intro s hs
  cases raw with
  | none =>
      obtain rfl := List.mem_singleton.mp hs
      exact Style.inert_empty
  | some t => exact inert_of_mem_styles_parse hs

/-! ## Inert trees -/

section InertTree

variable {c : Component} (hc : ∀ s ∈ c.styles, s.Inert)
include hc

theorem Component.isInteractive_of_inert : c.isInteractive = false := by
  rw [c.isInteractive_eq_any, List.any_eq_false]
  intro s hs
  rw [(hc s hs).isInteractive]
  exact Bool.false_ne_true

/-- Every run of an inert tree is inert: a style is handed down, not made up. -/
theorem Component.inert_of_mem_spans {s : Span} (hs : s ∈ c.spans) : s.style.Inert := by
  obtain ⟨a, ha, hlook⟩ := Component.exists_look_of_mem_spans hs
  have hpath : ∀ l ∈ a.2, l.style.Inert :=
    fun l hl => hc _ (c.style_mem_of_mem_characters a ha l hl)
  have hnearest : ∀ {β : Type} (property : Style → Option β),
      (∀ t : Style, t.Inert → property t = none) → Level.nearest property a.2 = none := by
    intro β property h
    exact List.findSome?_eq_none_iff.mpr fun l hl => h _ (hpath l hl)
  rw [hlook]
  exact ⟨hnearest _ fun _ h => h.click, hnearest _ fun _ h => h.hover,
    hnearest _ fun _ h => h.insertion, hnearest _ fun _ h => h.font⟩

end InertTree

/-! ## What clients are sent -/

mutual

/-- The objects anywhere in a value, each by its fields. -/
def Json.objects : Json → List (List (Text × Json))
  | .string _ => []
  | .bool _ => []
  | .array items => objectsOfItems items
  | .object fields => fields :: objectsOfFields fields

def objectsOfItems : List Json → List (List (Text × Json))
  | [] => []
  | item :: rest => item.objects ++ objectsOfItems rest

def objectsOfFields : List (Text × Json) → List (List (Text × Json))
  | [] => []
  | (_, value) :: rest => value.objects ++ objectsOfFields rest

end

theorem objectsOfItems_eq_flatMap (items : List Json) :
    objectsOfItems items = items.flatMap Json.objects := by
  induction items with
  | nil => rfl
  | cons item rest ih => rw [objectsOfItems, ih, List.flatMap_cons]

theorem objectsOfFields_eq_flatMap (fields : List (Text × Json)) :
    objectsOfFields fields = fields.flatMap fun f => f.2.objects := by
  induction fields with
  | nil => rfl
  | cons f rest ih => rw [objectsOfFields, ih, List.flatMap_cons]

namespace Json

/-- The fields of a text component that is not interactive. -/
def plainKeys : List Text :=
  "text".toList :: "extra".toList :: "color".toList :: Decoration.all.map Decoration.name

/-- The fields that make text interactive, and the font. -/
def interactiveKeys : List Text :=
  ["clickEvent".toList, "hoverEvent".toList, "insertion".toList, "font".toList]

theorem not_mem_plainKeys : ∀ key ∈ interactiveKeys, key ∉ plainKeys := by decide

@[simp] theorem field?_none (key : Text) : field? key none = [] := rfl

theorem mem_field? {key : Text} {value : Option Json} {f : Text × Json}
    (h : f ∈ field? key value) : f.1 = key ∧ value = some f.2 := by
  cases value with
  | none => cases h
  | some v =>
      obtain rfl := List.mem_singleton.mp h
      exact ⟨rfl, rfl⟩

/-- The objects of a root are its own, with plain fields, and those of its runs. -/
theorem objects_root (runs : List Json) : ∃ fields,
    (root runs).objects = fields :: runs.flatMap Json.objects ∧
      ∀ f ∈ fields, f.1 ∈ plainKeys := by
  cases runs with
  | nil =>
      refine ⟨_, rfl, fun f hf => ?_⟩
      obtain rfl := List.mem_singleton.mp hf
      exact List.mem_cons_self
  | cons run rest =>
      refine ⟨[("text".toList, .string []), ("extra".toList, .array (run :: rest))], ?_, ?_⟩
      · rw [← objectsOfItems_eq_flatMap]
        exact congrArg (List.cons _) (List.append_nil _)
      · intro f hf
        rcases List.mem_cons.mp hf with rfl | hf
        · exact List.mem_cons_self
        · obtain rfl := List.mem_singleton.mp hf
          exact List.mem_cons_of_mem _ List.mem_cons_self

end Json

/-- A field of a run without click event, hover text, insertion and font: its key
is a plain one, and its value holds no object. -/
theorem Span.plain_field_of_inert {s : Span} (hs : s.style.Inert) :
    ∃ fields, s.toJson none = .object fields ∧
      ∀ f ∈ fields, f.1 ∈ Json.plainKeys ∧ f.2.objects = [] := by
  refine ⟨_, rfl, fun f hf => ?_⟩
  rw [hs.click, hs.insertion, hs.font] at hf
  simp only [Option.map_none, Json.field?_none, List.append_nil, List.mem_append, List.mem_cons,
    List.mem_flatMap] at hf
  rcases hf with (rfl | hcolor) | ⟨d, hd, hdecoration⟩
  · exact ⟨List.mem_cons_self, rfl⟩
  · obtain ⟨hkey, hvalue⟩ := Json.mem_field? hcolor
    obtain ⟨color, -, hf⟩ := Option.map_eq_some_iff.mp hvalue
    exact ⟨hkey ▸ by decide, hf ▸ rfl⟩
  · obtain ⟨hkey, hvalue⟩ := Json.mem_field? hdecoration
    obtain ⟨on, -, hf⟩ := Option.map_eq_some_iff.mp hvalue
    have hname : d.name ∈ Json.plainKeys :=
      List.mem_append_right ["text".toList, "extra".toList, "color".toList]
        (List.mem_map_of_mem hd)
    exact ⟨hkey ▸ hname, hf ▸ rfl⟩

/-- Every object that clients are sent for an inert tree has plain fields only. -/
theorem Component.plain_of_mem_objects {c : Component} (hc : ∀ s ∈ c.styles, s.Inert) :
    ∀ fields ∈ c.toJson.objects, ∀ f ∈ fields, f.1 ∈ Json.plainKeys := by
  have hhover : ∀ s ∈ c.spans, s.toJson (s.style.hover.map Component.toJson) = s.toJson none := by
    intro s hs
    rw [(Component.inert_of_mem_spans hc hs).hover]
    rfl
  obtain ⟨own, hroot, hown⟩ := Json.objects_root (c.spans.map fun s => s.toJson none)
  rw [c.toJson_eq, List.map_congr_left hhover, hroot]
  intro fields hfields f hf
  rcases List.mem_cons.mp hfields with rfl | hfields
  · exact hown f hf
  · -- an object below the root belongs to a run
    obtain ⟨_, hrun, hfields⟩ := List.mem_flatMap.mp hfields
    obtain ⟨s, hs, rfl⟩ := List.mem_map.mp hrun
    obtain ⟨run, hrun, hplain⟩ :=
      Span.plain_field_of_inert (Component.inert_of_mem_spans hc hs)
    rw [hrun, Json.objects, objectsOfFields_eq_flatMap] at hfields
    rcases List.mem_cons.mp hfields with rfl | hfields
    · exact (hplain f hf).1
    · obtain ⟨g, hg, hfields⟩ := List.mem_flatMap.mp hfields
      rw [(hplain g hg).2] at hfields
      cases hfields

/-- What a player types carries no click event, no hover text, no insertion and
no font on any node, with codes and flags expanded or not.  So it is never
interactive, and no object that clients are sent for it has such a field. -/
theorem messageTree_not_interactive (raw : Text) (mixing : Bool) :
    (∀ s ∈ (messageTree (some raw) mixing).styles,
        s.click = none ∧ s.hover = none ∧ s.insertion = none ∧ s.font = none)
      ∧ (messageTree (some raw) mixing).isInteractive = false
      ∧ ∀ fields ∈ (messageTree (some raw) mixing).toJson.objects,
          ∀ key ∈ Json.interactiveKeys, key ∉ fields.map Prod.fst := by
  have hinert := inert_of_mem_styles_messageTree (some raw) mixing
  refine ⟨fun s hs => ?_, Component.isInteractive_of_inert hinert, ?_⟩
  · exact ⟨(hinert s hs).click, (hinert s hs).hover, (hinert s hs).insertion, (hinert s hs).font⟩
  · intro fields hfields key hkey hmem
    obtain ⟨f, hf, rfl⟩ := List.mem_map.mp hmem
    exact Json.not_mem_plainKeys f.1 hkey (Component.plain_of_mem_objects hinert fields hfields f hf)

end StyledChat
