/-
What clients can tell from the JSON of a tree.

Two trees are sent alike exactly when their runs are alike, where the hover text of a run
counts by its runs as well, and not by the tree they come from (`Component.deepSpans`).
So nothing that is shown gets lost, and nothing else is sent.  Both halves say what the
JSON is: it can be written from those runs (`Component.toJson_eq_root`), and a reader that
looks up fields by their keys finds every one of them again (`Component.runs_toJson`).
-/
import StyledChat.Component.Json
import StyledChat.Proofs.Spans
import StyledChat.Proofs.WrittenTags

namespace StyledChat

/-! ## Runs all the way down -/

/-- A run whose hover text is a list of such runs in turn, where a span has a tree. -/
structure DeepSpan where
  text : Text
  color : Option Color
  fill : Option Fill
  decorations : Decorations
  click : Option ClickEvent
  hover : Option (List DeepSpan)
  insertion : Option Text
  font : Option Text

/-- The run with `hover` in the place of its hover tree. -/
def Span.deepen (s : Span) (hover : Option (List DeepSpan)) : DeepSpan where
  text := s.text
  color := s.style.color
  fill := s.style.fill
  decorations := s.style.decorations
  click := s.style.click
  hover := hover
  insertion := s.style.insertion
  font := s.style.font

/-- The runs of a tree, and those of the hover trees in them, and so on. -/
def Component.deepSpans (c : Component) : List DeepSpan :=
  c.spans.attach.map fun ⟨s, _⟩ =>
    s.deepen <|
      match _e : s.style.hover with
      | none => none
      | some h => some h.deepSpans
termination_by c.nodeCount
decreasing_by exact Component.nodeCount_hover_lt ‹_› ‹_›

namespace Component

theorem deepSpans_eq (c : Component) :
    c.deepSpans = c.spans.map fun s => s.deepen (s.style.hover.map deepSpans) := by
  rw [deepSpans]
  refine (List.map_congr_left fun x _ => ?_).trans
    (List.attach_map_val (f := fun s : Span => s.deepen (s.style.hover.map deepSpans)))
  show x.1.deepen _ = _
  congr 1
  split
  · next e => rw [e, Option.map_none]
  · next h e => rw [e, Option.map_some]

/-- Along the hover trees in the runs of a tree. -/
theorem hover_induction {motive : Component → Prop}
    (step : ∀ c, (∀ s ∈ c.spans, ∀ h, s.style.hover = some h → motive h) → motive c)
    (c : Component) : motive c :=
  step c fun _ hs h e =>
    have := nodeCount_hover_lt hs e
    hover_induction step h
termination_by c.nodeCount

end Component

/-! ## Writing from the runs -/

mutual

/-- A run as it is sent, its hover text written from the runs of that. -/
def DeepSpan.toJson : DeepSpan → Json
  | ⟨text, color, fill, decorations, click, hover, insertion, font⟩ =>
    Span.toJson ⟨text, color, fill, decorations, click, none, insertion, font⟩
      (hoverToJson hover)

def hoverToJson : Option (List DeepSpan) → Option Json
  | none => none
  | some runs => some (Json.root (runsToJson runs))

def runsToJson : List DeepSpan → List Json
  | [] => []
  | run :: rest => run.toJson :: runsToJson rest

end

theorem runsToJson_eq_map (runs : List DeepSpan) : runsToJson runs = runs.map DeepSpan.toJson := by
  induction runs with
  | nil => rfl
  | cons run rest ih => rw [runsToJson, ih, List.map_cons]

theorem Span.toJson_deepen (s : Span) (hover : Option (List DeepSpan)) :
    (s.deepen hover).toJson = s.toJson (hoverToJson hover) := by
  rw [deepen, DeepSpan.toJson]
  rfl

/-- What is sent of a tree is a matter of its runs. -/
theorem Component.toJson_eq_root (c : Component) :
    c.toJson = Json.root (runsToJson c.deepSpans) := by
  induction c using Component.hover_induction with
  | step c ih =>
      rw [c.toJson_eq, c.deepSpans_eq, runsToJson_eq_map, List.map_map]
      congr 1
      refine List.map_congr_left fun s hs => ?_
      rw [Function.comp_apply, Span.toJson_deepen]
      cases hover : s.style.hover with
      | none => rfl
      | some h =>
          rw [Option.map_some, Option.map_some, hoverToJson, ih s hs h hover]

/-! ## Reading

Fields are looked up by their keys, so the order in which an object has them is of no
account. -/

namespace Json

/-- The value of a field. -/
def get? (key : Text) : Json → Option Json
  | object fields => fields.lookup key
  | _ => none

def text? : Json → Option Text
  | string t => some t
  | _ => none

def flag? : Json → Option Bool
  | bool b => some b
  | _ => none

def items : Json → List Json
  | array items => items
  | _ => []

/-- The text in a field. -/
def textOf? (key : Text) (j : Json) : Option Text := (j.get? key).bind text?

/-- The values of the runs in a root. -/
def extra (j : Json) : List Json := ((j.get? "extra".toList).map items).getD []

/-- What the hover event of a run shows. -/
def contents? (j : Json) : Option Json :=
  (j.get? "hoverEvent".toList).bind (get? "contents".toList)

theorem sizeOf_get?_lt {j value : Json} {key : Text} (h : j.get? key = some value) :
    sizeOf value < sizeOf j := by
  cases j with
  | object fields =>
      obtain ⟨before, behind, rfl, -⟩ := List.lookup_eq_some_iff.mp h
      have hmem : (key, value) ∈ before ++ (key, value) :: behind :=
        List.mem_append_right _ List.mem_cons_self
      have hlt := List.sizeOf_lt_of_mem hmem
      simp only [Prod.mk.sizeOf_spec, object.sizeOf_spec] at hlt ⊢
      omega
  | string _ | bool _ | array _ => cases h

theorem sizeOf_lt_of_mem_extra {j run : Json} (h : run ∈ j.extra) : sizeOf run < sizeOf j := by
  unfold extra at h
  cases hget : j.get? "extra".toList with
  | none =>
      rw [hget] at h
      cases h
  | some value =>
      rw [hget] at h
      have hvalue := sizeOf_get?_lt hget
      cases value with
      | array items =>
          have hlt := List.sizeOf_lt_of_mem (show run ∈ items from h)
          simp only [array.sizeOf_spec] at hvalue
          omega
      | string _ | bool _ | object _ => cases h

theorem sizeOf_contents?_lt {run shown : Json} (h : run.contents? = some shown) :
    sizeOf shown < sizeOf run := by
  obtain ⟨event, hevent, hshown⟩ := Option.bind_eq_some_iff.mp h
  exact (sizeOf_get?_lt hshown).trans (sizeOf_get?_lt hevent)

end Json

/-- A click event, from its two fields. -/
def ClickEvent.ofJson? (j : Json) : Option ClickEvent := do
  let action ← (j.textOf? "action".toList).bind ClickAction.ofName?
  let value ← j.textOf? "value".toList
  return ⟨action, value⟩

/-- The states that a function gives to the decorations. -/
def Decorations.ofStates (state : Decoration → Option Bool) : Decorations where
  bold := state .bold
  italic := state .italic
  underlined := state .underlined
  strikethrough := state .strikethrough
  obfuscated := state .obfuscated

/-- A run, from the fields of its object and the runs of its hover text. -/
def Json.deepSpan (j : Json) (hover : Option (List DeepSpan)) : DeepSpan where
  text := (j.textOf? "text".toList).getD []
  color := (j.textOf? "color".toList).bind Color.parse?
  fill := none
  decorations := .ofStates fun d => (j.get? d.name).bind flag?
  click := (j.get? "clickEvent".toList).bind ClickEvent.ofJson?
  hover := hover
  insertion := j.textOf? "insertion".toList
  font := j.textOf? "font".toList

/-- The runs in a root. -/
def Json.runs (j : Json) : List DeepSpan :=
  j.extra.attach.map fun ⟨run, _⟩ =>
    run.deepSpan <|
      match _e : run.contents? with
      | none => none
      | some shown => some shown.runs
termination_by sizeOf j
decreasing_by exact (Json.sizeOf_contents?_lt ‹_›).trans (Json.sizeOf_lt_of_mem_extra ‹_›)

theorem Json.runs_eq (j : Json) :
    j.runs = j.extra.map fun run => run.deepSpan (run.contents?.map Json.runs) := by
  rw [Json.runs]
  refine (List.map_congr_left fun x _ => ?_).trans
    (List.attach_map_val (f := fun run : Json => run.deepSpan (run.contents?.map Json.runs)))
  show x.1.deepSpan _ = _
  congr 1
  split
  · next e => rw [e, Option.map_none]
  · next h e => rw [e, Option.map_some]

/-! ## Fields that may be missing -/

namespace Json

/-- The fields that have a value. -/
def fields (slots : List (Text × Option Json)) : List (Text × Json) :=
  slots.flatMap fun slot => field? slot.1 slot.2

theorem lookup_fields_cons {key k : Text} (h : key ≠ k) (value : Option Json)
    (rest : List (Text × Option Json)) :
    (fields ((k, value) :: rest)).lookup key = (fields rest).lookup key := by
  cases value with
  | none => rfl
  | some v =>
      show List.lookup key ((k, v) :: fields rest) = _
      rw [List.lookup_cons, beq_false_of_ne h]

theorem lookup_fields_of_not_mem {key : Text} : ∀ {slots : List (Text × Option Json)},
    key ∉ slots.map Prod.fst → (fields slots).lookup key = none
  | [], _ => rfl
  | (k, value) :: rest, h => by
      obtain ⟨hk, hrest⟩ := not_or.mp (List.mem_cons.not.mp h)
      rw [lookup_fields_cons hk]
      exact lookup_fields_of_not_mem hrest

/-- With distinct keys, a field is looked up by its key, whether it has a value or not. -/
theorem lookup_fields {key : Text} {value : Option Json} :
    ∀ {slots : List (Text × Option Json)}, (slots.map Prod.fst).Nodup → (key, value) ∈ slots →
      (fields slots).lookup key = value
  | (k, v) :: rest, hnodup, hmem => by
      obtain ⟨hfirst, hrest⟩ : k ∉ rest.map Prod.fst ∧ (rest.map Prod.fst).Nodup :=
        List.nodup_cons.mp hnodup
      rcases List.mem_cons.mp hmem with he | hmem
      · obtain ⟨rfl, rfl⟩ := Prod.mk.inj he
        cases value with
        | none =>
            show (fields rest).lookup key = none
            exact lookup_fields_of_not_mem hfirst
        | some v => exact List.lookup_cons_self
      · have hk : key ∈ rest.map Prod.fst := List.mem_map.mpr ⟨_, hmem, rfl⟩
        rw [lookup_fields_cons fun e : key = k => hfirst (e ▸ hk)]
        exact lookup_fields hrest hmem

end Json

namespace Span

variable (s : Span) (hover : Option Json)

/-- The fields of a run, those that are missing included. -/
def slots : List (Text × Option Json) :=
  [("text".toList, some (.string s.text)),
      ("color".toList, s.style.color.map fun c => .string c.text)]
    ++ Decoration.all.map (fun d => (d.name, (s.style.decorations.get d).map .bool))
    ++ [("clickEvent".toList, s.style.click.map ClickEvent.toJson),
      ("hoverEvent".toList, hover.map Json.showText),
      ("insertion".toList, s.style.insertion.map .string),
      ("font".toList, s.style.font.map .string)]

theorem toJson_eq_fields : s.toJson hover = .object (Json.fields (s.slots hover)) := by
  simp [toJson, Json.fields, slots, Decoration.all, Json.field?]

theorem nodup_slots : ((s.slots hover).map Prod.fst).Nodup := by
  show (["text".toList, "color".toList] ++ Decoration.all.map Decoration.name
    ++ ["clickEvent".toList, "hoverEvent".toList, "insertion".toList, "font".toList]).Nodup
  decide

theorem get?_toJson : ∀ slot ∈ s.slots hover, (s.toJson hover).get? slot.1 = slot.2 := by
  intro slot h
  rw [toJson_eq_fields]
  exact Json.lookup_fields (s.nodup_slots hover) h

end Span

/-! ## What was written is read -/

theorem bind_map_of_inverse {α β : Type} {f : α → β} {g : β → Option α}
    (h : ∀ a, g (f a) = some a) (o : Option α) : (o.map f).bind g = o := by
  cases o with
  | none => rfl
  | some a => exact h a

theorem ClickEvent.ofJson?_toJson (e : ClickEvent) : ofJson? e.toJson = some e := by
  obtain ⟨action, value⟩ := e
  cases action <;> rfl

theorem Json.extra_root (runs : List Json) : (root runs).extra = runs := by
  cases runs with
  | nil => rfl
  | cons _ _ => rfl

theorem Json.get?_extra_root (runs : List Json) :
    (root runs).get? "extra".toList = none ↔ runs = [] := by
  cases runs with
  | nil => exact ⟨fun _ => rfl, fun _ => rfl⟩
  | cons _ _ =>
      constructor
      · intro h
        cases h
      · intro h
        cases h

namespace Span

variable (s : Span) (hover : Option Json)

theorem contents?_toJson : (s.toJson hover).contents? = hover := by
  have hget := s.get?_toJson hover
  simp only [slots, List.forall_mem_append, List.forall_mem_cons] at hget
  obtain ⟨-, -, hhover, -⟩ := hget
  rw [Json.contents?, hhover]
  refine bind_map_of_inverse (fun _ => ?_) hover
  rfl

/-- A run is read from the object that was written for it. -/
theorem deepSpan_toJson (hfill : s.style.fill = none) (below : Option (List DeepSpan)) :
    (s.toJson hover).deepSpan below = s.deepen below := by
  have hget := s.get?_toJson hover
  simp only [slots, List.forall_mem_append, List.forall_mem_cons, List.forall_mem_map] at hget
  obtain ⟨⟨⟨htext, hcolor, -⟩, hdecorations⟩, hclick, -, hinsertion, hfont, -⟩ := hget
  have hstate : ∀ d : Decoration,
      ((s.toJson hover).get? d.name).bind Json.flag? = s.style.decorations.get d := by
    intro d
    rw [hdecorations d (by cases d <;> decide)]
    refine bind_map_of_inverse (fun _ => ?_) _
    rfl
  have hcolors : ((s.style.color.map fun c => Json.string c.text).bind Json.text?).bind
      Color.parse? = s.style.color := by
    rw [Option.bind_assoc]
    refine bind_map_of_inverse (fun c => ?_) _
    exact c.parse?_text
  have hclicks : (s.style.click.map ClickEvent.toJson).bind ClickEvent.ofJson? = s.style.click :=
    bind_map_of_inverse ClickEvent.ofJson?_toJson _
  have htexts : ∀ t : Option Text, (t.map Json.string).bind Json.text? = t :=
    bind_map_of_inverse fun _ => rfl
  rw [Json.deepSpan, deepen, hfill]
  simp only [Json.textOf?, htext, hcolor, hclick, hinsertion, hfont, hstate, hcolors, hclicks,
    htexts]
  rfl

end Span

/-- Every run that was sent is read again. -/
theorem Component.runs_toJson (c : Component) : c.toJson.runs = c.deepSpans := by
  induction c using Component.hover_induction with
  | step c ih =>
      rw [c.toJson_eq, Json.runs_eq, Json.extra_root, List.map_map, c.deepSpans_eq]
      refine List.map_congr_left fun s hs => ?_
      rw [Function.comp_apply, s.contents?_toJson, s.deepSpan_toJson _ (fill_of_mem_spans hs)]
      cases hover : s.style.hover with
      | none => rfl
      | some h =>
          rw [Option.map_some, Option.map_some, Option.map_some, ih s hs h hover]

/-! ## Blank trees -/

mutual

theorem Component.isBlank_iff : ∀ c : Component, c.isBlank ↔ c.plainText = []
  | ⟨text, _, children⟩ => by
      rw [Component.isBlank, Component.plainText, Bool.and_eq_true, List.isEmpty_iff,
        List.append_eq_nil_iff, allBlank_iff children]

theorem allBlank_iff : ∀ cs : List Component, allBlank cs ↔ plainTexts cs = []
  | [] => ⟨fun _ => rfl, fun _ => rfl⟩
  | c :: rest => by
      rw [allBlank, plainTexts, Bool.and_eq_true, List.append_eq_nil_iff, c.isBlank_iff,
        allBlank_iff rest]

end

theorem Component.spans_eq_nil_iff (c : Component) : c.spans = [] ↔ c.isBlank := by
  rw [c.isBlank_iff, ← c.map_fst_characters, List.map_eq_nil_iff]
  constructor
  · intro h
    have hlook := c.listing_spans
    rw [h] at hlook
    exact List.map_eq_nil_iff.mp hlook.symm
  · intro h
    rw [c.spans_eq_group, lookedAt, h]
    rfl

/-- Two trees are sent alike if and only if their runs are alike, down through all hover
texts; these runs can be read off what is sent, and the root has no `extra` just when the
tree is blank. -/
theorem Component.toJson_eq_iff_deepSpans_eq (a b : Component) :
    (a.toJson = b.toJson ↔ a.deepSpans = b.deepSpans)
      ∧ a.toJson.runs = a.deepSpans
      ∧ (a.toJson.get? "extra".toList = none ↔ a.isBlank) := by
  refine ⟨⟨fun h => ?_, fun h => ?_⟩, a.runs_toJson, ?_⟩
  · rw [← a.runs_toJson, h, b.runs_toJson]
  · rw [a.toJson_eq_root, h, b.toJson_eq_root]
  · rw [a.toJson_eq, Json.get?_extra_root, List.map_eq_nil_iff]
    exact a.spans_eq_nil_iff

end StyledChat
