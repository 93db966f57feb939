/-
Where the display name takes its place.

A tree carries more than the characters it shows: a click has a value, an insertion a text,
and a hover text carries all of this again (`Component.carried`).  Filling a template
rewrites the text of every node, in hover texts as well, the way the scan of that text says,
and a placeholder for the name is never among the characters that it keeps
(`Component.needle_not_infix_splice`).

Values are no text of a node, so they are carried as they are written
(`Component.carried_splice`).  A name reaches every place that names it just as long as no
value does (`Template.name_reaches_texts`); one that does is handed to the reader with the
placeholder in it (`Template.placeholder_stays_in_click`).
-/
import StyledChat.Proofs.TextualSubstitution

namespace StyledChat

/-! ## What a tree carries -/

/-- Something that a tree shows or hands to its reader. -/
inductive Carried where
  | char (c : Char)
  | click (event : ClickEvent)
  | insertion (t : Text)
  /-- A hover text begins; what it carries comes next. -/
  | hoverStart
  | hoverEnd
deriving DecidableEq

section Reading

variable (text : Text → List Carried) (value : Text → Text)

mutual

/-- What a tree carries in reading order when texts and values are read this way. -/
def Component.carriedAs : Component → List Carried
  | ⟨t, style, children⟩ => style.carriedAs ++ text t ++ carriedAsOfAll children

def Style.carriedAs : Style → List Carried
  | ⟨_, _, _, click, hover, insertion, _⟩ =>
    (click.map fun e => .click { e with value := value e.value }).toList
      ++ carriedAsOfHover hover ++ (insertion.map fun t => .insertion (value t)).toList

def carriedAsOfHover : Option Component → List Carried
  | none => []
  | some c => .hoverStart :: (c.carriedAs ++ [.hoverEnd])

def carriedAsOfAll : List Component → List Carried
  | [] => []
  | c :: rest => c.carriedAs ++ carriedAsOfAll rest

end

end Reading

/-- Everything a tree carries. -/
def Component.carried (c : Component) : List Carried := c.carriedAs (·.map .char) id

/-- What a piece of a scanned text carries. -/
def Piece.carried : Piece → List Carried
  | kept c => [.char c]
  | put r => r.content.carried

/-- What a text carries when its needles are replaced. -/
def Carried.ofScan (rs : List Replacement) (t : Text) : List Carried :=
  (scan rs t).flatMap Piece.carried

section Append

variable {text : Text → List Carried} {value : Text → Text}

theorem carriedAsOfAll_append (cs ds : List Component) :
    carriedAsOfAll text value (cs ++ ds)
      = carriedAsOfAll text value cs ++ carriedAsOfAll text value ds := by
  induction cs with
  | nil => rfl
  | cons c rest ih => simp only [List.cons_append, carriedAsOfAll, ih, List.append_assoc]

end Append

theorem carriedAsOfAll_leafOf (t : Text) :
    carriedAsOfAll (·.map .char) id (Component.leafOf t) = t.map .char := by
  cases t with
  | nil => rfl
  | cons c rest =>
      simp [Component.leafOf, Component.leaf, carriedAsOfAll, Component.carriedAs, Style.empty,
        Style.carriedAs, carriedAsOfHover]

/-- What is laid out carries what the pieces carry, in their order. -/
theorem carried_layOut : ∀ pieces : List Piece,
    (layOut pieces).1.map .char ++ carriedAsOfAll (·.map .char) id (layOut pieces).2
      = pieces.flatMap Piece.carried
  | [] => rfl
  | .kept c :: rest => congrArg (List.cons (Carried.char c)) (carried_layOut rest)
  | .put r :: rest => by
      have ih := carried_layOut rest
      show carriedAsOfAll _ _ (r.content :: (Component.leafOf _ ++ _)) = r.content.carried ++ _
      rw [carriedAsOfAll, carriedAsOfAll_append, carriedAsOfAll_leafOf, ih]
      rfl

/-! ## Texts are rewritten, values are not -/

mutual

/-- Replacing rewrites what the texts of a tree carry and leaves its values alone. -/
theorem Component.carried_splice (rs : List Replacement) : ∀ c : Component,
    (c.splice rs).carried = c.carriedAs (Carried.ofScan rs) id
  | ⟨t, ⟨_, _, _, click, hover, insertion, _⟩, children⟩ => by
      have hhover := carriedAsOfHover_splice rs hover
      have hchildren := carriedAsOfAll_splice rs children
      have hown := carried_layOut (scan rs t)
      rw [Component.splice_mk, Component.carried, Component.carriedAs, Component.carriedAs,
        carriedAsOfAll_append, hchildren, Style.splice, ← spliceHover_eq_map, Style.carriedAs,
        Style.carriedAs, hhover, Carried.ofScan, ← hown]
      simp only [List.append_assoc]

theorem carriedAsOfHover_splice (rs : List Replacement) : ∀ hover : Option Component,
    carriedAsOfHover (·.map .char) id (spliceHover rs hover)
      = carriedAsOfHover (Carried.ofScan rs) id hover
  | none => by rw [spliceHover]; rfl
  | some c => by
      rw [spliceHover, carriedAsOfHover, carriedAsOfHover, ← c.carried_splice rs]
      rfl

theorem carriedAsOfAll_splice (rs : List Replacement) : ∀ cs : List Component,
    carriedAsOfAll (·.map .char) id (spliceAll rs cs) = carriedAsOfAll (Carried.ofScan rs) id cs
  | [] => by rw [spliceAll]; rfl
  | c :: rest => by
      rw [spliceAll, carriedAsOfAll, carriedAsOfAll, ← c.carried_splice rs,
        carriedAsOfAll_splice rs rest]
      rfl

end

/-! ## Reading values another way -/

/-- The value of a click, or the text of an insertion. -/
def Carried.value? : Carried → Option Text
  | click e => some e.value
  | insertion t => some t
  | _ => none

/-- The values among what is carried. -/
def Carried.values (carried : List Carried) : List Text := carried.filterMap value?

theorem Carried.mem_values_append {as bs : List Carried} {v : Text} :
    v ∈ values (as ++ bs) ↔ v ∈ values as ∨ v ∈ values bs := by
  simp [values]

/-- The values that a node carries are its own, those of its hover text and those below. -/
theorem Component.mem_values_carried {t : Text} {s : Style} {children : List Component}
    {v : Text} : v ∈ Carried.values (Component.carried ⟨t, s, children⟩) ↔
      (∃ e, s.click = some e ∧ e.value = v)
        ∨ v ∈ Carried.values (carriedAsOfHover (·.map .char) id s.hover)
        ∨ s.insertion = some v
        ∨ v ∈ Carried.values (carriedAsOfAll (·.map .char) id children) := by
  obtain ⟨_, _, _, click, hover, insertion, _⟩ := s
  have htext : v ∉ Carried.values (t.map .char) := by simp [Carried.values, Carried.value?]
  rw [Component.carried, Component.carriedAs, Style.carriedAs]
  simp only [Carried.mem_values_append, htext, or_false, or_assoc]
  cases click <;> cases insertion <;> simp [Carried.values, Carried.value?, eq_comm]

section Values

variable {text : Text → List Carried} {value : Text → Text}

mutual

/-- Only what happens to the values of a tree counts. -/
theorem Component.carriedAs_of_values : ∀ {c : Component},
    (∀ v ∈ Carried.values c.carried, value v = v) →
      c.carriedAs text value = c.carriedAs text id
  | ⟨t, ⟨_, _, _, click, hover, insertion, _⟩, children⟩, h => by
      have hclick : click.map (fun e => Carried.click { e with value := value e.value })
          = click.map (fun e => .click { e with value := id e.value }) := by
        refine Option.map_congr fun e he => ?_
        have hvalue : value e.value = e.value :=
          h _ (Component.mem_values_carried.mpr (Or.inl ⟨e, he, rfl⟩))
        rw [hvalue, id]
      have hinsertion : insertion.map (fun u => Carried.insertion (value u))
          = insertion.map (fun u => .insertion (id u)) := by
        refine Option.map_congr fun u hu => ?_
        have hvalue : value u = u :=
          h _ (Component.mem_values_carried.mpr (Or.inr (Or.inr (Or.inl hu))))
        rw [hvalue, id]
      have hhover : ∀ v ∈ Carried.values (carriedAsOfHover (·.map .char) id hover),
          value v = v := fun v hv => h v (Component.mem_values_carried.mpr (Or.inr (Or.inl hv)))
      have hchildren : ∀ v ∈ Carried.values (carriedAsOfAll (·.map .char) id children),
          value v = v := fun v hv =>
        h v (Component.mem_values_carried.mpr (Or.inr (Or.inr (Or.inr hv))))
      rw [Component.carriedAs, Component.carriedAs, Style.carriedAs, Style.carriedAs,
        hclick, hinsertion, carriedAsOfHover_of_values hhover, carriedAsOfAll_of_values hchildren]

theorem carriedAsOfHover_of_values : ∀ {hover : Option Component},
    (∀ v ∈ Carried.values (carriedAsOfHover (·.map .char) id hover), value v = v) →
      carriedAsOfHover text value hover = carriedAsOfHover text id hover
  | none, _ => rfl
  | some c, h => by
      have hc : ∀ v ∈ Carried.values c.carried, value v = v := by
        intro v hv
        exact h v (Carried.mem_values_append.mpr (Or.inl hv))
      rw [carriedAsOfHover, carriedAsOfHover, Component.carriedAs_of_values hc]

theorem carriedAsOfAll_of_values : ∀ {cs : List Component},
    (∀ v ∈ Carried.values (carriedAsOfAll (·.map .char) id cs), value v = v) →
      carriedAsOfAll text value cs = carriedAsOfAll text id cs
  | [], _ => rfl
  | c :: rest, h => by
      have hc : ∀ v ∈ Carried.values c.carried, value v = v := fun v hv =>
        h v (Carried.mem_values_append.mpr (Or.inl hv))
      have hrest : ∀ v ∈ Carried.values (carriedAsOfAll (·.map .char) id rest), value v = v :=
        fun v hv => h v (Carried.mem_values_append.mpr (Or.inr hv))
      rw [carriedAsOfAll, carriedAsOfAll, Component.carriedAs_of_values hc,
        carriedAsOfAll_of_values hrest]

end

end Values

/-! ## No needle is kept -/

theorem mem_allTextsOfAll {cs : List Component} {u : Text} :
    u ∈ allTextsOfAll cs ↔ ∃ c ∈ cs, u ∈ c.allTexts := by
  induction cs with
  | nil => simp [allTextsOfAll]
  | cons c rest ih => simp [allTextsOfAll, ih]

section Needle

variable {rs : List Replacement}

/-- The text in front of the first needle begins what was scanned. -/
theorem layOut_scanFrom_isPrefix : ∀ (t : Text) (skip : Nat),
    (layOut (scanFrom rs skip t)).1 <+: t.drop skip
  | [], skip => by cases skip <;> exact List.nil_prefix
  | _ :: rest, skip + 1 => layOut_scanFrom_isPrefix rest skip
  | c :: rest, 0 => by
      rw [scanFrom]
      cases Replacement.at? rs (c :: rest) with
      | none => exact (List.prefix_cons_inj c).mpr (layOut_scanFrom_isPrefix rest 0)
      | some r => exact List.nil_prefix

variable {r : Replacement}

/-- A needle that stood in the text in front of the first needle would have been found. -/
theorem needle_not_infix_layOut (hr : r ∈ rs) (hne : r.needle ≠ []) : ∀ (t : Text) (skip : Nat),
    ¬r.needle <:+: (layOut (scanFrom rs skip t)).1
  | [], skip, h => by cases skip <;> exact hne (List.infix_nil.mp h)
  | _ :: rest, skip + 1, h => needle_not_infix_layOut hr hne rest skip h
  | c :: rest, 0, h => by
      have hprefix : (layOut (scanFrom rs 0 (c :: rest))).1 <+: c :: rest :=
        layOut_scanFrom_isPrefix (c :: rest) 0
      rw [scanFrom] at h hprefix
      cases hat : Replacement.at? rs (c :: rest) with
      | some q =>
          rw [hat] at h
          exact hne (List.infix_nil.mp h)
      | none =>
          rw [hat] at h hprefix
          rcases List.infix_cons_iff.mp h with hstart | hlater
          · have hstarts : r.starts (c :: rest) :=
              Replacement.starts_iff.mpr ⟨hne, hstart.trans hprefix⟩
            exact List.find?_eq_none.mp hat r hr hstarts
          · exact needle_not_infix_layOut hr hne rest 0 hlater

/-- The trees that are laid out are replacements, and leaves without a needle. -/
theorem mem_layOut_scanFrom (hr : r ∈ rs) (hne : r.needle ≠ []) {p : Component} :
    ∀ (t : Text) (skip : Nat), p ∈ (layOut (scanFrom rs skip t)).2 →
      (∃ q ∈ rs, p = q.content) ∨ ∃ u, p = Component.leaf u ∧ ¬r.needle <:+: u
  | [], skip, h => by cases skip <;> cases h
  | _ :: rest, skip + 1, h => mem_layOut_scanFrom hr hne rest skip h
  | c :: rest, 0, h => by
      rw [scanFrom] at h
      cases hat : Replacement.at? rs (c :: rest) with
      | none =>
          rw [hat] at h
          exact mem_layOut_scanFrom hr hne rest 0 h
      | some q =>
          rw [hat] at h
          rcases List.mem_cons.mp h with rfl | h
          · exact Or.inl ⟨q, List.mem_of_find?_eq_some hat, rfl⟩
          · rcases List.mem_append.mp h with h | h
            · exact Or.inr ⟨_, (mem_leafOf h).2, needle_not_infix_layOut hr hne rest _⟩
            · exact mem_layOut_scanFrom hr hne rest _ h

/-- The needle is in no text of a replacement. -/
def Replacement.NowhereIn (r : Replacement) (rs : List Replacement) : Prop :=
  ∀ q ∈ rs, ∀ u ∈ q.content.allTexts, ¬r.needle <:+: u

mutual

/-- A needle that no replacement brings along is left in no text of a rewritten tree. -/
theorem Component.needle_not_infix_splice (hr : r ∈ rs) (hne : r.needle ≠ [])
    (hfree : r.NowhereIn rs) : ∀ (c : Component), ∀ u ∈ (c.splice rs).allTexts, ¬r.needle <:+: u
  | ⟨t, ⟨_, _, _, _, hover, _, _⟩, children⟩, u, hu => by
      rw [Component.splice_mk, Component.allTexts, Style.splice, Style.hoverTexts,
        ← spliceHover_eq_map] at hu
      rcases List.mem_cons.mp hu with rfl | hu
      · exact needle_not_infix_layOut hr hne t 0
      rcases List.mem_append.mp hu with hu | hu
      · exact needle_not_infix_spliceHover hr hne hfree hover u hu
      obtain ⟨p, hp, hup⟩ := mem_allTextsOfAll.mp hu
      rcases List.mem_append.mp hp with hp | hp
      · rcases mem_layOut_scanFrom hr hne t 0 hp with ⟨q, hq, rfl⟩ | ⟨v, rfl, hv⟩
        · exact hfree q hq u hup
        · obtain rfl := List.mem_singleton.mp hup
          exact hv
      · exact needle_not_infix_spliceAll hr hne hfree children u
          (mem_allTextsOfAll.mpr ⟨p, hp, hup⟩)

theorem needle_not_infix_spliceHover (hr : r ∈ rs) (hne : r.needle ≠ [])
    (hfree : r.NowhereIn rs) : ∀ (hover : Option Component),
      ∀ u ∈ allTextsOfHover (spliceHover rs hover), ¬r.needle <:+: u
  | none, u, hu => by
      rw [spliceHover] at hu
      cases hu
  | some c, u, hu => by
      rw [spliceHover] at hu
      exact c.needle_not_infix_splice hr hne hfree u hu

theorem needle_not_infix_spliceAll (hr : r ∈ rs) (hne : r.needle ≠ [])
    (hfree : r.NowhereIn rs) : ∀ (cs : List Component),
      ∀ u ∈ allTextsOfAll (spliceAll rs cs), ¬r.needle <:+: u
  | [], u, hu => by
      rw [spliceAll] at hu
      cases hu
  | c :: rest, u, hu => by
      rw [spliceAll, allTextsOfAll] at hu
      rcases List.mem_append.mp hu with hu | hu
      · exact c.needle_not_infix_splice hr hne hfree u hu
      · exact needle_not_infix_spliceAll hr hne hfree rest u hu

end

end Needle

/-! ## Filled templates -/

theorem Text.substitute_of_not_infix {needle t : Text} (h : ¬needle <:+: t) (written : Text) :
    substitute [(needle, written)] t = t := by
  have habsent : Replacement.Absent (Replacement.leaves [(needle, written)]) t := by
    intro r hr _
    obtain rfl := List.mem_singleton.mp hr
    exact h
  rw [← flatMap_scan_leaves, scan_of_absent habsent, List.flatMap_map]
  exact List.flatMap_singleton' t

namespace Template

/-- What a template carries with the name in every place that names it: in its texts, where
the message is put in as well, and in its values. -/
def carriedWithName (t : Template) (name : Text) (message : Component) : List Carried :=
  (templateTree t.text).carriedAs (Carried.ofScan (fillings name message))
    (Text.substitute [(namePlaceholder, name)])

/-- The values that a template hands to its readers. -/
def values (t : Template) : List Text := Carried.values (templateTree t.text).carried

/-- The name of the sender reaches the texts of a template, hover texts included: what is
shown of each is its scan with the name put in, and unless the name or the message brings a
placeholder, none is left in any text.  The values of clicks and insertions are handed over
as they are written.  So where no value names the sender, the name is in every place that
names it. -/
theorem name_reaches_texts (t : Template) (name : Text) (message : Component) :
    let shown := t.fill none name message
    shown.carried
        = (templateTree t.text).carriedAs (Carried.ofScan (fillings name message))
            (fun value => value)
      ∧ ((∀ v ∈ t.values, ¬namePlaceholder <:+: v) →
          shown.carried = t.carriedWithName name message)
      ∧ (¬namePlaceholder <:+: name → (∀ u ∈ message.allTexts, ¬namePlaceholder <:+: u) →
          ∀ u ∈ shown.allTexts, ¬namePlaceholder <:+: u) := by
  intro shown
  have hcarried := Component.carried_splice (fillings name message) (templateTree t.text)
  refine ⟨hcarried, fun hvalues => ?_, fun hname hmessage => ?_⟩
  · have hkept : ∀ v ∈ Carried.values (templateTree t.text).carried,
        Text.substitute [(namePlaceholder, name)] v = v := fun v hv =>
      Text.substitute_of_not_infix (hvalues v hv) name
    exact hcarried.trans (Component.carriedAs_of_values hkept).symm
  · have hne : namePlaceholder ≠ [] := by decide
    have hneedle : ⟨namePlaceholder, Component.leaf name⟩ ∈ fillings name message :=
      List.mem_cons_self
    refine Component.needle_not_infix_splice hneedle hne (fun q hq u hu => ?_) _
    rcases List.mem_cons.mp hq with rfl | hq
    · obtain rfl := List.mem_singleton.mp hu
      exact hname
    · obtain rfl := List.mem_singleton.mp hq
      exact hmessage u hu

/-- A template that names the sender in a text, and in a hover text within a hover text. -/
def namedThrice : Template where
  id := defaultId
  text := ("<hover:show_text:'<hover:show_text:{display_name}>by {display_name}'>"
    ++ "<click:suggest_command:'/msg '>{display_name}</click></hover>: {message}").toList

theorem name_reaches_texts_of_namedThrice :
    let name := "Ann".toList
    let message := messageTree (some "<b>hi".toList) false
    let shown := namedThrice.fill none name message
    (∀ v ∈ namedThrice.values, ¬namePlaceholder <:+: v)
      ∧ shown.carried = namedThrice.carriedWithName name message
      ∧ ∀ u ∈ shown.allTexts, ¬namePlaceholder <:+: u := by
  intro name message shown
  have hvalues : ∀ v ∈ namedThrice.values, ¬namePlaceholder <:+: v := by decide +kernel
  have hname : ¬namePlaceholder <:+: name := by decide
  have hmessage : ∀ u ∈ message.allTexts, ¬namePlaceholder <:+: u := by decide +kernel
  obtain ⟨-, hcarried, hgone⟩ := name_reaches_texts namedThrice name message
  exact ⟨hvalues, hcarried hvalues, hgone hname hmessage⟩

/-- A template that suggests a reply to the sender, and hands the reader a command with the
placeholder in it. -/
theorem placeholder_stays_in_click :
    let text := "<click:suggest_command:'/msg {display_name} '>{display_name}</click>: {message}"
    let t : Template := { id := defaultId, text := text.toList }
    let name := "Ann".toList
    let message := messageTree (some "hi".toList) false
    t.values = ["/msg {display_name} ".toList]
      ∧ .click ⟨.suggestCommand, "/msg {display_name} ".toList⟩ ∈ (t.fill none name message).carried
      ∧ .click ⟨.suggestCommand, "/msg Ann ".toList⟩ ∈ t.carriedWithName name message
      ∧ (t.fill none name message).carried ≠ t.carriedWithName name message := by
  decide +kernel

end Template

end StyledChat
