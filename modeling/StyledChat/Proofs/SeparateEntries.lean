/-
What comes of each entry of a configuration.

An entry goes through three stages: its key must name an id, its value must be a mapping,
and that mapping must decode.  One that fails at a stage is skipped with one warning that
says at which (`EntryFails`); one that passes them all becomes a template, repaired with
another warning when it never shows the message (`EntryLoads`).  Neither depends on the
entries around it, so a list of entries is loaded one by one, and what is known of one
entry is known of the list (`loadEntries_one_by_one`).

Which mappings decode, and to what, is left to the reader of YAML throughout.
-/
import StyledChat.Chat.Config.Read
import StyledChat.Proofs.Choice
import StyledChat.Proofs.ShownMessage

namespace StyledChat

open Yaml (Value Number)

/-! ## Ids -/

/-- The key of an entry names an id: it is a text, a number or a truth value. -/
inductive NamesId (yaml : YamlReader) : Value → Text → Prop
  | string (t : Text) : NamesId yaml (.string t) t
  | number (n : Number) : NamesId yaml (.number n) (yaml.numberText n)
  | true : NamesId yaml (.bool true) "true".toList
  | false : NamesId yaml (.bool false) "false".toList

theorem templateId?_eq_some_iff {yaml : YamlReader} {key : Value} {id : Text} :
    templateId? yaml key = some id ↔ NamesId yaml key id := by
  constructor
  · intro h
    cases key with
    | string t => cases h; exact .string _
    | number n => cases h; exact .number n
    | bool b =>
        cases b with
        | true => cases h; exact .true
        | false => cases h; exact .false
    | null => cases h
    | sequence items => cases h
    | mapping entries => cases h
    | tagged name value => cases h
  · intro h
    cases h <;> rfl

/-! ## Templates from configured values -/

namespace Template

/-- A text that shows the message is kept, behind the gate that is configured. -/
theorem checked_of_shown {text : Text} (h : messagePlaceholder <:+: text) (id : Text)
    (permission : Option Text) :
    checked id text permission = ⟨⟨id, text, gateOf permission⟩, []⟩ := by
  have hin : Text.hasInfix messagePlaceholder text = true :=
    (Text.hasInfix_iff (by decide)).mpr h
  rw [checked, if_pos hin, made_eq]
  rfl

/-- A text that never shows the message is replaced, without a gate. -/
theorem checked_of_not_shown {text : Text} (h : ¬messagePlaceholder <:+: text) (id : Text)
    (permission : Option Text) :
    checked id text permission = ⟨⟨id, fallbackText, none⟩, [.messageMissing id]⟩ := by
  have hin : ¬Text.hasInfix messagePlaceholder text = true :=
    mt (Text.hasInfix_iff (by decide)).mp h
  rw [checked, if_neg hin]
  rfl

end Template

/-! ## Single entries -/

section Entries

variable (yaml : YamlReader)

/-- The stage at which an entry fails. -/
inductive EntryFails : Value → Value → EntryFault → Prop
  | idNotPlain {key value : Value} : (∀ id, ¬NamesId yaml key id) → EntryFails key value .idNotPlain
  | notMapping {key value : Value} {id : Text} : NamesId yaml key id → ¬value.isMapping →
      EntryFails key value (.notMapping id)
  | unreadable {key value : Value} {id : Text} : NamesId yaml key id → value.isMapping →
      yaml.fields? value = none → EntryFails key value (.unreadable id)

/-- What comes of an entry: a template or none, and what is reported. -/
inductive EntryLoads : Value × Value → Option Template → List Diagnostic → Prop
  /-- The template that is configured. -/
  | configured {key value : Value} {id : Text} {fields : TemplateFields} : NamesId yaml key id →
      value.isMapping → yaml.fields? value = some fields →
      Template.messagePlaceholder <:+: fields.format →
      EntryLoads (key, value) (some ⟨id, fields.format, Template.gateOf fields.permission⟩) []
  /-- The text never shows the message. -/
  | repaired {key value : Value} {id : Text} {fields : TemplateFields} : NamesId yaml key id →
      value.isMapping → yaml.fields? value = some fields →
      ¬Template.messagePlaceholder <:+: fields.format →
      EntryLoads (key, value) (some ⟨id, Template.fallbackText, none⟩) [.messageMissing id]
  | skipped {key value : Value} {fault : EntryFault} : EntryFails yaml key value fault →
      EntryLoads (key, value) none [.entrySkipped fault]

variable {yaml}

theorem readEntry_error {key value : Value} {fault : EntryFault}
    (h : readEntry yaml key value = .error fault) : EntryFails yaml key value fault := by
  unfold readEntry at h
  split at h
  · next hid =>
      cases h
      refine .idNotPlain fun id hnames => ?_
      rw [templateId?_eq_some_iff.mpr hnames] at hid
      cases hid
  · next id hid =>
      have hnames := templateId?_eq_some_iff.mp hid
      split at h
      · next hmapping =>
          split at h
          · cases h
          · next hdecode =>
              cases h
              exact .unreadable hnames hmapping hdecode
      · next hmapping =>
          cases h
          exact .notMapping hnames hmapping

theorem readEntry_ok {key value : Value} {id : Text} {fields : TemplateFields}
    (h : readEntry yaml key value = .ok (id, fields)) :
    NamesId yaml key id ∧ value.isMapping ∧ yaml.fields? value = some fields := by
  unfold readEntry at h
  split at h
  · cases h
  · next hid =>
      split at h
      · next hmapping =>
          split at h
          · next hdecode =>
              cases h
              exact ⟨templateId?_eq_some_iff.mp hid, hmapping, hdecode⟩
          · cases h
      · cases h

/-- An entry never fails to load: it becomes a template or is skipped. -/
theorem entryLoads_loadEntry (key value : Value) : EntryLoads yaml (key, value)
    (loadEntry yaml key value).value (loadEntry yaml key value).log := by
  unfold loadEntry
  cases h : readEntry yaml key value with
  | error fault => exact .skipped (readEntry_error h)
  | ok entry =>
      obtain ⟨id, fields⟩ := entry
      obtain ⟨hnames, hmapping, hdecode⟩ := readEntry_ok h
      by_cases hshown : Template.messagePlaceholder <:+: fields.format
      · simp only [Template.checked_of_shown hshown]
        exact .configured hnames hmapping hdecode hshown
      · simp only [Template.checked_of_not_shown hshown]
        exact .repaired hnames hmapping hdecode hshown

/-- A template that is loaded shows the message; if it is gated, then by a node that is not
blank, and both its node and its text are as configured. -/
theorem EntryLoads.of_template {entry : Value × Value} {t : Template} {log : List Diagnostic}
    (h : EntryLoads yaml entry (some t) log) : Template.messagePlaceholder <:+: t.text
      ∧ ∀ node, t.permission = some node → ¬Text.isBlank node
        ∧ NamesId yaml entry.1 t.id ∧ yaml.fields? entry.2 = some ⟨t.text, some node⟩ := by
  cases h with
  | @configured key value id fields hnames _ hdecode hshown =>
      refine ⟨hshown, fun node hnode => ?_⟩
      obtain ⟨hgiven, hblank⟩ := Template.not_blank_of_gateOf hnode
      refine ⟨hblank, hnames, ?_⟩
      rw [hdecode, ← hgiven]
  | repaired _ _ _ _ =>
      refine ⟨List.infix_append_of_infix_right ?_, fun node hnode => ?_⟩
      · exact List.infix_rfl
      · cases hnode

theorem EntryLoads.severity {entry : Value × Value} {made : Option Template}
    {log : List Diagnostic} (h : EntryLoads yaml entry made log) {d : Diagnostic} (hd : d ∈ log) :
    d.report.severity = .warn := by
  cases h with
  | configured _ _ _ _ => cases hd
  | repaired _ _ _ _ => obtain rfl := List.mem_singleton.mp hd; rfl
  | skipped _ => obtain rfl := List.mem_singleton.mp hd; rfl

/-! ## Lists of entries -/

theorem loadEntries_cons (key value : Value) (rest : List (Value × Value)) :
    loadEntries yaml ((key, value) :: rest) =
      ⟨(loadEntry yaml key value).value.toList ++ (loadEntries yaml rest).value,
        (loadEntry yaml key value).log ++ (loadEntries yaml rest).log⟩ := by
  show Logged.mk _ (_ ++ (_ ++ [])) = _
  rw [List.append_nil]
  rfl

/-- A list of entries is loaded by loading each. -/
theorem loadEntries_eq (entries : List (Value × Value)) :
    loadEntries yaml entries =
      ⟨entries.filterMap fun entry => (loadEntry yaml entry.1 entry.2).value,
        entries.flatMap fun entry => (loadEntry yaml entry.1 entry.2).log⟩ := by
  induction entries with
  | nil => rfl
  | cons entry rest ih =>
      obtain ⟨key, value⟩ := entry
      rw [loadEntries_cons, ih]
      cases hvalue : (loadEntry yaml key value).value <;> simp [hvalue]

/-- The entries of a configuration are loaded one by one.

What comes of an entry depends on nothing else: the template that is configured, or one with
the fallback text and no gate and a warning when its text never shows the message, or none
at all and a warning that says at which stage it failed.  What comes of a list is just this
of its entries, in their order; so every template shows the message, one that is gated has
its text and a node that is not blank from its entry, and what is reported are warnings.
Lists one behind the other are loaded one behind the other. -/
theorem loadEntries_one_by_one (yaml : YamlReader)
    (entries : List (Value × Value)) :
    let loaded := loadEntries yaml entries
    (∀ entry : Value × Value, EntryLoads yaml entry (loadEntry yaml entry.1 entry.2).value
          (loadEntry yaml entry.1 entry.2).log)
      ∧ loaded.value = entries.filterMap (fun entry => (loadEntry yaml entry.1 entry.2).value)
      ∧ loaded.log = entries.flatMap (fun entry => (loadEntry yaml entry.1 entry.2).log)
      ∧ (∀ t ∈ loaded.value, Template.messagePlaceholder <:+: t.text
          ∧ ∀ node, t.permission = some node → ¬Text.isBlank node
            ∧ ∃ entry ∈ entries, NamesId yaml entry.1 t.id
              ∧ yaml.fields? entry.2 = some ⟨t.text, some node⟩)
      ∧ (∀ d ∈ loaded.log, d.report.severity = .warn)
      ∧ ∀ more, (loadEntries yaml (entries ++ more)).value
            = loaded.value ++ (loadEntries yaml more).value
          ∧ (loadEntries yaml (entries ++ more)).log
            = loaded.log ++ (loadEntries yaml more).log := by
  intro loaded
  have hload : loaded = _ := loadEntries_eq entries
  have hvalue := congrArg Logged.value hload
  have hlog := congrArg Logged.log hload
  refine ⟨fun entry => entryLoads_loadEntry entry.1 entry.2, hvalue, hlog, ?_, ?_, ?_⟩
  · intro t ht
    rw [hvalue] at ht
    obtain ⟨entry, hmem, hsome⟩ := List.mem_filterMap.mp ht
    have hloads : EntryLoads yaml entry _ _ := entryLoads_loadEntry entry.1 entry.2
    rw [hsome] at hloads
    obtain ⟨hshown, hgated⟩ := hloads.of_template
    refine ⟨hshown, fun node hnode => ?_⟩
    obtain ⟨hblank, hnames, hdecode⟩ := hgated node hnode
    exact ⟨hblank, entry, hmem, hnames, hdecode⟩
  · intro d hd
    rw [hlog] at hd
    obtain ⟨entry, -, hdentry⟩ := List.mem_flatMap.mp hd
    exact (entryLoads_loadEntry entry.1 entry.2).severity hdentry
  · intro more
    simp only [loaded, loadEntries_eq, List.filterMap_append, List.flatMap_append, and_self]

end Entries

end StyledChat
