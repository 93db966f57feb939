/-
What a tag can mean.

`Tag.Means` lists, one rule per kind of name, the meanings a tag has and the
arguments it has them with.  It is what every later argument about tags is split
by; that reading a tag follows the rules is `Tag.means_of_ofName?`.  What a name
stands for is one of three things (`TagName.cases_of_ofText?`): a decoration, a
colour, or what the table says.
-/
import StyledChat.Markup.Tag

namespace StyledChat

theorem mem_of_lookup {β : Type} {table : List (Text × β)} {name : Text} {b : β}
    (h : table.lookup name = some b) : (name, b) ∈ table := by
  obtain ⟨before, behind, rfl, -⟩ := List.lookup_eq_some_iff.mp h
  exact List.mem_append_right _ List.mem_cons_self

namespace TagName

/-- Written as a colour: a colour name or a hex code. -/
def IsPlainColor (name : Text) : Prop :=
  name.head? = some '#' ∨ (NamedColor.ofName? name).isSome

instance (name : Text) : Decidable (IsPlainColor name) := inferInstanceAs (Decidable (_ ∨ _))

theorem mem_spellings_of_ofName? {name : Text} {d : Decoration}
    (h : Decoration.ofName? name = some d) : name ∈ d.spellings := by
  have hfound := List.find?_some h
  exact List.contains_iff_mem.mp hfound

theorem cases_of_ofText? {name : Text} {n : TagName} (h : ofText? name = some n) :
    (∃ d, n = .decoration d ∧ name ∈ d.spellings)
      ∨ (n = .plainColor ∧ IsPlainColor name)
      ∨ (name, n) ∈ table := by
  unfold ofText? at h
  split at h
  · next d hd =>
      exact Or.inl ⟨d, (Option.some.inj h).symm, mem_spellings_of_ofName? hd⟩
  · split at h
    · next hcolor => exact Or.inr (Or.inl ⟨(Option.some.inj h).symm, hcolor⟩)
    · exact Or.inr (Or.inr (mem_of_lookup h))

/-- No decoration is written as a colour, so every name that is stands for one. -/
theorem ofText?_eq_plainColor_iff {name : Text} :
    ofText? name = some .plainColor ↔ IsPlainColor name := by
  constructor
  · intro h
    rcases cases_of_ofText? h with ⟨d, he, -⟩ | ⟨-, hcolor⟩ | hmem
    · cases he
    · exact hcolor
    · have hnone : ∀ entry ∈ table, entry.2 ≠ .plainColor := by decide
      exact absurd rfl (hnone _ hmem)
  · intro hcolor
    have hnone : Decoration.ofName? name = none := by
      refine Option.eq_none_iff_forall_ne_some.mpr fun d hd => ?_
      have hapart : ∀ d : Decoration, ∀ word ∈ d.spellings, ¬IsPlainColor word := by
        intro d
        cases d <;> decide +kernel
      exact hapart d name (mem_spellings_of_ofName? hd) hcolor
    rw [ofText?, hnone]
    exact if_pos hcolor

end TagName

namespace Tag

/-- The meaning of a tag by what its name stands for. -/
inductive Means (tag : Tagged) : TagName → Tag → Prop
  | decoration {d : Decoration} {on : Bool} : switch? tag.negated tag.args = some on →
      Means tag (.decoration d) (.decoration d on)
  | plainColor {c : Color} : tag.args = [] → Color.parse? tag.name = some c →
      Means tag .plainColor (.color c)
  | color {value : Text} {c : Color} : tag.args = [value] → Color.parse? value = some c →
      Means tag .color (.color c)
  | gradient {stops : List Color} : stops? tag.args = some stops →
      Means tag .gradient (.fill (.gradient stops))
  | plainRainbow : tag.args = [] → Means tag .rainbow (.fill (.rainbow 0 false))
  | rainbow {value : Text} {phase : UInt32} {reversed : Bool} : tag.args = [value] →
      rainbow? value = some (.rainbow phase reversed) →
      Means tag .rainbow (.fill (.rainbow phase reversed))
  | reset : tag.args = [] → Means tag .reset .reset
  | click {action value : Text} {a : ClickAction} : tag.args = [action, value] →
      ClickAction.ofName? (Text.lower action) = some a → Means tag .click (.click ⟨a, value⟩)
  | hover {action markup : Text} : tag.args = [action, markup] →
      Text.sameLetters action "show_text".toList → Means tag .hover (.hover markup)
  | insertion {value : Text} : tag.args = [value] → Means tag .insertion (.insertion value)
  | font {key : Text} : tag.args = [key] → key ≠ [] → Means tag .font (.font key)
  | newline : tag.args = [] → Means tag .newline .newline

theorem rainbow_of_rainbow? {t : Text} {f : Fill} (h : rainbow? t = some f) :
    ∃ phase reversed, f = .rainbow phase reversed := by
  -- the same behind the `!` as without it
  have hparts : ∀ parts : Bool × Text,
      (if parts.2.isEmpty then some (.rainbow 0 parts.1)
        else (phase? parts.2).map fun n => .rainbow n parts.1) = some f →
      ∃ phase reversed, f = .rainbow phase reversed := by
    intro parts hp
    split at hp
    · exact ⟨0, parts.1, (Option.some.inj hp).symm⟩
    · obtain ⟨n, -, rfl⟩ := Option.map_eq_some_iff.mp hp
      exact ⟨n, parts.1, rfl⟩
  exact hparts _ h

theorem means_of_ofName? {tag : Tagged} {name : TagName} {meaning : Tag}
    (h : ofName? tag name = some meaning) : Means tag name meaning := by
  unfold ofName? at h
  split at h
  · obtain ⟨on, hon, rfl⟩ := Option.map_eq_some_iff.mp h
    exact .decoration hon
  · split at h
    · cases h
    · split at h
      · next hargs _ =>
          obtain ⟨c, hc, rfl⟩ := Option.map_eq_some_iff.mp h
          exact .plainColor hargs hc
      · next hargs _ =>
          obtain ⟨c, hc, rfl⟩ := Option.map_eq_some_iff.mp h
          exact .color hargs hc
      · obtain ⟨stops, hstops, rfl⟩ := Option.map_eq_some_iff.mp h
        exact .gradient hstops
      · next hargs _ =>
          obtain rfl := Option.some.inj h
          exact .plainRainbow hargs
      · next hargs _ =>
          obtain ⟨f, hf, rfl⟩ := Option.map_eq_some_iff.mp h
          obtain ⟨phase, reversed, rfl⟩ := rainbow_of_rainbow? hf
          exact .rainbow hargs hf
      · next hargs _ =>
          obtain rfl := Option.some.inj h
          exact .reset hargs
      · next hargs _ =>
          obtain ⟨a, ha, rfl⟩ := Option.map_eq_some_iff.mp h
          exact .click hargs ha
      · next hargs _ =>
          split at h
          · next haction =>
              obtain rfl := Option.some.inj h
              exact .hover hargs haction
          · cases h
      · next hargs _ =>
          obtain rfl := Option.some.inj h
          exact .insertion hargs
      · next hargs _ =>
          split at h
          · cases h
          · next hkey =>
              obtain rfl := Option.some.inj h
              exact .font hargs (fun e => hkey (List.isEmpty_iff.mpr e))
      · next hargs _ =>
          obtain rfl := Option.some.inj h
          exact .newline hargs
      · cases h

theorem resolve?_of_ofText? {tag : Tagged} {n : TagName} (h : TagName.ofText? tag.name = some n) :
    resolve? tag = ofName? tag n := by
  rw [resolve?, h]

/-- A tag that means something has a name that stands for something. -/
theorem exists_means_of_resolve? {tag : Tagged} {meaning : Tag} (h : resolve? tag = some meaning) :
    ∃ name, TagName.ofText? tag.name = some name ∧ Means tag name meaning := by
  unfold resolve? at h
  split at h
  · cases h
  · next name hname => exact ⟨name, hname, means_of_ofName? h⟩

/-- The tag stays open until something ends it. -/
def StaysOpen (meaning : Tag) : Prop := meaning ≠ .reset ∧ meaning ≠ .newline

instance (meaning : Tag) : Decidable meaning.StaysOpen := inferInstanceAs (Decidable (_ ∧ _))

/-- Hover markup is an argument of its tag. -/
theorem mem_args_of_hover {tag : Tagged} {markup : Text}
    (h : resolve? tag = some (.hover markup)) : markup ∈ tag.args := by
  obtain ⟨name, -, hmeans⟩ := exists_means_of_resolve? h
  cases hmeans with
  | hover hargs _ => simp [hargs]

end Tag
end StyledChat
