/-
Opening tags and the closing tags that end them.

An opening tag is understood by its name and its arguments together, a closing tag by its name
alone.  Each goes by a table of its own, `TagName.table` and `Tag.genericKeys`, and a name that
one of them missed would open what nothing ends.  The two are in step (`Tag.genericKey?_eq`): the
second gives every name the key of the tags that the first makes of it, as far as these stay
open.

So a name has a key exactly when a tag of that name can have the key and stays open, and the name
is no colour (`Tag.genericKey?_eq_some_iff`).  One half is read off the rules of `Tag.Means`; the
other needs a tag of every name that ends something.  An open tag is then ended by its own name
and by every other name of its key, and by nothing else (`OpenTag.endedBy_iff`), and a closing tag
of such a name ends it together with all that was opened inside (`Draft.endThrough?_append`).
-/
import StyledChat.Proofs.Draft

namespace StyledChat

/-! ## Two tables -/

/-- The key of the tags with such a name that stay open.  Tags that are written as a colour have
one too, but not by their name. -/
def TagName.key? : TagName → Option Text
  | decoration d => some d.name
  | color => some "color".toList
  | gradient => some "gradient".toList
  | rainbow => some "rainbow".toList
  | click => some "click".toList
  | hover => some "hover".toList
  | insertion => some "insertion".toList
  | font => some "font".toList
  | plainColor | reset | newline => none

namespace Tag

theorem lookup_genericKeys (name : Text) :
    genericKeys.lookup name = (TagName.table.lookup name).bind TagName.key? := by
  cases hname : TagName.table.lookup name with
  | some n =>
      have hsame : ∀ entry ∈ TagName.table, genericKeys.lookup entry.1 = entry.2.key? := by decide
      exact hsame _ (mem_of_lookup hname)
  | none =>
      -- a name that opens nothing is no key either
      have hknown : ∀ entry ∈ genericKeys, (TagName.table.lookup entry.1).isSome := by decide
      refine Option.eq_none_iff_forall_ne_some.mpr fun key hkey => ?_
      have hisSome := hknown _ (mem_of_lookup hkey)
      rw [hname] at hisSome
      cases hisSome

/-- The closing tags and the opening tags go by the same names. -/
theorem genericKey?_eq (name : Text) :
    genericKey? name = (TagName.ofText? name).bind TagName.key? := by
  rw [genericKey?, TagName.ofText?]
  cases Decoration.ofName? name with
  | some d => rfl
  | none =>
      show genericKeys.lookup name = Option.bind
        (if TagName.IsPlainColor name then some .plainColor else TagName.table.lookup name) _
      by_cases hcolor : TagName.IsPlainColor name
      · have hapart : ∀ entry ∈ genericKeys, ¬TagName.IsPlainColor entry.1 := by decide +kernel
        rw [if_pos hcolor]
        exact Option.eq_none_iff_forall_ne_some.mpr fun key hkey =>
          hapart _ (mem_of_lookup hkey) hcolor
      · rw [if_neg hcolor]
        exact lookup_genericKeys name

/-! ## Names of a key -/

/-- A tag of this name can have the key and stay open, and the name is not a colour. -/
def CanName (key name : Text) : Prop :=
  ¬TagName.IsPlainColor name ∧ ∃ tag meaning, tag.name = name ∧ resolve? tag = some meaning
    ∧ meaning.StaysOpen ∧ meaning.closeKey = key

/-- A tag that stays open has the key that its name ends, unless the name is a colour. -/
theorem key?_of_means {tag : Tagged} {n : TagName} {meaning : Tag} (h : Means tag n meaning)
    (hopen : meaning.StaysOpen) (hn : n ≠ .plainColor) : n.key? = some meaning.closeKey := by
  cases h with
  | plainColor => exact absurd rfl hn
  | reset => exact absurd rfl hopen.1
  | newline => exact absurd rfl hopen.2
  | decoration | color | gradient | plainRainbow | rainbow | click | hover | insertion | font => rfl

/-- Whatever a name that ends something stands for, some arguments make a tag of it. -/
theorem exists_args_of_key? {n : TagName} {key : Text} (h : n.key? = some key) :
    ∃ args meaning, (∀ raw name, ofName? ⟨raw, name, args, false⟩ n = some meaning)
      ∧ meaning.StaysOpen ∧ meaning.closeKey = key := by
  cases n with
  | plainColor | reset | newline => cases h
  | decoration d =>
      exact ⟨[], .decoration d true, fun _ _ => rfl, ⟨Tag.noConfusion, Tag.noConfusion⟩,
        Option.some.inj h⟩
  | color =>
      exact ⟨["red".toList], .color (.named .red), fun _ _ => rfl, by decide, Option.some.inj h⟩
  | gradient =>
      exact ⟨[], .fill (.gradient [.rgb Rgb.white, .rgb Rgb.black]), fun _ _ => rfl,
        by decide, Option.some.inj h⟩
  | rainbow =>
      exact ⟨[], .fill (.rainbow 0 false), fun _ _ => rfl, by decide, Option.some.inj h⟩
  | click =>
      exact ⟨["open_url".toList, []], .click ⟨.openUrl, []⟩, fun _ _ => rfl, by decide,
        Option.some.inj h⟩
  | hover =>
      exact ⟨["show_text".toList, []], .hover [], fun _ _ => rfl, by decide, Option.some.inj h⟩
  | insertion => exact ⟨[[]], .insertion [], fun _ _ => rfl, by decide, Option.some.inj h⟩
  | font => exact ⟨["a".toList], .font "a".toList, fun _ _ => rfl, by decide, Option.some.inj h⟩

/-- The names that end the tags of a key are those that open one, colours apart. -/
theorem genericKey?_eq_some_iff {name key : Text} :
    genericKey? name = some key ↔ CanName key name := by
  rw [genericKey?_eq]
  constructor
  · intro h
    obtain ⟨n, hname, hn⟩ := Option.bind_eq_some_iff.mp h
    obtain ⟨args, meaning, hmade, hopen, hkey⟩ := exists_args_of_key? hn
    refine ⟨fun hcolor => ?_, ⟨[], name, args, false⟩, meaning, rfl, ?_, hopen, hkey⟩
    · -- a colour ends nothing but itself
      rw [TagName.ofText?_eq_plainColor_iff.mpr hcolor] at hname
      rw [← Option.some.inj hname] at hn
      cases hn
    · rw [resolve?_of_ofText? hname]
      exact hmade [] name
  · rintro ⟨hcolor, tag, meaning, rfl, hresolve, hopen, rfl⟩
    obtain ⟨n, hname, hmeans⟩ := exists_means_of_resolve? hresolve
    have hn : n ≠ .plainColor := by
      rintro rfl
      exact hcolor (TagName.ofText?_eq_plainColor_iff.mp hname)
    rw [hname]
    exact key?_of_means hmeans hopen hn

end Tag

/-! ## Open tags -/

/-- An open tag is ended by its own name and by the names of its key. -/
theorem OpenTag.endedBy_iff (tag : OpenTag) (name : Text) :
    tag.endedBy name ↔ name = tag.name ∨ Tag.CanName tag.key name := by
  rw [OpenTag.endedBy, Bool.or_eq_true, beq_iff_eq, beq_iff_eq, eq_comm]
  exact or_congr_right Tag.genericKey?_eq_some_iff

namespace Draft

/-- A closing tag ends the innermost open tag that it matches, around all that was opened
inside. -/
theorem endThrough?_append {name : Text} {tag : OpenTag} (h : tag.endedBy name)
    (outer : List OpenTag) : ∀ {inner : List OpenTag} (here : List Component),
      (∀ t ∈ inner, ¬t.endedBy name) →
      endThrough? name here (inner ++ tag :: outer) = some ⟨tag.wrap (endAll here inner), outer⟩
  | [], _, _ => if_pos h
  | t :: rest, here, hinner => by
      have hrest : ∀ t ∈ rest, ¬t.endedBy name :=
        fun t ht => hinner t (List.mem_cons_of_mem _ ht)
      rw [List.cons_append, endThrough?, if_neg (hinner t List.mem_cons_self)]
      exact endThrough?_append h outer (t.wrap here) hrest

end Draft

/-- Opening and closing tags agree on their names.

A tag that opens something is ended by a closing tag of its own name, with all that was opened
inside it.  Unless it was written as a colour, the key of its name is the key of the tag, and the
names that end the tag are those of its key and its own: so any spelling of a kind ends any other.
A name that only resets, breaks lines or colours has no key. -/
theorem Tag.opening_and_closing_names_agree :
    (∀ (tag : Tagged) (meaning : Tag), resolve? tag = some meaning → meaning.StaysOpen →
      (¬TagName.IsPlainColor tag.name → genericKey? tag.name = some meaning.closeKey)
      ∧ ∀ (v : Vocabulary) (read : Text → Component) (d : Draft), v.allows meaning.group →
        let opened : OpenTag := ⟨tag.name, meaning.closeKey, meaning.style read, d.here⟩
        d.step v read (.opening tag) = ⟨[], opened :: d.openTags⟩
          ∧ (∀ name, opened.endedBy name ↔ name = tag.name ∨ CanName meaning.closeKey name)
          ∧ ∀ closing : Tagged, opened.endedBy closing.name →
            ∀ (here : List Component) (inner : List OpenTag),
              (∀ t ∈ inner, ¬t.endedBy closing.name) →
              Draft.step v read ⟨here, inner ++ opened :: d.openTags⟩ (.closing closing)
                = ⟨d.here ++ [.node (meaning.style read) (Draft.endAll here inner)], d.openTags⟩)
    ∧ ∀ name, (∀ tag meaning, tag.name = name → resolve? tag = some meaning →
        meaning = .reset ∨ meaning = .newline ∨ TagName.IsPlainColor name) →
      genericKey? name = none := by
  refine ⟨fun tag meaning hresolve hopen => ⟨fun hcolor => ?_, fun v read d hallowed => ?_⟩,
    fun name hname => ?_⟩
  · have hnames : CanName meaning.closeKey tag.name :=
      ⟨hcolor, tag, meaning, rfl, hresolve, hopen, rfl⟩
    exact genericKey?_eq_some_iff.mpr hnames
  · intro opened
    have hmeaning : Draft.allowedTag? v tag = some meaning :=
      Draft.allowedTag?_eq_some_iff.mpr ⟨hresolve, hallowed⟩
    refine ⟨?_, opened.endedBy_iff, fun closing hends here inner hinner => ?_⟩
    · rw [Draft.step_opened hmeaning, Draft.opened_of_staysOpen hopen]
      rfl
    · exact Draft.step_closed (Draft.endThrough?_append hends d.openTags here hinner)
  · refine Option.eq_none_iff_forall_ne_some.mpr fun key hkey => ?_
    obtain ⟨hcolor, tag, meaning, hn, hresolve, hopen, -⟩ :=
      genericKey?_eq_some_iff.mp hkey
    rcases hname tag meaning hn hresolve with hreset | hnewline | hplain
    · exact hopen.1 hreset
    · exact hopen.2 hnewline
    · exact hcolor hplain

/-- `</colour>` ends `<c:red>`, and a bold tag inside it that was left open; `</br>` ends
nothing. -/
theorem Tag.opening_and_closing_names_agree_of_samples :
    let tag : Tagged := ⟨"<c:red>".toList, "c".toList, ["red".toList], false⟩
    let closing : Tagged := ⟨"</colour>".toList, "colour".toList, [], false⟩
    let red : Style := { color := some (.named .red) }
    let bold : Style := Style.empty.decorate .bold true
    let inner : OpenTag := ⟨"b".toList, "bold".toList, bold, []⟩
    resolve? tag = some (.color (.named .red)) ∧ ¬TagName.IsPlainColor tag.name
      ∧ genericKey? tag.name = some "color".toList
      ∧ Draft.step .restricted (parse .restricted)
          ⟨[.leaf ['x']], [inner, ⟨tag.name, "color".toList, red, [.leaf ['a']]⟩]⟩
          (.closing closing)
        = ⟨[.leaf ['a'], .node red [.node bold [.leaf ['x']]]], []⟩
      ∧ genericKey? "br".toList = none := by
  intro tag closing red bold inner
  have hresolve : resolve? tag = some (.color (.named .red)) := by decide +kernel
  have hcolor : ¬TagName.IsPlainColor tag.name := by decide +kernel
  obtain ⟨hkey, hopened⟩ := opening_and_closing_names_agree.1 tag _ hresolve (by decide)
  obtain ⟨-, -, hclosed⟩ :=
    hopened .restricted (parse .restricted) ⟨[.leaf ['a']], []⟩ (by decide)
  refine ⟨hresolve, hcolor, hkey hcolor, ?_, ?_⟩
  · exact hclosed closing (by decide +kernel) [.leaf ['x']] [inner] (by decide +kernel)
  · refine opening_and_closing_names_agree.2 _ fun other meaning hname hother => ?_
    obtain ⟨n, hn, hmeans⟩ := exists_means_of_resolve? hother
    rw [hname] at hn
    obtain rfl : TagName.newline = n := Option.some.inj hn
    cases hmeans
    exact Or.inr (Or.inl rfl)

end StyledChat
