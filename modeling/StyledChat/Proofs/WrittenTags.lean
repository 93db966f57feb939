/-
Tags that are written down and read back.

`Tag.form` writes a tag with the canonical name and each value in its written form:
colours by name or as `#rrggbb`, numbers in base ten, texts between quotes.  The
readers of these values undo it (`Color.parse_text`, `Text.number?_decimal`,
`Tag.rainbow?_rainbowText`), so a tag that makes sense is what its written form means
(`Tag.resolve?_form`).
-/
import StyledChat.Proofs.Tags
import StyledChat.Proofs.Quoting

namespace StyledChat

/-! ## Colours -/

theorem Text.trim_of_no_blank {t : Text} (h : ∀ c ∈ t, ¬isBlankChar c) : trim t = t := by
  have hstart : ∀ u : Text, (∀ c ∈ u, ¬isBlankChar c) → u.dropWhile isBlankChar = u := by
    intro u hu
    cases u with
    | nil => rfl
    | cons c rest => exact List.dropWhile_cons_of_neg (hu c List.mem_cons_self)
  have hend := hstart t.reverse fun c hc => h c (List.mem_reverse.mp hc)
  rw [trim, hstart t h, trimEnd, hend, List.reverse_reverse]

/-- A character that the scanners of a tag pass over and that trimming keeps. -/
def Token.isPlainChar (c : Char) : Bool := isBareChar c && !Text.isBlankChar c

namespace Rgb

theorem digitValue?_digitChar : ∀ d < 16, Text.digitValue? (Nat.digitChar d) = some d := by
  decide

theorem isPlainChar_digitChar : ∀ d < 16, Token.isPlainChar (Nat.digitChar d) := by
  decide

theorem all_isPlainChar_hexByte (n : UInt8) : (hexByte n).all Token.isPlainChar := by
  have hn := n.toNat_lt
  have hhi := isPlainChar_digitChar (n.toNat / 16) (by omega)
  have hlo := isPlainChar_digitChar (n.toNat % 16) (by omega)
  simp only [hexByte, List.all_cons, hhi, hlo, List.all_nil, Bool.and_self]

theorem byteOfHex?_hexByte (n : UInt8) :
    byteOfHex? (Nat.digitChar (n.toNat / 16)) (Nat.digitChar (n.toNat % 16)) = some n := by
  have hn := n.toNat_lt
  have hhi := digitValue?_digitChar (n.toNat / 16) (by omega)
  have hlo := digitValue?_digitChar (n.toNat % 16) (by omega)
  rw [byteOfHex?, hhi, hlo]
  show some (UInt8.ofNat (16 * (n.toNat / 16) + n.toNat % 16)) = some n
  rw [Nat.div_add_mod, UInt8.ofNat_toNat]

theorem ofHex?_hexByte (c : Rgb) :
    ofHex? (hexByte c.r ++ hexByte c.g ++ hexByte c.b) = some c := by
  simp only [hexByte, List.cons_append, List.nil_append, ofHex?, byteOfHex?_hexByte]
  rfl

end Rgb

namespace Color

theorem all_isPlainChar_text (c : Color) : c.text.all Token.isPlainChar := by
  cases c with
  | named c => cases c <;> rfl
  | rgb c =>
      simp only [text, Rgb.hex, List.all_cons, List.all_append, Rgb.all_isPlainChar_hexByte,
        Bool.and_true]
      rfl

theorem bare_and_not_blank_of_mem_text {c : Color} {ch : Char} (h : ch ∈ c.text) :
    Token.isBareChar ch ∧ ¬Text.isBlankChar ch := by
  have hplain := List.all_eq_true.mp c.all_isPlainChar_text ch h
  rwa [Token.isPlainChar, Bool.and_eq_true, Bool.not_eq_true', ← Bool.not_eq_true] at hplain

theorem all_isBareChar_text (c : Color) : c.text.all Token.isBareChar :=
  List.all_eq_true.mpr fun _ h => (bare_and_not_blank_of_mem_text h).1

/-- A colour is read back from its written form. -/
theorem parse_text (c : Color) : parse c.text = .ok c := by
  have htrim : Text.trim c.text = c.text :=
    Text.trim_of_no_blank fun _ h => (bare_and_not_blank_of_mem_text h).2
  cases c with
  | named c => cases c <;> rfl
  | rgb c =>
      rw [parse, htrim]
      simp only [text, Rgb.hex, Rgb.ofHex?_hexByte]

theorem parse?_text (c : Color) : parse? c.text = some c := by
  rw [parse?, parse_text]
  rfl

end Color

/-! ## Numbers -/

namespace Text

theorem isDigit_of_mem_decimal {n : Nat} {c : Char} (h : c ∈ decimal n) : c.isDigit :=
  Nat.isDigit_of_mem_toDigits (by decide) (by decide) h

theorem digitValue?_of_isDigit {c : Char} (h : c.isDigit) :
    digitValue? c = some (c.toNat - '0'.toNat) ∧ c.toNat - '0'.toNat < 10 := by
  simp only [Char.isDigit, Bool.and_eq_true, decide_eq_true_eq] at h
  refine ⟨if_pos h, ?_⟩
  have hle : c.toNat ≤ '9'.toNat := UInt32.le_iff_toNat_le.mp h.2
  have hnine : '9'.toNat - '0'.toNat = 9 := rfl
  omega

/-- Reading digits goes on from the number read so far. -/
theorem foldlM_digits {t : Text} (h : ∀ c ∈ t, c.isDigit) (acc : Nat) :
    t.foldlM (fun acc c => do
        let d ← digitValue? c
        if d < 10 then some (acc * 10 + d) else none) acc
      = some (t.foldl (fun acc c => 10 * acc + (c.toNat - '0'.toNat)) acc) := by
  induction t generalizing acc with
  | nil => rfl
  | cons c rest ih =>
      obtain ⟨hvalue, hlt⟩ := digitValue?_of_isDigit (h c List.mem_cons_self)
      have hstep : (do
          let d ← digitValue? c
          if d < 10 then some (acc * 10 + d) else none)
          = some (10 * acc + (c.toNat - '0'.toNat)) := by
        rw [hvalue, Nat.mul_comm 10 acc]
        exact if_pos hlt
      rw [List.foldlM_cons, hstep]
      exact ih (fun e he => h e (List.mem_cons_of_mem _ he)) _

/-- A number is read back from its digits. -/
theorem number?_decimal (n : Nat) : number? 10 (decimal n) = some n := by
  have hne : (decimal n).isEmpty = false := List.isEmpty_eq_false_iff.mpr Nat.toDigits_ne_nil
  rw [number?, hne, if_neg Bool.false_ne_true, foldlM_digits fun _ => isDigit_of_mem_decimal,
    ← Nat.ofDigitChars_eq_foldl, decimal, Nat.ofDigitChars_toDigits (by decide) (by decide)]

/-- The first digit of a number. -/
theorem exists_decimal_eq_cons (n : Nat) : ∃ c rest, decimal n = c :: rest ∧ c.isDigit := by
  cases h : decimal n with
  | nil => exact absurd h Nat.toDigits_ne_nil
  | cons c rest => exact ⟨c, rest, rfl, isDigit_of_mem_decimal (h ▸ List.mem_cons_self)⟩

end Text

theorem Token.isBareChar_of_isDigit {c : Char} (h : c.isDigit) : isBareChar c :=
  isBareChar_of_isNameRest (by simp [isNameRest, Char.isAlphanum, h])

namespace Tag

theorem phase?_decimal (n : UInt32) : phase? (Text.decimal n.toNat) = some n := by
  obtain ⟨c, rest, hcons, hdigit⟩ := Text.exists_decimal_eq_cons n.toNat
  have hplus : c ≠ '+' := by
    rintro rfl
    exact absurd hdigit (by decide)
  have hdigits : phase? (c :: rest) = (Text.number? 10 (c :: rest)).bind fun n =>
      if n < UInt32.size then some (UInt32.ofNat n) else none := by
    unfold phase?
    split
    · next he => exact absurd (List.cons.inj he).1 hplus
    · dsimp only
      cases Text.number? 10 (c :: rest) <;> rfl
  rw [hcons, hdigits, ← hcons, Text.number?_decimal, Option.bind_some, if_pos n.toNat_lt_size,
    UInt32.ofNat_toNat]

/-- A rainbow is written as its phase, behind a `!` when it is reversed. -/
def rainbowText (phase : UInt32) (reversed : Bool) : Text :=
  (if reversed then ['!'] else []) ++ Text.decimal phase.toNat

theorem all_isBareChar_rainbowText (phase : UInt32) (reversed : Bool) :
    (rainbowText phase reversed).all Token.isBareChar := by
  refine List.all_eq_true.mpr fun c h => ?_
  rcases List.mem_append.mp h with h | h
  · cases reversed with
    | false => cases h
    | true =>
        rw [List.mem_singleton.mp h]
        decide
  · exact Token.isBareChar_of_isDigit (Text.isDigit_of_mem_decimal h)

theorem rainbow?_rainbowText (phase : UInt32) (reversed : Bool) :
    rainbow? (rainbowText phase reversed) = some (.rainbow phase reversed) := by
  obtain ⟨c, rest, hcons, hdigit⟩ := Text.exists_decimal_eq_cons phase.toNat
  have hphase := phase?_decimal phase
  cases reversed with
  | true =>
      show (if (Text.decimal phase.toNat).isEmpty then some (Fill.rainbow 0 true)
        else (phase? (Text.decimal phase.toNat)).map fun n => Fill.rainbow n true) = _
      rw [hphase, hcons]
      rfl
  | false =>
      have hbang : c ≠ '!' := by
        rintro rfl
        exact absurd hdigit (by decide)
      show rainbow? (Text.decimal phase.toNat) = _
      rw [hcons] at hphase ⊢
      unfold rainbow?
      split
      next he =>
        split at he
        · next he' => exact absurd (List.cons.inj he').1 hbang
        · obtain ⟨rfl, rfl⟩ := Prod.mk.inj he
          rw [hphase]
          rfl

theorem stops?_text {stops : List Color} (h : 2 ≤ stops.length) :
    stops? (stops.map Color.text) = some stops := by
  have hall : ∀ stops : List Color, (stops.map Color.text).mapM Color.parse? = some stops := by
    intro stops
    induction stops with
    | nil => rfl
    | cons c rest ih =>
        rw [List.map_cons, List.mapM_cons, Color.parse?_text, ih]
        rfl
  match stops, h with
  | c :: d :: rest, _ => exact hall (c :: d :: rest)

/-! ## Tags -/

/-- The tag as it is written, with its canonical name. -/
def form : Tag → TagForm
  | color c => ⟨"color".toList, [.bare c.text c.all_isBareChar_text], by decide⟩
  | decoration d on =>
    ⟨d.name, [.bare (if on then "true".toList else "false".toList) (by cases on <;> decide)],
      by cases d <;> decide⟩
  | fill (.gradient stops) =>
    ⟨"gradient".toList, stops.map fun c => .bare c.text c.all_isBareChar_text, by decide⟩
  | fill (.rainbow phase reversed) =>
    ⟨"rainbow".toList,
      [.bare (rainbowText phase reversed) (all_isBareChar_rainbowText phase reversed)],
      by decide⟩
  | reset => ⟨"reset".toList, [], by decide⟩
  | click event =>
    ⟨"click".toList,
      [.bare event.action.name (by cases event.action <;> decide), .quoted .single event.value],
      by decide⟩
  | hover markup =>
    ⟨"hover".toList, [.bare "show_text".toList (by decide), .quoted .single markup], by decide⟩
  | insertion t => ⟨"insertion".toList, [.quoted .single t], by decide⟩
  | font key => ⟨"font".toList, [.quoted .single key], by decide⟩
  | newline => ⟨"newline".toList, [], by decide⟩

/-- Whether arguments can say what the tag is to mean. -/
def Fits : Tag → Prop
  | fill (.gradient stops) => 2 ≤ stops.length
  | font key => key ≠ []
  | _ => True

/-- What the canonical name of the tag stands for. -/
def title : Tag → TagName
  | color _ => .color
  | decoration d _ => .decoration d
  | fill (.gradient _) => .gradient
  | fill (.rainbow _ _) => .rainbow
  | reset => .reset
  | click _ => .click
  | hover _ => .hover
  | insertion _ => .insertion
  | font _ => .font
  | newline => .newline

theorem ofText?_form (meaning : Tag) :
    TagName.ofText? meaning.form.opened.name = some meaning.title := by
  cases meaning with
  | decoration d on => cases d <;> rfl
  | fill f => cases f <;> rfl
  | color | reset | click | hover | insertion | font | newline => rfl

/-- A tag is read back from its written form. -/
theorem resolve?_form {meaning : Tag} (h : meaning.Fits) :
    resolve? meaning.form.opened = some meaning := by
  rw [resolve?_of_ofText? (ofText?_form meaning)]
  cases meaning with
  | color c =>
      show (Color.parse? c.text).map color = _
      rw [Color.parse?_text]
      rfl
  | decoration d on => cases on <;> rfl
  | fill f =>
      cases f with
      | gradient stops =>
          have hvalues : (fill (.gradient stops)).form.values = stops.map Color.text :=
            List.map_map
          show (stops? (fill (.gradient stops)).form.values).map (fun s => fill (.gradient s)) = _
          rw [hvalues, stops?_text h]
          rfl
      | rainbow phase reversed =>
          show (rainbow? (rainbowText phase reversed)).map fill = _
          rw [rainbow?_rainbowText]
          rfl
  | click event =>
      obtain ⟨action, value⟩ := event
      have haction : ClickAction.ofName? (Text.lower action.name) = some action := by
        cases action <;> rfl
      show (ClickAction.ofName? (Text.lower action.name)).map (fun a => click ⟨a, value⟩) = _
      rw [haction]
      rfl
  | font key =>
      show (if key.isEmpty then none else some (font key)) = _
      exact if_neg fun e => h (List.isEmpty_iff.mp e)
  | reset | hover | insertion | newline => rfl

end Tag

end StyledChat
