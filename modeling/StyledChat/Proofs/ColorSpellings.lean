/-
How colours are spelled.

A named colour is spelled by its name, or by one of two names with `grey`, in any letter case,
and a 24-bit colour by `#` and six hex digits, two for each channel (`Color.Spells`).  A text
reads as a colour exactly when it is a spelling of it with blanks around (`Color.parse_eq_ok_iff`
and `Text.trim_between`), and the written form of a colour is the one of its spellings that is
written (`Color.spells_text`).

Hex digits are ASCII, so it makes no difference whether six characters or six octets are asked
for (`Rgb.ofHex?_octets`).
-/
import StyledChat.Proofs.MadeTags
import StyledChat.Proofs.Octets

namespace StyledChat

/-! ## Blanks around a text -/

namespace Text

theorem isBlank_iff {t : Text} : isBlank t ↔ ∀ c ∈ t, isBlankChar c := List.all_eq_true

theorem exists_trimEnd (t : Text) : ∃ behind, isBlank behind ∧ t = trimEnd t ++ behind := by
  refine ⟨(t.reverse.takeWhile isBlankChar).reverse, ?_, ?_⟩
  · rw [isBlank, List.all_reverse]
    exact List.all_takeWhile
  · rw [trimEnd, ← List.reverse_append, List.takeWhile_append_dropWhile, List.reverse_reverse]

/-- Trimming loses blanks only. -/
theorem exists_trim (t : Text) : ∃ before behind, isBlank before ∧ isBlank behind
    ∧ t = before ++ (trim t ++ behind) := by
  obtain ⟨behind, hbehind, he⟩ := exists_trimEnd (t.dropWhile isBlankChar)
  refine ⟨t.takeWhile isBlankChar, behind, List.all_takeWhile, hbehind, ?_⟩
  rw [trim, ← he, List.takeWhile_append_dropWhile]

theorem dropWhile_isBlankChar {t : Text} (h : ∀ c ∈ t, ¬isBlankChar c) (hne : t ≠ [])
    (rest : Text) : (t ++ rest).dropWhile isBlankChar = t ++ rest := by
  obtain ⟨c, more, rfl⟩ := List.exists_cons_of_ne_nil hne
  exact List.dropWhile_cons_of_neg (h c List.mem_cons_self)

/-- A text with no blanks is what is left of it between blanks. -/
theorem trim_between {before word behind : Text} (hbefore : isBlank before)
    (hbehind : isBlank behind) (hword : ∀ c ∈ word, ¬isBlankChar c) (hne : word ≠ []) :
    trim (before ++ (word ++ behind)) = word := by
  have hreversed : ∀ c ∈ word.reverse, ¬isBlankChar c :=
    fun c hc => hword c (List.mem_reverse.mp hc)
  have hstart : (before ++ (word ++ behind)).dropWhile isBlankChar = word ++ behind := by
    rw [List.dropWhile_append_of_pos (isBlank_iff.mp hbefore), dropWhile_isBlankChar hword hne]
  have hend : (behind.reverse ++ word.reverse).dropWhile isBlankChar = word.reverse := by
    rw [List.dropWhile_append_of_pos fun c hc => isBlank_iff.mp hbehind c (List.mem_reverse.mp hc)]
    have hkept := dropWhile_isBlankChar hreversed (mt List.reverse_eq_nil_iff.mp hne) []
    rwa [List.append_nil] at hkept
  rw [trim, hstart, trimEnd, List.reverse_append, hend, List.reverse_reverse]

/-- A blank is no letter. -/
theorem isBlankChar_toLower {c : Char} (h : isBlankChar c) : c.toLower = c := by
  refine dif_neg ?_
  rintro ⟨hlow, hhigh⟩
  have hlow : 65 ≤ c.toNat := UInt32.le_iff_toNat_le.mp hlow
  have hhigh : c.toNat ≤ 90 := UInt32.le_iff_toNat_le.mp hhigh
  simp only [isBlankChar, Bool.or_eq_true, Bool.and_eq_true, decide_eq_true_eq, beq_iff_eq] at h
  omega

/-! ## Hex digits -/

/-- A digit in base 16 of this value, in either case. -/
def IsHexDigit (c : Char) (d : Nat) : Prop :=
  "0123456789abcdef".toList[d]? = some c ∨ "0123456789ABCDEF".toList[d]? = some c

instance (c : Char) (d : Nat) : Decidable (IsHexDigit c d) :=
  inferInstanceAs (Decidable (_ ∨ _))

theorem IsHexDigit.lt {c : Char} {d : Nat} (h : IsHexDigit c d) : d < 16 := by
  rcases h with h | h <;> exact (List.getElem?_eq_some_iff.mp h).1

theorem digitValue?_eq_some_iff {c : Char} {d : Nat} :
    digitValue? c = some d ↔ IsHexDigit c d := by
  constructor
  · intro h
    have hall : ∀ c ∈ hexDigits, ∀ d ∈ digitValue? c, IsHexDigit c d :=
      forall_mem_of_all (by decide)
    exact hall c (mem_hexDigits (Option.isSome_iff_exists.mpr ⟨d, h⟩)) d h
  · intro h
    have hall : ∀ d < 16, "0123456789abcdef".toList[d]?.bind digitValue? = some d
        ∧ "0123456789ABCDEF".toList[d]?.bind digitValue? = some d := by decide
    obtain ⟨hlower, hupper⟩ := hall d h.lt
    rcases h with h | h
    · rwa [h, Option.bind_some] at hlower
    · rwa [h, Option.bind_some] at hupper

end Text

namespace Rgb

/-- Two digits that denote a channel. -/
def IsHexByte (n : UInt8) (hi lo : Char) : Prop :=
  ∃ h l, Text.IsHexDigit hi h ∧ Text.IsHexDigit lo l ∧ n.toNat = 16 * h + l

theorem byteOfHex?_eq_some_iff {hi lo : Char} {n : UInt8} :
    byteOfHex? hi lo = some n ↔ IsHexByte n hi lo := by
  constructor
  · intro hread
    obtain ⟨h, hh, hread⟩ := Option.bind_eq_some_iff.mp hread
    obtain ⟨l, hl, hread⟩ := Option.bind_eq_some_iff.mp hread
    have hhi := Text.digitValue?_eq_some_iff.mp hh
    have hlo := Text.digitValue?_eq_some_iff.mp hl
    have hlt : 16 * h + l < 256 := by
      have := hhi.lt
      have := hlo.lt
      omega
    refine ⟨h, l, hhi, hlo, ?_⟩
    rw [← Option.some.inj hread, UInt8.toNat_ofNat_of_lt' hlt]
  · rintro ⟨h, l, hhi, hlo, hn⟩
    rw [byteOfHex?, Text.digitValue?_eq_some_iff.mpr hhi, Text.digitValue?_eq_some_iff.mpr hlo]
    show some (UInt8.ofNat (16 * h + l)) = some n
    rw [← hn, UInt8.ofNat_toNat]

/-- Six digits that denote a colour, two for each channel. -/
inductive Digits (c : Rgb) : Text → Prop
  | mk {r₁ r₂ g₁ g₂ b₁ b₂ : Char} : IsHexByte c.r r₁ r₂ → IsHexByte c.g g₁ g₂ →
      IsHexByte c.b b₁ b₂ → Digits c [r₁, r₂, g₁, g₂, b₁, b₂]

theorem ofHex?_eq_some_iff {t : Text} {c : Rgb} : ofHex? t = some c ↔ c.Digits t := by
  constructor
  · intro h
    match t with
    | [r₁, r₂, g₁, g₂, b₁, b₂] =>
        obtain ⟨r, hr, h⟩ := Option.bind_eq_some_iff.mp h
        obtain ⟨g, hg, h⟩ := Option.bind_eq_some_iff.mp h
        obtain ⟨b, hb, h⟩ := Option.bind_eq_some_iff.mp h
        rw [← Option.some.inj h]
        exact .mk (byteOfHex?_eq_some_iff.mp hr) (byteOfHex?_eq_some_iff.mp hg)
          (byteOfHex?_eq_some_iff.mp hb)
    | [] | [_] | [_, _] | [_, _, _] | [_, _, _, _] | [_, _, _, _, _] => cases h
    | _ :: _ :: _ :: _ :: _ :: _ :: _ :: _ => cases h
  · rintro ⟨hr, hg, hb⟩
    rw [ofHex?, byteOfHex?_eq_some_iff.mpr hr, byteOfHex?_eq_some_iff.mpr hg,
      byteOfHex?_eq_some_iff.mpr hb]
    rfl

/-- Nothing but hex digits is read. -/
theorem mem_hexDigits_of_ofHex? {t : Text} {c : Rgb} (h : ofHex? t = some c) :
    ∀ d ∈ t, d ∈ Text.hexDigits :=
  fun d hd => Text.mem_hexDigits ((LegacyCode.isHexCode_of_ofHex? h).hex d hd)

theorem not_beyond_of_ofHex? {t : Text} {c : Rgb} (h : ofHex? t = some c) :
    ∀ d ∈ t, ¬Text.Beyond d := by
  have hall : ∀ d ∈ Text.hexDigits, ¬Text.Beyond d := Text.forall_mem_of_all (by decide)
  exact fun d hd => hall d (mem_hexDigits_of_ofHex? h d hd)

end Rgb

theorem Text.octets_of_not_beyond {t : Text} (h : ∀ c ∈ t, ¬Beyond c) : octets t = t := by
  induction t with
  | nil => rfl
  | cons c rest ih =>
      rw [octets_cons, octetsOf_ascii (h c List.mem_cons_self),
        ih fun d hd => h d (List.mem_cons_of_mem c hd)]
      rfl

theorem Text.not_beyond_of_octets {t : Text} (h : ∀ b ∈ octets t, ¬Beyond b) :
    ∀ c ∈ t, ¬Beyond c := by
  intro c hc hbeyond
  obtain ⟨b, hb⟩ := List.exists_mem_of_ne_nil _ (octetsOf_ne_nil c)
  exact h b (List.mem_flatMap.mpr ⟨c, hc, hb⟩) (beyond_of_mem_octetsOf hbeyond hb)

/-- Six hex digits are six octets, and no other six octets are read. -/
theorem Rgb.ofHex?_octets (t : Text) : ofHex? (Text.octets t) = ofHex? t := by
  by_cases hascii : ∀ c ∈ t, ¬Text.Beyond c
  · rw [Text.octets_of_not_beyond hascii]
  · have hchars : ofHex? t = none :=
      Option.eq_none_iff_forall_ne_some.mpr fun c h => hascii (not_beyond_of_ofHex? h)
    have hoctets : ofHex? (Text.octets t) = none :=
      Option.eq_none_iff_forall_ne_some.mpr fun c h =>
        hascii (Text.not_beyond_of_octets (not_beyond_of_ofHex? h))
    rw [hchars, hoctets]

/-! ## Names -/

namespace NamedColor

theorem lower_name (c : NamedColor) : Text.lower c.name = c.name := by
  cases c <;> rfl

theorem canonicalName_eq_name_iff {t : Text} {c : NamedColor} : canonicalName t = c.name ↔
    t = c.name ∨ (c = gray ∧ t = "grey".toList) ∨ (c = darkGray ∧ t = "dark_grey".toList) := by
  unfold canonicalName
  split
  · next h =>
    rw [h]
    cases c <;> decide +kernel
  · next hgrey =>
    split
    · next h =>
      rw [h]
      cases c <;> decide +kernel
    · next hdark =>
      simp only [hgrey, hdark, and_false, or_false]

theorem ofName?_eq_some_iff {t : Text} {c : NamedColor} :
    ofName? t = some c ↔ canonicalName (Text.lower t) = c.name := by
  constructor
  · intro h
    have hfound := List.find?_some h
    exact (beq_iff_eq.mp hfound).symm
  · intro h
    rw [ofName?, h]
    cases c <;> rfl

end NamedColor

/-! ## Spellings -/

namespace Color

/-- The spellings of a colour. -/
inductive Spells : Text → Color → Prop
  | name {t : Text} {c : NamedColor} : Text.sameLetters t c.name → Spells t (.named c)
  | grey {t : Text} : Text.sameLetters t "grey".toList → Spells t (.named .gray)
  | darkGrey {t : Text} : Text.sameLetters t "dark_grey".toList → Spells t (.named .darkGray)
  | hex {digits : Text} {c : Rgb} : c.Digits digits → Spells ('#' :: digits) (.rgb c)

theorem sameLetters_iff (t : Text) {word : Text} (h : Text.lower word = word) :
    Text.sameLetters t word ↔ Text.lower t = word := by
  rw [Text.sameLetters, beq_iff_eq, h]

theorem spells_named_iff {t : Text} {c : NamedColor} :
    Spells t (.named c) ↔ NamedColor.ofName? t = some c := by
  have hname := sameLetters_iff t c.lower_name
  have hgrey : Text.sameLetters t "grey".toList ↔ _ := sameLetters_iff t rfl
  have hdark : Text.sameLetters t "dark_grey".toList ↔ _ := sameLetters_iff t rfl
  rw [NamedColor.ofName?_eq_some_iff, NamedColor.canonicalName_eq_name_iff, ← hname, ← hgrey,
    ← hdark]
  constructor
  · intro h
    cases h with
    | name h => exact Or.inl h
    | grey h => exact Or.inr (Or.inl ⟨rfl, h⟩)
    | darkGrey h => exact Or.inr (Or.inr ⟨rfl, h⟩)
  · rintro (h | ⟨rfl, h⟩ | ⟨rfl, h⟩)
    · exact .name h
    · exact .grey h
    · exact .darkGrey h

theorem spells_rgb_iff {t : Text} {c : Rgb} :
    Spells t (.rgb c) ↔ ∃ digits, t = '#' :: digits ∧ Rgb.ofHex? digits = some c := by
  constructor
  · intro h
    cases h with
    | hex h => exact ⟨_, rfl, Rgb.ofHex?_eq_some_iff.mpr h⟩
  · rintro ⟨digits, rfl, h⟩
    exact .hex (Rgb.ofHex?_eq_some_iff.mp h)

/-- A name does not begin with `#`. -/
theorem ofName?_hash (digits : Text) : NamedColor.ofName? ('#' :: digits) = none := by
  refine Option.eq_none_iff_forall_ne_some.mpr fun c h => ?_
  have hhash : ∀ word : Text, word.head? ≠ some '#' → Text.lower ('#' :: digits) ≠ word :=
    fun word hword he => hword (he ▸ rfl)
  rw [NamedColor.ofName?_eq_some_iff, NamedColor.canonicalName_eq_name_iff] at h
  rcases h with h | ⟨-, h⟩ | ⟨-, h⟩
  · exact hhash c.name (by cases c <;> decide +kernel) h
  · exact hhash _ (by decide +kernel) h
  · exact hhash _ (by decide +kernel) h

/-- A text reads as a colour when it spells the colour, blanks around it aside. -/
theorem parse_eq_ok_iff {t : Text} {c : Color} : parse t = .ok c ↔ Spells (Text.trim t) c := by
  unfold parse
  split
  · next digits hword =>
    rw [hword]
    constructor
    · intro h
      split at h
      · next rgb hrgb =>
        obtain rfl := Except.ok.inj h
        exact .hex (Rgb.ofHex?_eq_some_iff.mp hrgb)
      · cases h
    · intro h
      cases c with
      | named c =>
          rw [spells_named_iff, ofName?_hash] at h
          cases h
      | rgb c =>
          obtain ⟨_, he, hrgb⟩ := spells_rgb_iff.mp h
          rw [← (List.cons.inj he).2] at hrgb
          rw [hrgb]
  · next hword =>
    constructor
    · intro h
      split at h
      · next c hname =>
        obtain rfl := Except.ok.inj h
        exact spells_named_iff.mpr hname
      · cases h
    · intro h
      cases c with
      | named c => rw [spells_named_iff.mp h]
      | rgb c =>
          obtain ⟨digits, he, -⟩ := spells_rgb_iff.mp h
          exact absurd he (hword digits)

theorem not_blank_of_sameLetters {t word : Text} (h : Text.sameLetters t word)
    (hword : (Text.lower word).all fun c => ¬Text.isBlankChar c) :
    ∀ c ∈ t, ¬Text.isBlankChar c := by
  intro c hc hblank
  have hmem : c.toLower ∈ Text.lower word := by
    rw [← beq_iff_eq.mp h]
    exact List.mem_map_of_mem hc
  rw [Text.isBlankChar_toLower hblank] at hmem
  exact Text.forall_mem_of_all hword c hmem hblank

/-- No spelling has a blank in it. -/
theorem Spells.not_blank {t : Text} {c : Color} (h : Spells t c) :
    ∀ d ∈ t, ¬Text.isBlankChar d := by
  cases h with
  | @name _ c h => exact not_blank_of_sameLetters h (by cases c <;> decide)
  | grey h => exact not_blank_of_sameLetters h (by decide)
  | darkGrey h => exact not_blank_of_sameLetters h (by decide)
  | hex h =>
      have hall : ∀ d ∈ '#' :: Text.hexDigits, ¬Text.isBlankChar d :=
        Text.forall_mem_of_all (by decide)
      exact (LegacyCode.isHexCode_of_ofHex? (Rgb.ofHex?_eq_some_iff.mpr h)).forall_mem hall

theorem Spells.ne_nil {t : Text} {c : Color} (h : Spells t c) : t ≠ [] := by
  rintro rfl
  cases h with
  | @name _ c h => cases c <;> cases h
  | grey h => cases h
  | darkGrey h => cases h

/-- The written form of a colour spells it. -/
theorem spells_text (c : Color) : Spells c.text c := by
  have hparse := parse_eq_ok_iff.mp (parse_text c)
  rwa [Text.trim_of_no_blank fun _ h => (bare_and_not_blank_of_mem_text h).2] at hparse

theorem lower_text (c : Color) : Text.lower c.text = c.text := by
  have hdigit : ∀ d < 16, (Nat.digitChar d).toLower = Nat.digitChar d := by decide +kernel
  have hbyte : ∀ n : UInt8, Text.lower (Rgb.hexByte n) = Rgb.hexByte n := by
    intro n
    have hn := n.toNat_lt
    rw [Rgb.hexByte, Text.lower, List.map_cons, List.map_singleton, hdigit _ (by omega),
      hdigit _ (by omega)]
  cases c with
  | named c => exact c.lower_name
  | rgb c =>
      have hlower : Text.lower (Rgb.hex c) = '#' :: (Text.lower (Rgb.hexByte c.r)
          ++ Text.lower (Rgb.hexByte c.g) ++ Text.lower (Rgb.hexByte c.b)) := by
        simp only [Rgb.hex, Text.lower, List.map_cons, List.map_append]
        rfl
      rw [text, hlower, hbyte, hbyte, hbyte]
      rfl

/-- A colour is read back from its written form, and a text reads as a colour exactly when it
spells it, with blanks around or without.

So whatever a colour was read from, its written form is the one spelling that stands for all of
them: it has no capitals, reads as the same colour, is written for it again, and is written for
no other. -/
theorem parse_iff_spelled :
    (∀ c, parse c.text = .ok c)
      ∧ (∀ t c, parse t = .ok c ↔ ∃ before word behind, t = before ++ (word ++ behind)
          ∧ Text.isBlank before ∧ Text.isBlank behind ∧ Spells word c)
      ∧ (∀ t c, parse t = .ok c → Spells c.text c ∧ Text.lower c.text = c.text
          ∧ parse c.text = .ok c ∧ (parse c.text).map text = .ok c.text)
      ∧ (∀ t u c d, parse t = .ok c → parse u = .ok d → (c.text = d.text ↔ c = d))
      ∧ ∀ digits, Rgb.ofHex? (Text.octets digits) = Rgb.ofHex? digits := by
  refine ⟨parse_text, fun t c => ⟨fun h => ?_, ?_⟩, fun t c _ => ?_, fun t u c d _ _ => ?_,
    Rgb.ofHex?_octets⟩
  · obtain ⟨before, behind, hbefore, hbehind, he⟩ := Text.exists_trim t
    exact ⟨before, Text.trim t, behind, he, hbefore, hbehind, parse_eq_ok_iff.mp h⟩
  · rintro ⟨before, word, behind, rfl, hbefore, hbehind, h⟩
    rw [parse_eq_ok_iff, Text.trim_between hbefore hbehind h.not_blank h.ne_nil]
    exact h
  · have hread := parse_text c
    exact ⟨spells_text c, lower_text c, hread, by rw [hread]; rfl⟩
  · refine ⟨fun he => ?_, congrArg text⟩
    have hread := parse_text c
    rw [he, parse_text] at hread
    exact (Except.ok.inj hread).symm

/-- A colour in capitals between blanks, and the other spelling of a name. -/
theorem parse_of_samples :
    parse "\u2003#00FFaA\n".toList = .ok (.rgb ⟨0, 255, 170⟩)
      ∧ (Color.rgb ⟨0, 255, 170⟩).text = "#00ffaa".toList
      ∧ parse "Dark_Grey".toList = .ok (.named .darkGray)
      ∧ Spells (Color.named .darkGray).text (.named .darkGray) := by
  have hhex : Spells "#00FFaA".toList (.rgb ⟨0, 255, 170⟩) :=
    .hex (.mk ⟨0, 0, by decide +kernel⟩ ⟨15, 15, by decide +kernel⟩ ⟨10, 10, by decide +kernel⟩)
  have hgrey : Spells "Dark_Grey".toList (.named .darkGray) := .darkGrey (by decide +kernel)
  have hread := (parse_iff_spelled.2.1 _ _).mpr
    ⟨"\u2003".toList, _, "\n".toList, rfl, by decide +kernel, by decide +kernel, hhex⟩
  have hname := (parse_iff_spelled.2.1 _ _).mpr ⟨[], _, [], rfl, rfl, rfl, hgrey⟩
  rw [List.nil_append, List.append_nil] at hname
  exact ⟨hread, by decide +kernel, hname, (parse_iff_spelled.2.2.1 _ _ hname).1⟩

end Color

end StyledChat
