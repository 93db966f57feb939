/-
What the passes put into a text.

Codes and flags become tags, each in brackets of its own with no quote and no `\` in it
(`Made.bracketed`).  No flag is expanded in a tag that a code made
(`MadeOfCode.expandFrom_append`), and what is made is a tag to any reader: whatever text
follows, it is read as it was meant, and all starting tags mean something to the styling
vocabulary (`Made.reads`).
-/
import StyledChat.Proofs.Guarded
import StyledChat.Proofs.Spelling
import StyledChat.Proofs.WrittenTags

namespace StyledChat

/-- A code and the tag it makes. -/
inductive MadeOfCode : Text → Text → Prop
  | named {code : Char} {tag : Text} : LegacyCode.tag? code = some tag →
      MadeOfCode ['&', code] tag
  | hex {digits : Text} : LegacyCode.IsHexCode digits →
      MadeOfCode ('&' :: '#' :: digits) ('<' :: '#' :: (digits ++ ['>']))

/-- A code or a flag and the tag it makes. -/
inductive Made : Text → Text → Prop
  | code {written tag : Text} : MadeOfCode written tag → Made written tag
  | flag {pending later : Nat} {inner tag : Text} : Flag.NoBracket inner →
      Flag.expansion? pending inner = some (tag, later) → Made ('<' :: (inner ++ ['>'])) tag

/-- A tag in brackets of its own. -/
structure Bracketed (tag : Text) : Prop where
  exists_content : ∃ content, tag = '<' :: (content ++ ['>']) ∧ Flag.NoBracket content
  unquoted : ∀ c ∈ tag, Token.IsUnquoted c

namespace Text

/-- The hexadecimal digits in either case. -/
def hexDigits : Text := "0123456789abcdefABCDEF".toList

theorem mem_hexDigits {c : Char} (h : isHexDigit c) : c ∈ hexDigits := by
  have hdigits : ∀ n < 103, isHexDigit (Char.ofNat n) → Char.ofNat n ∈ hexDigits := by
    decide +kernel
  have hbound : c.toNat < 103 := by
    rw [isHexDigit, digitValue?] at h
    split at h
    · next hc => exact Nat.lt_of_le_of_lt (UInt32.le_iff_toNat_le.mp hc.2) (by decide)
    · split at h
      · next hc => exact Nat.lt_of_le_of_lt (UInt32.le_iff_toNat_le.mp hc.2) (by decide)
      · split at h
        · next hc => exact Nat.lt_of_le_of_lt (UInt32.le_iff_toNat_le.mp hc.2) (by decide)
        · cases h
  rw [← Char.ofNat_toNat c] at h ⊢
  exact hdigits c.toNat hbound h

end Text

/-- Any six hexadecimal digits are a colour in bytes. -/
theorem Rgb.exists_ofHex? {t : Text} (hlength : t.length = 6)
    (hdigits : ∀ c ∈ t, (Text.digitValue? c).isSome) : ∃ rgb, ofHex? t = some rgb := by
  match t, hlength with
  | [r₁, r₂, g₁, g₂, b₁, b₂], _ =>
      have hbyte : ∀ hi ∈ [r₁, r₂, g₁, g₂, b₁, b₂], ∀ lo ∈ [r₁, r₂, g₁, g₂, b₁, b₂],
          ∃ n, byteOfHex? hi lo = some n := by
        intro hi hhi lo hlo
        obtain ⟨m, hm⟩ := Option.isSome_iff_exists.mp (hdigits hi hhi)
        obtain ⟨n, hn⟩ := Option.isSome_iff_exists.mp (hdigits lo hlo)
        exact ⟨_, by rw [byteOfHex?, hm, hn]; rfl⟩
      obtain ⟨r, hr⟩ := hbyte r₁ (by simp) r₂ (by simp)
      obtain ⟨g, hg⟩ := hbyte g₁ (by simp) g₂ (by simp)
      obtain ⟨b, hb⟩ := hbyte b₁ (by simp) b₂ (by simp)
      exact ⟨⟨r, g, b⟩, by rw [ofHex?, hr, hg, hb]; rfl⟩

theorem Rgb.isSome_of_byteOfHex? {hi lo : Char} {n : UInt8} (h : byteOfHex? hi lo = some n) :
    (Text.digitValue? hi).isSome ∧ (Text.digitValue? lo).isSome := by
  obtain ⟨m, hm, h⟩ := Option.bind_eq_some_iff.mp h
  obtain ⟨k, hk, -⟩ := Option.bind_eq_some_iff.mp h
  exact ⟨hm ▸ rfl, hk ▸ rfl⟩

/-- Nothing else is one. -/
theorem LegacyCode.isHexCode_of_ofHex? {t : Text} {rgb : Rgb} (h : Rgb.ofHex? t = some rgb) :
    IsHexCode t := by
  match t with
  | [r₁, r₂, g₁, g₂, b₁, b₂] =>
      obtain ⟨r, hr, h⟩ := Option.bind_eq_some_iff.mp h
      obtain ⟨g, hg, h⟩ := Option.bind_eq_some_iff.mp h
      obtain ⟨b, hb, -⟩ := Option.bind_eq_some_iff.mp h
      obtain ⟨hr₁, hr₂⟩ := Rgb.isSome_of_byteOfHex? hr
      obtain ⟨hg₁, hg₂⟩ := Rgb.isSome_of_byteOfHex? hg
      obtain ⟨hb₁, hb₂⟩ := Rgb.isSome_of_byteOfHex? hb
      refine ⟨rfl, ?_⟩
      simp only [List.forall_mem_cons]
      exact ⟨hr₁, hr₂, hg₁, hg₂, hb₁, hb₂, fun _ h => absurd h List.not_mem_nil⟩
  | [] | [_] | [_, _] | [_, _, _] | [_, _, _, _] | [_, _, _, _, _] => cases h
  | _ :: _ :: _ :: _ :: _ :: _ :: _ :: _ => cases h

/-- Digits denote the same colour in either letter case. -/
theorem Rgb.ofHex?_lower {t : Text}
    (h : ∀ c ∈ t, Text.digitValue? c.toLower = Text.digitValue? c) :
    ofHex? (Text.lower t) = ofHex? t := by
  match t with
  | [r₁, r₂, g₁, g₂, b₁, b₂] =>
      simp only [List.forall_mem_cons] at h
      obtain ⟨hr₁, hr₂, hg₁, hg₂, hb₁, hb₂, -⟩ := h
      simp only [Text.lower, List.map_cons, List.map_nil, ofHex?, byteOfHex?, hr₁, hr₂, hg₁, hg₂,
        hb₁, hb₂]
  | [] | [_] | [_, _] | [_, _, _] | [_, _, _, _] | [_, _, _, _, _] => rfl
  | _ :: _ :: _ :: _ :: _ :: _ :: _ :: _ => rfl

namespace LegacyCode.IsHexCode

variable {digits : Text}

/-- What `#` and all hexadecimal digits have in common, a code has. -/
theorem forall_mem {P : Char → Prop} (hall : ∀ c ∈ '#' :: Text.hexDigits, P c)
    (h : IsHexCode digits) : ∀ c ∈ '#' :: digits, P c := by
  intro c hc
  refine hall c ?_
  rcases List.mem_cons.mp hc with rfl | hc
  · exact List.mem_cons_self
  · exact List.mem_cons_of_mem _ (Text.mem_hexDigits (h.hex c hc))

theorem noBracket : IsHexCode digits → Flag.NoBracket ('#' :: digits) :=
  forall_mem (Text.forall_mem_of_all (by decide))

theorem colon (h : IsHexCode digits) : ':' ∉ '#' :: digits := by
  have hne : ∀ c ∈ '#' :: digits, c ≠ ':' := h.forall_mem (Text.forall_mem_of_all (by decide))
  exact fun hmem => hne ':' hmem rfl

theorem isName (h : IsHexCode digits) : Token.isName ('#' :: digits) := by
  have hall : ∀ c ∈ Text.hexDigits, Token.isNameRest c := Text.forall_mem_of_all (by decide)
  rw [Token.isName, Bool.and_eq_true, List.all_eq_true]
  exact ⟨by decide, fun c hc => hall c (Text.mem_hexDigits (h.hex c hc))⟩

/-- Six digits are a colour, in whatever letter case they are written. -/
theorem exists_rgb (h : IsHexCode digits) : ∃ rgb, Rgb.ofHex? digits = some rgb
    ∧ Color.parse? (Text.lower ('#' :: digits)) = some (.rgb rgb) := by
  have hlower : ∀ c ∈ Text.hexDigits, Text.digitValue? c.toLower = Text.digitValue? c
      ∧ ¬Text.isBlankChar c.toLower := Text.forall_mem_of_all (by decide)
  have hdigits : ∀ c ∈ digits, Text.digitValue? c.toLower = Text.digitValue? c
      ∧ ¬Text.isBlankChar c.toLower := fun c hc => hlower c (Text.mem_hexDigits (h.hex c hc))
  obtain ⟨rgb, hrgb⟩ := Rgb.exists_ofHex? h.length h.hex
  have hsame : Rgb.ofHex? (Text.lower digits) = some rgb :=
    (Rgb.ofHex?_lower fun c hc => (hdigits c hc).1).trans hrgb
  have htrim : Text.trim ('#' :: Text.lower digits) = '#' :: Text.lower digits := by
    refine Text.trim_of_no_blank fun c hc => ?_
    rcases List.mem_cons.mp hc with rfl | hc
    · decide
    · obtain ⟨d, hd, rfl⟩ := List.mem_map.mp hc
      exact (hdigits d hd).2
  refine ⟨rgb, hrgb, ?_⟩
  show Color.parse? ('#' :: Text.lower digits) = _
  rw [Color.parse?, Color.parse, htrim]
  simp only [hsame]
  rfl

end LegacyCode.IsHexCode

namespace MadeOfCode

variable {written tag : Text}

theorem bracketed (h : MadeOfCode written tag) : Bracketed tag := by
  cases h with
  | named h =>
      have htable : ∀ e ∈ LegacyCode.table, e.2 = '<' :: (e.2.tail.dropLast ++ ['>'])
          ∧ e.2.tail.dropLast.all fun c => c ≠ '<' ∧ c ≠ '>' := by decide
      obtain ⟨hshape, hfree⟩ := htable _ (LegacyCode.mem_table_of_tag? h)
      exact ⟨⟨_, hshape, Text.forall_mem_of_all hfree⟩, fun c hc =>
        LegacyCode.isUnquoted_of_tag? h c (List.mem_cons_of_mem _ hc)⟩
  | @hex digits h =>
      refine ⟨⟨'#' :: digits, rfl, h.noBracket⟩, fun c hc => ?_⟩
      rcases List.mem_cons.mp hc with rfl | hc
      · decide
      rcases List.mem_cons.mp hc with rfl | hc
      · decide
      rcases List.mem_append.mp hc with hc | hc
      · exact h.isUnquoted c hc
      · obtain rfl := List.mem_singleton.mp hc
        decide

/-- No flag is expanded in a tag that a code made. -/
theorem expandFrom_append (h : MadeOfCode written tag) (pending : Nat) (u : Text) :
    Flag.expandFrom pending (tag ++ u) = tag ++ Flag.expandFrom pending u := by
  obtain ⟨⟨content, htag, hfree⟩, -⟩ := h.bracketed
  have hplain : content.head? ≠ some '/'
      ∧ Text.sameLetters (Flag.nameOf content) Flag.tagName = false := by
    cases h with
    | named h =>
        have htable : ∀ e ∈ LegacyCode.table, e.2.tail.dropLast.head? ≠ some '/'
            ∧ Text.sameLetters (Flag.nameOf e.2.tail.dropLast) Flag.tagName = false := by decide
        have hcontent := htable _ (LegacyCode.mem_table_of_tag? h)
        rwa [htag, List.tail_cons, List.dropLast_concat] at hcontent
    | @hex digits h =>
        obtain rfl : '#' :: digits = content :=
          List.append_cancel_right (List.cons.inj htag).2
        rw [Flag.nameOf, Text.cutAt?_of_not_mem h.colon]
        exact ⟨fun e => absurd (Option.some.inj e) (by decide), rfl⟩
  have hkept : Flag.expansion? pending content = none := by
    rw [Flag.expansion?_opening hplain.1, hplain.2]
    rfl
  simp only [htag, List.cons_append, List.append_assoc]
  exact Flag.expandFrom_bracketed hfree hkept u

/-- Codes end no gradient. -/
theorem ne_closeTag (h : MadeOfCode written tag) : tag ≠ Flag.closeTag := by
  cases h with
  | named h =>
      have htable : ∀ e ∈ LegacyCode.table, e.2 ≠ Flag.closeTag := by decide
      exact htable _ (LegacyCode.mem_table_of_tag? h)
  | hex _ =>
      intro e
      have hsecond : some '#' = Flag.closeTag.tail.head? :=
        congrArg (fun t : Text => t.tail.head?) e
      exact absurd hsecond (by decide)

end MadeOfCode

/-- The tags that flags make. -/
theorem Flag.bracketed_of_expansion? {pending later : Nat} {inner tag : Text}
    (h : expansion? pending inner = some (tag, later)) : Bracketed tag := by
  refine ⟨?_, isUnquoted_of_expansion? h⟩
  rcases expansion?_eq_some h with ⟨flag, hflag, rfl, -⟩ | ⟨rfl, -⟩
  · have hall : ∀ flag ∈ all, flag.openTag = '<' :: (flag.openTag.tail.dropLast ++ ['>'])
        ∧ flag.openTag.tail.dropLast.all fun c => c ≠ '<' ∧ c ≠ '>' := by decide +kernel
    obtain ⟨hshape, hfree⟩ := hall flag hflag
    exact ⟨_, hshape, Text.forall_mem_of_all hfree⟩
  · exact ⟨"/gradient".toList, by decide, Text.forall_mem_of_all (by decide)⟩

theorem Made.bracketed {written tag : Text} (h : Made written tag) : Bracketed tag := by
  cases h with
  | code h => exact h.bracketed
  | flag _ h => exact Flag.bracketed_of_expansion? h

/-- Only a flag ends a gradient, and flags are written in brackets. -/
theorem Made.bracket_mem_of_closeTag {written : Text} (h : Made written Flag.closeTag) :
    '<' ∈ written := by
  cases h with
  | code h => exact absurd rfl h.ne_closeTag
  | flag _ _ => exact List.mem_cons_self

/-! ## What is read -/

/-- What a tag that was made is read as: an opening tag that players may use, or the end
of a gradient. -/
inductive ReadsAs : Text → Token → Prop
  | opening {tagged : Tagged} {meaning : Tag} :
      Draft.allowedTag? .restricted tagged = some meaning → ReadsAs tagged.raw (.opening tagged)
  | closing {tagged : Tagged} : tagged.raw = Flag.closeTag → ReadsAs tagged.raw (.closing tagged)

/-- The tag is found whatever text follows it. -/
def Reads (tag : Text) : Prop :=
  ∀ u : Text, ∃ tok, ReadsAs tag tok ∧ Token.tag? (tag.tail ++ u) = some (tok, u)

/-- Whether a tag is found with nothing behind it. -/
def readsAlone (tag : Text) : Bool :=
  match Token.tag? tag.tail with
  | some (.opening tagged, []) => (Draft.allowedTag? .restricted tagged).isSome
  | some (.closing _, []) => tag == Flag.closeTag
  | _ => false

theorem reads_of_readsAlone {tag : Text} (hbracketed : Bracketed tag) (h : readsAlone tag) :
    Reads tag := by
  intro u
  obtain ⟨⟨content, rfl, -⟩, -⟩ := hbracketed
  have hfound : ∀ {tok : Token}, Token.tag? (content ++ ['>']) = some (tok, []) →
      '<' :: (content ++ ['>']) = tok.raw
        ∧ Token.tag? (content ++ ['>'] ++ u) = some (tok, u) := by
    intro tok htag
    obtain ⟨content', hraw, he, hsame⟩ := Token.tag?_append htag u
    obtain rfl := List.append_cancel_right he
    exact ⟨hraw.symm, by rw [List.append_assoc]; exact hsame⟩
  rw [readsAlone, List.tail_cons] at h
  rw [List.tail_cons]
  split at h
  · next tagged htag =>
      obtain ⟨hraw, hsame⟩ := hfound htag
      obtain ⟨meaning, hmeaning⟩ := Option.isSome_iff_exists.mp h
      rw [hraw]
      exact ⟨_, .opening hmeaning, hsame⟩
  · next tagged htag =>
      obtain ⟨hraw, hsame⟩ := hfound htag
      have hclose : tagged.raw = Flag.closeTag := hraw.symm.trans (beq_iff_eq.mp h)
      rw [hraw]
      exact ⟨_, .closing hclose, hsame⟩
  · cases h

/-- A colour in hexadecimal digits is a tag of its own, and means that colour. -/
theorem LegacyCode.IsHexCode.exists_tagged {digits : Text} (h : IsHexCode digits) :
    ∃ rgb tagged, Rgb.ofHex? digits = some rgb ∧ tagged.raw = '<' :: '#' :: (digits ++ ['>'])
      ∧ Tag.resolve? tagged = some (.color (.rgb rgb))
      ∧ ∀ u : Text, Token.tag? ('#' :: (digits ++ '>' :: u)) = some (.opening tagged, u) := by
  obtain ⟨rgb, hrgb, hparse⟩ := h.exists_rgb
  let form : TagForm := ⟨'#' :: digits, [], h.isName⟩
  have hname : TagName.ofText? form.opened.name = some .plainColor :=
    TagName.ofText?_eq_plainColor_iff.mpr (Or.inl rfl)
  have hcontent : form.content = '#' :: digits := List.append_nil _
  refine ⟨rgb, form.opened, hrgb, ?_, ?_, fun u => ?_⟩
  · show '<' :: (form.content ++ ['>']) = _
    rw [hcontent]
    rfl
  · rw [Tag.resolve?_of_ofText? hname]
    show (Color.parse? (Text.lower ('#' :: digits))).map Tag.color = _
    rw [hparse]
    rfl
  · have hread := form.tag?_opening u
    rwa [hcontent] at hread

theorem LegacyCode.IsHexCode.reads {digits : Text} (h : IsHexCode digits) :
    Reads ('<' :: '#' :: (digits ++ ['>'])) := by
  intro u
  obtain ⟨rgb, tagged, -, hraw, hresolve, htag⟩ := h.exists_tagged
  have hallowed : Draft.allowedTag? .restricted tagged = some (.color (.rgb rgb)) :=
    Draft.allowedTag?_eq_some_iff.mpr ⟨hresolve, rfl⟩
  refine ⟨.opening tagged, hraw ▸ .opening hallowed, ?_⟩
  rw [← htag u, List.tail_cons, List.cons_append, List.append_assoc]
  rfl

theorem Made.reads {written tag : Text} (h : Made written tag) : Reads tag := by
  cases h with
  | code h =>
      cases h with
      | named hcode =>
          have htable : ∀ e ∈ LegacyCode.table, readsAlone e.2 := by decide +kernel
          exact reads_of_readsAlone (MadeOfCode.named hcode).bracketed
            (htable _ (LegacyCode.mem_table_of_tag? hcode))
      | hex h => exact h.reads
  | flag _ h =>
      refine reads_of_readsAlone (Flag.bracketed_of_expansion? h) ?_
      have hall : ∀ flag ∈ Flag.all, readsAlone flag.openTag := by decide +kernel
      rcases Flag.expansion?_eq_some h with ⟨flag, hflag, rfl, -⟩ | ⟨rfl, -⟩
      · exact hall flag hflag
      · decide +kernel

end StyledChat
