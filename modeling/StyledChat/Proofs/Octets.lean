/-
Reading a text octet by octet.

In UTF-8 an ASCII character is one octet, and the octets of every other character are
beyond ASCII (`Text.octetsOf_ascii`, `Text.beyond_of_mem_octetsOf`).  All that the scanners
of tokens compare with is ASCII.  So it makes no difference whether they step from one
character to the next or from one octet to the next, also where a `\` has taken only the
first octet of a character with it: they cut between two characters, and at the same place
(`Token.cutTag?_octets`, `Token.cutText_octets`).  Hence a reader that works on octets never
cuts a character in two, and finds the tokens of the text (`Token.readFrom_octets`).

An octet is represented by the character of its number, so that a scanner of octets is a
scanner of characters which is run over the octets of a text.
-/
import StyledChat.Proofs.Quoting
import StyledChat.Proofs.Stretches

namespace StyledChat

/-! ## Octets -/

namespace Text

/-- The octets that a character is written in. -/
def octetsOf (c : Char) : Text := (String.utf8EncodeChar c).map fun b => Char.ofNat b.toNat

def octets (t : Text) : Text := t.flatMap octetsOf

theorem octets_cons (c : Char) (rest : Text) : octets (c :: rest) = octetsOf c ++ octets rest :=
  List.flatMap_cons

theorem toNat_octet (b : UInt8) : (Char.ofNat b.toNat).toNat = b.toNat := by
  have hvalid : b.toNat.isValidChar := Or.inl (by have := b.toNat_lt; omega)
  rw [Char.ofNat, dif_pos hvalid]
  rfl

/-- The text that some octets are, if they are one. -/
def ofOctets? (octets : Text) : Option Text :=
  (octets.map fun b => UInt8.ofNat b.toNat).toByteArray.utf8Decode?.map Array.toList

theorem ofOctets?_octets (t : Text) : ofOctets? (octets t) = some t := by
  have hbytes : (octets t).map (fun b => UInt8.ofNat b.toNat)
      = t.flatMap String.utf8EncodeChar := by
    rw [octets, List.map_flatMap]
    refine congrArg (t.flatMap ·) (funext fun c => ?_)
    rw [octetsOf, List.map_map]
    refine (List.map_congr_left fun b _ => ?_).trans (List.map_id _)
    show UInt8.ofNat (Char.ofNat b.toNat).toNat = b
    rw [toNat_octet, UInt8.ofNat_toNat]
  rw [ofOctets?, hbytes]
  exact congrArg (Option.map Array.toList) List.utf8Decode?_utf8Encode

/-- Beyond ASCII. -/
def Beyond (c : Char) : Prop := 128 ≤ c.toNat

instance (c : Char) : Decidable (Beyond c) := inferInstanceAs (Decidable (128 ≤ c.toNat))

theorem octetsOf_ascii {c : Char} (h : ¬Beyond c) : octetsOf c = [c] := by
  have hlt : c.val.toNat ≤ 127 := Nat.le_of_lt_succ (Nat.not_le.mp h)
  have hone : String.utf8EncodeChar c = [UInt8.ofNat c.val.toNat] := if_pos hlt
  have hnumber : (UInt8.ofNat c.val.toNat).toNat = c.toNat := Nat.mod_eq_of_lt (by omega)
  rw [octetsOf, hone, List.map_singleton, hnumber, Char.ofNat_toNat]

/-- Every octet of a longer form has its highest bit set. -/
theorem le_of_mem_utf8EncodeChar {c : Char} (h : Beyond c) {b : UInt8}
    (hb : b ∈ String.utf8EncodeChar c) : 128 ≤ b.toNat := by
  have hbyte : ∀ n, 128 ≤ n → n < 256 → 128 ≤ (UInt8.ofNat n).toNat := by
    intro n hle hlt
    rwa [UInt8.toNat_ofNat_of_lt' hlt]
  have hlong : ¬c.val.toNat ≤ 127 := Nat.not_le.mpr h
  rw [String.utf8EncodeChar, if_neg hlong] at hb
  split at hb
  · simp only [List.mem_cons, List.not_mem_nil, or_false] at hb
    rcases hb with rfl | rfl <;> exact hbyte _ (by omega) (by omega)
  · split at hb
    · simp only [List.mem_cons, List.not_mem_nil, or_false] at hb
      rcases hb with rfl | rfl | rfl <;> exact hbyte _ (by omega) (by omega)
    · simp only [List.mem_cons, List.not_mem_nil, or_false] at hb
      rcases hb with rfl | rfl | rfl | rfl <;> exact hbyte _ (by omega) (by omega)

theorem beyond_of_mem_octetsOf {c d : Char} (h : Beyond c) (hd : d ∈ octetsOf c) : Beyond d := by
  obtain ⟨b, hb, rfl⟩ := List.mem_map.mp hd
  rw [Beyond, toNat_octet]
  exact le_of_mem_utf8EncodeChar h hb

theorem octetsOf_ne_nil (c : Char) : octetsOf c ≠ [] := by
  have hne : String.utf8EncodeChar c ≠ [] := by
    rw [String.utf8EncodeChar]
    split
    · exact List.cons_ne_nil _ _
    · split
      · exact List.cons_ne_nil _ _
      · split <;> exact List.cons_ne_nil _ _
  exact fun h => hne (List.map_eq_nil_iff.mp h)

/-- An ASCII character stands first in the octets where it stands first in the text. -/
theorem head?_octets {d : Char} (hd : ¬Beyond d) (t : Text) :
    (octets t).head? = some d ↔ t.head? = some d := by
  cases t with
  | nil => rfl
  | cons c rest =>
      rw [octets_cons]
      by_cases hc : Beyond c
      · obtain ⟨e, more, he⟩ := List.exists_cons_of_ne_nil (octetsOf_ne_nil c)
        have hbeyond : Beyond e := beyond_of_mem_octetsOf hc (he ▸ List.mem_cons_self)
        rw [he]
        constructor
        · intro h
          exact absurd (Option.some.inj h ▸ hbeyond) hd
        · intro h
          exact absurd (Option.some.inj h ▸ hc) hd
      · rw [octetsOf_ascii hc]
        rfl

end Text

/-! ## Cutting octets -/

namespace Token

open Text (Beyond octets octetsOf octets_cons)

/-! What is beyond ASCII means nothing to a scanner, one character of it as little as the
octets that it is written in. -/

section Beyond

variable {p : Text} (hp : ∀ c ∈ p, Beyond c)

include hp

theorem not_mem_of_beyond {d : Char} (hd : ¬Beyond d) : d ∉ p := fun hmem => hd (hp d hmem)

theorem all_isBareChar_of_beyond : p.all isBareChar := by
  refine List.all_eq_true.mpr fun c hc => ?_
  have hne : ∀ d : Char, ¬Beyond d → c ≠ d := fun d hd e => hd (e ▸ hp c hc)
  refine isBareChar_iff.mpr ⟨hne ':' (by decide), hne '<' (by decide), hne '>' (by decide), ?_⟩
  rw [Quote.ofChar?, if_neg (hne _ (by decide)), if_neg (hne _ (by decide))]

theorem isUnquoted_of_beyond : ∀ c ∈ p, IsUnquoted c := by
  intro c hc
  refine ⟨fun e => not_mem_of_beyond hp (by decide) (e ▸ hc), fun q e => ?_⟩
  have hq : ¬Beyond q.char := by cases q <;> decide
  exact not_mem_of_beyond hp hq (e ▸ hc)

end Beyond

/-- Behind a `\` one octet is taken along, and the others are read as any text between
quotes. -/
theorem exists_passes_of_beyond (place : Quoting) : ∃ after, ∀ p : Text, p ≠ [] →
    (∀ c ∈ p, Beyond c) → Passes place p after := by
  cases place with
  | outside => exact ⟨.outside, fun p _ hp => Passes.bare (all_isBareChar_of_beyond hp)⟩
  | inside q => exact ⟨.inside q, fun p _ hp => Passes.unquoted (isUnquoted_of_beyond hp) q⟩
  | escaped q =>
      refine ⟨.inside q, fun p hne hp => ?_⟩
      obtain ⟨c, more, rfl⟩ := List.exists_cons_of_ne_nil hne
      have hmore := isUnquoted_of_beyond fun d hd => hp d (List.mem_cons_of_mem c hd)
      exact (Passes.escaped q c).append (Passes.unquoted hmore q)

/-- The end of a tag is found at the same place among the octets. -/
theorem cutTag?_octets (place : Quoting) (t : Text) : cutTag? place (octets t)
    = (cutTag? place t).map fun cut => (octets cut.1, octets cut.2) := by
  induction t generalizing place with
  | nil => rfl
  | cons c rest ih =>
      rw [octets_cons]
      by_cases hc : Beyond c
      · obtain ⟨after, hpasses⟩ := exists_passes_of_beyond place
        have hoctets := hpasses (octetsOf c) (Text.octetsOf_ne_nil c)
          fun d => Text.beyond_of_mem_octetsOf hc
        have hchar := hpasses [c] (List.cons_ne_nil c []) (by simpa using hc)
        rw [hoctets, ih, ← List.singleton_append, hchar, Option.map_map, Option.map_map]
        rfl
      · rw [Text.octetsOf_ascii hc, List.singleton_append, cutTag?, cutTag?, ih]
        by_cases hclose : place = .outside ∧ c = '>'
        · rw [if_pos hclose, if_pos hclose]
          rfl
        · by_cases hopen : place = .outside ∧ c = '<'
          · rw [if_neg hclose, if_pos hopen, if_neg hclose, if_pos hopen]
            rfl
          · rw [if_neg hclose, if_neg hopen, if_neg hclose, if_neg hopen, Option.map_map,
              Option.map_map]
            refine congrArg (Option.map · _) (funext fun cut => ?_)
            show (c :: octets cut.1, octets cut.2) = (octets (c :: cut.1), octets cut.2)
            rw [octets_cons, Text.octetsOf_ascii hc]
            rfl

/-- A stretch of text ends at the same place among the octets. -/
theorem cutText_octets (escaped : Bool) (t : Text) : cutText escaped (octets t)
    = (octets (cutText escaped t).1, octets (cutText escaped t).2) := by
  induction t generalizing escaped with
  | nil => rfl
  | cons c rest ih =>
      have hbeyond : ∀ p : Text, p ≠ [] → (∀ d ∈ p, Beyond d) → ∀ u,
          cutText escaped (p ++ u) = (p ++ (cutText false u).1, (cutText false u).2) := by
        intro p hne hp u
        have hopen := not_mem_of_beyond hp (d := '<') (by decide)
        have hslash := not_mem_of_beyond hp (d := '\\') (by decide)
        exact cutText_append (isStretch_of_no_bracket hopen escaped) hne
          (fun hlast => hslash (List.mem_of_getLast? hlast)) u
      rw [octets_cons]
      by_cases hc : Beyond c
      · rw [hbeyond (octetsOf c) (Text.octetsOf_ne_nil c) fun d => Text.beyond_of_mem_octetsOf hc,
          ih, ← List.singleton_append, hbeyond [c] (List.cons_ne_nil c []) (by simpa using hc)]
        rfl
      · rw [Text.octetsOf_ascii hc, List.singleton_append]
        by_cases hopen : c = '<' ∧ !escaped
        · rw [cutText, if_pos hopen, cutText, if_pos hopen, octets_cons, Text.octetsOf_ascii hc]
          rfl
        · rw [cutText_cons hopen, ih, cutText_cons hopen, octets_cons, Text.octetsOf_ascii hc]
          rfl

/-- The same octets are left out of a stretch of text. -/
theorem unescape_octets (t : Text) : unescape (octets t) = octets (unescape t) := by
  induction t with
  | nil => rfl
  | cons c rest ih =>
      rw [octets_cons]
      by_cases hc : Beyond c
      · have hbeyond : ∀ p : Text, (∀ d ∈ p, Beyond d) → ∀ u,
            unescape (p ++ u) = p ++ unescape u := by
          intro p hp u
          have hslash := not_mem_of_beyond hp (d := '\\') (by decide)
          rw [unescape_append fun hlast => hslash (List.mem_of_getLast? hlast),
            unescape_of_no_slash hslash]
        rw [hbeyond (octetsOf c) fun d => Text.beyond_of_mem_octetsOf hc, ih,
          ← List.singleton_append, hbeyond [c] (by simpa using hc)]
        rfl
      · have hhead := Text.head?_octets (d := '<') (by decide) rest
        rw [Text.octetsOf_ascii hc, List.singleton_append, unescape, unescape, ih]
        by_cases h : c = '\\' ∧ rest.head? = some '<'
        · rw [if_pos h, if_pos ⟨h.1, hhead.mpr h.2⟩]
        · rw [if_neg h, if_neg fun e => h ⟨e.1, hhead.mp e.2⟩, octets_cons,
            Text.octetsOf_ascii hc]
          rfl

/-! ## Reading octets -/

/-- The first token of some octets, and the octets behind it.  Only a piece that was cut out
is read as a text, which cannot be done when it was cut within a character. -/
def firstOctets? (b : Char) (rest : Text) : Option (Token × Text) :=
  if b = '<' then
    match cutTag? .outside rest with
    | none => some (.text ['<'], rest)
    | some (inner, behind) => (Text.ofOctets? inner).map fun content =>
        ((ofContent? content).map fun tok => (tok, behind)).getD (.text ['<'], rest)
  else
    let (run, behind) := cutText false (b :: rest)
    (Text.ofOctets? run).map fun run => (.text run, behind)

/-- The tokens that are read from some octets. -/
inductive ReadFrom : Text → List Token → Prop
  | nil : ReadFrom [] []
  | cons {b : Char} {rest behind : Text} {tok : Token} {toks : List Token} :
      firstOctets? b rest = some (tok, behind) → ReadFrom behind toks →
      ReadFrom (b :: rest) (tok :: toks)

theorem firstOctets?_bracket (rest : Text) : firstOctets? '<' (octets rest)
    = some ((first '<' rest).1, octets (first '<' rest).2) := by
  rw [firstOctets?, if_pos rfl, cutTag?_octets, first, if_pos rfl, tag?]
  cases cutTag? .outside rest with
  | none => rfl
  | some cut =>
      obtain ⟨content, behind⟩ := cut
      show (Text.ofOctets? (octets content)).map _ = _
      rw [Text.ofOctets?_octets]
      cases h : ofContent? content with
      | none => simp [h]
      | some tok => simp [h]

theorem exists_firstOctets? (c : Char) (rest : Text) : ∃ b more, octets (c :: rest) = b :: more
    ∧ firstOctets? b more = some ((first c rest).1, octets (first c rest).2) := by
  by_cases hc : c = '<'
  · have hbracket : octetsOf '<' = ['<'] := Text.octetsOf_ascii (by decide)
    refine ⟨'<', octets rest, ?_, ?_⟩
    · rw [hc, octets_cons, hbracket]
      rfl
    · rw [hc]
      exact firstOctets?_bracket rest
  · obtain ⟨b, more, hb⟩ : ∃ b more, octets (c :: rest) = b :: more := by
      refine List.exists_cons_of_ne_nil ?_
      rw [octets_cons]
      exact List.append_ne_nil_of_left_ne_nil (Text.octetsOf_ne_nil c) _
    have hopen : b ≠ '<' := by
      intro h
      have hhead : (octets (c :: rest)).head? = some '<' := hb ▸ congrArg some h
      exact hc (Option.some.inj ((Text.head?_octets (by decide) _).mp hhead))
    refine ⟨b, more, hb, ?_⟩
    rw [firstOctets?, if_neg hopen, ← hb, cutText_octets, first_text hc]
    show (Text.ofOctets? (octets _)).map _ = _
    rw [Text.ofOctets?_octets]
    rfl

/-- The tokens of a text are read from its octets. -/
theorem readFrom_octets (t : Text) : ReadFrom (octets t) (ofText t) := by
  induction t using ofText.induct with
  | case1 =>
      rw [ofText]
      exact .nil
  | case2 c rest ih =>
      obtain ⟨b, more, hb, hfirst⟩ := exists_firstOctets? c rest
      rw [ofText, hb]
      exact .cons hfirst ih

end Token

end StyledChat
