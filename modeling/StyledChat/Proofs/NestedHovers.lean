/-
How deep hover texts can be nested.

Hover markup is read like any other text, and may hold hover tags of its own.  It is no piece
of the text around it: quotes and escapes have been taken out.  But what is left of the content
of a tag, its name and its arguments with a colon before each, never has more octets than the
content had (`Token.octetCount_parts_le`), wherever the two scanners found its quotes.  With
`<hover:show_text:` in front of it and a `>` behind, the markup is 18 octets shorter than the
text it was found in (`Tag.octetCount_markup_le`).

Both bounds are inductions on that: readings are nested at most as deep as 18 goes into the
number of octets (`parseWithin?_eq`), and so are the hover trees (`hoverDepth_parse_le`).
-/
import Mathlib.Algebra.Ring.Nat
import Mathlib.Data.List.Flatten
import StyledChat.Proofs.NodeStyles
import StyledChat.Proofs.Octets

namespace StyledChat

/-! ## Counting octets -/

namespace Text

/-- The length of a text in octets. -/
def octetCount (t : Text) : Nat := (octets t).length

theorem octetCount_append (t u : Text) : octetCount (t ++ u) = octetCount t + octetCount u := by
  simp only [octetCount, octets, List.flatMap_append, List.length_append]

theorem octetCount_ascii {c : Char} (h : ¬Beyond c) : octetCount [c] = 1 := by
  simp only [octetCount, octets, List.flatMap_singleton, octetsOf_ascii h, List.length_singleton]

theorem octetCount_le_of_sublist {t u : Text} (h : t.Sublist u) : octetCount t ≤ octetCount u :=
  (h.flatMap octetsOf).length_le

/-- An ASCII character stays one in lower case, and others stay as they are. -/
theorem octetCount_lower (t : Text) : octetCount (lower t) = octetCount t := by
  have hchar : ∀ c : Char, (octetsOf c.toLower).length = (octetsOf c).length := by
    intro c
    by_cases hc : Beyond c
    · have hkept : c.toLower = c := by
        refine dif_neg fun h => ?_
        have hhigh : c.toNat ≤ 90 := UInt32.le_iff_toNat_le.mp h.2
        exact absurd (Nat.le_trans hc hhigh) (by decide)
      rw [hkept]
    · have hall : ∀ n < 128, ¬Beyond (Char.ofNat n).toLower := by decide
      have hlower := hall c.toNat (Nat.not_le.mp hc)
      rw [Char.ofNat_toNat] at hlower
      rw [octetsOf_ascii hc, octetsOf_ascii hlower]
      rfl
  simp only [octetCount, octets, lower, List.flatMap_map, List.length_flatMap, hchar]

/-- Joined by colons, texts take one octet more for each but the first. -/
theorem octetCount_join (t : Text) (more : List Text) :
    octetCount (join [':'] (t :: more))
      = octetCount t + (more.map fun u => 1 + octetCount u).sum := by
  induction more generalizing t with
  | nil => rfl
  | cons u rest ih =>
      have hjoin : join [':'] (t :: u :: rest) = t ++ [':'] ++ join [':'] (u :: rest) := rfl
      rw [hjoin, octetCount_append, octetCount_append, ih u, octetCount_ascii (by decide),
        List.map_cons, List.sum_cons]
      omega

end Text

open Text (octetCount)

/-! ## The parts of a tag -/

/-- A name and its arguments, a colon before each, have no more octets than the content of
their tag. -/
theorem Token.octetCount_parts_le {t : Text} {tok : Token} {tag : Tagged} (h : tok ∈ ofText t)
    (htag : tok.tagged? = some tag) :
    octetCount tag.name + (tag.args.map fun arg => 1 + octetCount arg).sum + 2
      ≤ octetCount tag.raw := by
  obtain ⟨content, written, args, hsplit, rfl⟩ := exists_taggedOf h htag
  have hjoin := sublist_join_splitAtColons (lead content).2.2 .outside true
  rw [hsplit] at hjoin
  have hparts : octetCount (Text.join [':'] (written :: args)) ≤ octetCount content :=
    Text.octetCount_le_of_sublist (hjoin.trans (lead_suffix content).sublist)
  have hraw : octetCount (taggedOf content written args).raw = 1 + (octetCount content + 1) := by
    show octetCount (['<'] ++ (content ++ ['>'])) = _
    rw [Text.octetCount_append, Text.octetCount_append, Text.octetCount_ascii (by decide),
      Text.octetCount_ascii (by decide)]
  have hname : octetCount (taggedOf content written args).name = octetCount written :=
    Text.octetCount_lower written
  rw [Text.octetCount_join] at hparts
  rw [hraw, hname]
  show octetCount written + (args.map fun arg => 1 + octetCount arg).sum + 2 ≤ _
  omega

namespace Tag

/-- A hover tag has this name, and the markup behind an action of nine letters. -/
theorem parts_of_hover {tag : Tagged} {markup : Text} (h : resolve? tag = some (.hover markup)) :
    tag.name = "hover".toList
      ∧ ∃ action, tag.args = [action, markup] ∧ Text.sameLetters action "show_text".toList := by
  obtain ⟨n, hname, hmeans⟩ := exists_means_of_resolve? h
  cases hmeans with
  | hover hargs haction =>
      refine ⟨?_, _, hargs, haction⟩
      rcases TagName.cases_of_ofText? hname with ⟨d, he, -⟩ | ⟨he, -⟩ | hmem
      · cases he
      · cases he
      · have hall : ∀ entry ∈ TagName.table, entry.2 = .hover → entry.1 = "hover".toList := by
          decide
        exact hall _ hmem rfl

/-- Hover markup is shorter than the text it stands in, by `<hover:show_text:` and `>`. -/
theorem octetCount_markup_le {t : Text} {tag : Tagged} {markup : Text}
    (htag : .opening tag ∈ Token.ofText t) (h : resolve? tag = some (.hover markup)) :
    octetCount markup + 18 ≤ octetCount t := by
  have hparts := Token.octetCount_parts_le htag rfl
  have hraw : octetCount tag.raw ≤ octetCount t :=
    Text.octetCount_le_of_sublist (Token.sublist_raw htag)
  obtain ⟨hname, action, hargs, haction⟩ := parts_of_hover h
  have haction : octetCount action = 9 := by
    rw [← Text.octetCount_lower, beq_iff_eq.mp haction]
    decide +kernel
  have hhover : octetCount tag.name = 5 := by
    rw [hname]
    decide +kernel
  simp only [hargs, List.map_cons, List.map_nil, List.sum_cons, List.sum_nil] at hparts
  omega

end Tag

/-! ## Nested readings -/

namespace Token

/-- The markup that is read along with a token: that of a hover tag in the vocabulary. -/
def hoverMarkup? (v : Vocabulary) : Token → Option Text
  | text _ => none
  | closing _ => none
  | opening tag =>
    match Draft.allowedTag? v tag with
    | some (.hover markup) => some markup
    | _ => none

theorem hoverMarkup?_eq_some_iff {v : Vocabulary} {tok : Token} {markup : Text} :
    tok.hoverMarkup? v = some markup
      ↔ ∃ tag, tok = .opening tag ∧ Draft.allowedTag? v tag = some (.hover markup) := by
  constructor
  · intro h
    cases tok with
    | text | closing => cases h
    | opening tag =>
        refine ⟨tag, rfl, ?_⟩
        simp only [hoverMarkup?] at h
        split at h
        · next hmeaning =>
            obtain rfl := Option.some.inj h
            exact hmeaning
        · cases h
  · rintro ⟨tag, rfl, hmeaning⟩
    simp only [hoverMarkup?, hmeaning]

end Token

/-- The texts that are read along with a text. -/
def hoverMarkups (v : Vocabulary) (t : Text) : List Text :=
  (Token.ofText t).filterMap (Token.hoverMarkup? v)

theorem mem_hoverMarkups_iff {v : Vocabulary} {t markup : Text} : markup ∈ hoverMarkups v t
    ↔ ∃ tag, .opening tag ∈ Token.ofText t
      ∧ Draft.allowedTag? v tag = some (.hover markup) := by
  simp only [hoverMarkups, List.mem_filterMap, Token.hoverMarkup?_eq_some_iff]
  constructor
  · rintro ⟨_, hmem, tag, rfl, hmeaning⟩
    exact ⟨tag, hmem, hmeaning⟩
  · rintro ⟨tag, hmem, hmeaning⟩
    exact ⟨_, hmem, tag, rfl, hmeaning⟩

theorem octetCount_le_of_mem_hoverMarkups {v : Vocabulary} {t markup : Text}
    (h : markup ∈ hoverMarkups v t) : octetCount markup + 18 ≤ octetCount t := by
  obtain ⟨tag, htag, hmeaning⟩ := mem_hoverMarkups_iff.mp h
  exact Tag.octetCount_markup_le htag (Draft.allowedTag?_eq_some_iff.mp hmeaning).1

/-- Reads a text with no bound on the length of hover markup, but with at most `depth` readings
inside one another; `none` when that many do not come to an end. -/
def parseWithin? (v : Vocabulary) : Nat → Text → Option Component
  | 0, _ => none
  | depth + 1, t =>
    if (hoverMarkups v t).all fun markup => (parseWithin? v depth markup).isSome then
      some (parseWith v (fun markup => (parseWithin? v depth markup).getD Component.empty) t)
    else none

/-- Reading comes to an end, with readings nested no deeper than 18 goes into the number of
octets. -/
theorem parseWithin?_eq (v : Vocabulary) {depth : Nat} {t : Text}
    (h : octetCount t < 18 * depth) : parseWithin? v depth t = some (parse v t) := by
  induction depth generalizing t with
  | zero => exact absurd h (Nat.not_lt_zero _)
  | succ depth ih =>
      have hinner : ∀ markup ∈ hoverMarkups v t,
          parseWithin? v depth markup = some (parse v markup) := by
        intro markup hmarkup
        have hshort := octetCount_le_of_mem_hoverMarkups hmarkup
        exact ih (by omega)
      have hall : (hoverMarkups v t).all fun markup => (parseWithin? v depth markup).isSome := by
        refine List.all_eq_true.mpr fun markup hmarkup => ?_
        rw [hinner markup hmarkup]
        rfl
      rw [parseWithin?, if_pos hall, parse_eq]
      refine congrArg some (parseWith_congr fun tag markup htag hmeaning => ?_)
      rw [hinner markup (mem_hoverMarkups_iff.mpr ⟨tag, htag, hmeaning⟩)]
      rfl

/-! ## Nested hover trees -/

mutual

/-- How many hover trees are nested in one another at most. -/
def Component.hoverDepth : Component → Nat
  | ⟨_, ⟨_, _, _, _, hover, _, _⟩, children⟩ => max (depthOfHover hover) (hoverDepthOfAll children)

def depthOfHover : Option Component → Nat
  | none => 0
  | some c => c.hoverDepth + 1

def hoverDepthOfAll : List Component → Nat
  | [] => 0
  | c :: rest => max c.hoverDepth (hoverDepthOfAll rest)

end

mutual

/-- Hover trees are nested as deep as those of the nodes are. -/
theorem Component.hoverDepth_le_iff {n : Nat} : ∀ c : Component,
    c.hoverDepth ≤ n ↔ ∀ s ∈ c.styles, depthOfHover s.hover ≤ n
  | ⟨_, ⟨_, _, _, _, hover, _, _⟩, children⟩ => by
      rw [Component.hoverDepth, Component.styles, List.forall_mem_cons, Nat.max_le,
        hoverDepthOfAll_le_iff children]

theorem hoverDepthOfAll_le_iff {n : Nat} : ∀ cs : List Component,
    hoverDepthOfAll cs ≤ n ↔ ∀ s ∈ stylesOfAll cs, depthOfHover s.hover ≤ n
  | [] => by simp [hoverDepthOfAll, stylesOfAll]
  | c :: rest => by
      rw [hoverDepthOfAll, stylesOfAll, List.forall_mem_append, Nat.max_le,
        c.hoverDepth_le_iff, hoverDepthOfAll_le_iff rest]

end

/-- Of all tags, those with hover markup set a hover tree. -/
theorem Tag.hover_style (read : Text → Component) (meaning : Tag) :
    (∃ markup, meaning = .hover markup ∧ (meaning.style read).hover = some (read markup))
      ∨ (meaning.style read).hover = none := by
  cases meaning with
  | hover markup => exact Or.inl ⟨markup, rfl, rfl⟩
  | decoration d on => exact Or.inr rfl
  | color | fill | reset | click | insertion | font | newline => exact Or.inr rfl

theorem hoverDepth_parse_le (v : Vocabulary) {n : Nat} {t : Text}
    (h : octetCount t < 18 * (n + 1)) : (parse v t).hoverDepth ≤ n := by
  induction n using Nat.strongRecOn generalizing t with
  | ind n ih =>
      refine (Component.hoverDepth_le_iff _).mpr fun s hs => ?_
      rw [parse_eq] at hs
      rcases mem_styles_parseWith hs with rfl | ⟨_, htok, tag, meaning, rfl, hmeaning, rfl⟩
      · exact Nat.zero_le n
      · rcases meaning.hover_style (parse v) with ⟨markup, rfl, hhover⟩ | hnone
        · have hshort := octetCount_le_of_mem_hoverMarkups
            (mem_hoverMarkups_iff.mpr ⟨tag, htok, hmeaning⟩)
          have hinner : (parse v markup).hoverDepth ≤ n - 1 := ih (n - 1) (by omega) (by omega)
          rw [hhover, depthOfHover]
          omega
        · rw [hnone]
          exact Nat.zero_le n

/-- The name and the arguments of a tag, a colon before each, fit between its brackets.  So hover
markup is at least 18 octets shorter than the text it was found in, reading comes to an end with
at most one reading inside the first for each 18 octets, and the hover trees of a tree that was
read are nested no deeper than that. -/
theorem hovers_nest_within_octets (v : Vocabulary) (t : Text) :
    (∀ tok ∈ Token.ofText t, ∀ tag, tok.tagged? = some tag →
        octetCount tag.name + (tag.args.map fun arg => 1 + octetCount arg).sum + 2
          ≤ octetCount tag.raw)
      ∧ (∀ tag markup, .opening tag ∈ Token.ofText t → Tag.resolve? tag = some (.hover markup) →
        octetCount markup + 18 ≤ octetCount t)
      ∧ (∀ depth, octetCount t / 18 < depth → parseWithin? v depth t = some (parse v t))
      ∧ (parse v t).hoverDepth ≤ octetCount t / 18 := by
  refine ⟨fun tok htok tag htag => Token.octetCount_parts_le htok htag,
    fun tag markup htag hhover => Tag.octetCount_markup_le htag hhover,
    fun depth hdepth => parseWithin?_eq v (by omega), hoverDepth_parse_le v (by omega)⟩

/-- Two hover texts in 42 octets, one inside the other: there is room for no third. -/
theorem hovers_nest_within_octets_of_nested :
    let t := "<hover:show_text:'<hover:show_text:é>x'>y".toList
    let markup := "<hover:show_text:é>x".toList
    let tag : Tagged := ⟨t.dropLast, "hover".toList, ["show_text".toList, markup], false⟩
    (.opening tag ∈ Token.ofText t ∧ Tag.resolve? tag = some (.hover markup))
      ∧ octetCount tag.name + (tag.args.map fun arg => 1 + octetCount arg).sum + 2
        ≤ octetCount tag.raw
      ∧ octetCount markup + 18 ≤ octetCount t
      ∧ parseWithin? .trusted 2 t = none
      ∧ parseWithin? .trusted 3 t = some (parse .trusted t)
      ∧ (parse .trusted t).hoverDepth ≤ octetCount t / 18
      ∧ (parse .trusted t).hoverDepth = 2 := by
  intro t markup tag
  have htag : .opening tag ∈ Token.ofText t := by decide +kernel
  have hhover : Tag.resolve? tag = some (.hover markup) := by decide +kernel
  obtain ⟨hparts, hmarkup, hread, hdepth⟩ := hovers_nest_within_octets .trusted t
  refine ⟨⟨htag, hhover⟩, hparts _ htag tag rfl, hmarkup tag markup htag hhover, ?_,
    hread 3 (by decide +kernel), hdepth, by decide +kernel⟩
  decide +kernel

end StyledChat
