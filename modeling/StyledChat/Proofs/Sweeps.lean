/-
Rainbows as turns of one sweep.

A phase moves the start of a rainbow by whole characters and the sweep comes round at the end of
the text, so all rainbows over a text of `n` characters are turns of one list of colours, which
is read backwards when the rainbow is reversed (`Fill.colors_forward`, `Fill.colors_reversed`).

The characters of a tree are numbered across its nodes (`Component.numbered`), and a fill on the
root gives its colours by number to those that have no colour and no fill in between
(`Level.look_below_fill`).  Where none of them has, the tree shows the colours of the fill as
they stand in the list, and nothing else of its look is changed
(`Component.listing_withFill`).  In any tree, fills with the same colours show the same
(`Component.spans_withFill_congr`).
-/
import Mathlib.Data.List.Rotate
import StyledChat.Proofs.Spans

namespace StyledChat

/-! ## The colours of a rainbow -/

namespace Fill

/-- The colours a fill gives to the characters of a text, one after the other. -/
def colors (fill : Fill) (length : Nat) : List Color :=
  (List.range length).map fun index => fill.colorAt index length

theorem length_colors (fill : Fill) (n : Nat) : (fill.colors n).length = n := by
  rw [colors, List.length_map, List.length_range]

theorem getElem_colors {fill : Fill} {n i : Nat} (h : i < (fill.colors n).length) :
    (fill.colors n)[i] = fill.colorAt i n := by
  simp [colors]

/-- The colour depends only on how far into the sweep the character stands. -/
theorem rainbowAt_congr {phase phase' : UInt32} {reversed reversed' : Bool} {i i' n : Nat}
    (hn : 1 ≤ n) (h : rainbowStep phase reversed i n = rainbowStep phase' reversed' i' n) :
    (rainbow phase reversed).colorAt i n = (rainbow phase' reversed').colorAt i' n := by
  simp only [colorAt, rainbowAt, Nat.max_eq_left hn, h]

theorem rainbowStep_forward (phase : UInt32) (i n : Nat) :
    rainbowStep phase false i n = (i + phase.toNat) % n := rfl

/-- A reversed rainbow counts from the last character. -/
theorem rainbowStep_reversed (phase : UInt32) {i n : Nat} (h : i < n) :
    rainbowStep phase true i n = rainbowStep phase false (n - 1 - i) n := by
  have hmin : min i (n - 1) = i := Nat.min_eq_left (by omega)
  rw [rainbowStep, if_pos rfl, hmin]
  rfl

/-- The phase turns the plain sweep to the left. -/
theorem colors_forward (n : Nat) (phase : UInt32) :
    (rainbow phase false).colors n
      = ((rainbow 0 false).colors n).rotate (phase.toNat % n) := by
  refine List.ext_getElem ?_ fun i hi _ => ?_
  · rw [List.length_rotate, length_colors, length_colors]
  · rw [List.getElem_rotate, getElem_colors, getElem_colors, length_colors]
    rw [length_colors] at hi
    refine rainbowAt_congr (by omega) ?_
    -- the plain sweep has no phase of its own
    have hzero : (0 : UInt32).toNat = 0 := rfl
    rw [rainbowStep_forward, rainbowStep_forward, hzero, Nat.add_zero, Nat.mod_mod,
      Nat.add_mod_mod]

theorem colors_reversed (n : Nat) (phase : UInt32) :
    (rainbow phase true).colors n = ((rainbow phase false).colors n).reverse := by
  refine List.ext_getElem ?_ fun i hi _ => ?_
  · rw [List.length_reverse, length_colors, length_colors]
  · rw [List.getElem_reverse, getElem_colors, getElem_colors, length_colors]
    rw [length_colors] at hi
    exact rainbowAt_congr (by omega) (rainbowStep_reversed phase hi)

/-- A whole turn more or less makes no difference. -/
theorem colors_congr {n : Nat} {phase phase' : UInt32}
    (h : phase.toNat % n = phase'.toNat % n) (reversed : Bool) :
    (rainbow phase reversed).colors n = (rainbow phase' reversed).colors n := by
  have hforward : (rainbow phase false).colors n = (rainbow phase' false).colors n := by
    rw [colors_forward n phase, colors_forward n phase', h]
  cases reversed with
  | false => exact hforward
  | true => rw [colors_reversed, colors_reversed, hforward]

end Fill

/-! ## The look below a filled root -/

namespace Level

theorem place_append (path outer : List Level) :
    place (path ++ outer) = (place path).or (place outer) := by
  induction path with
  | nil => rfl
  | cons l rest ih => rw [List.cons_append, place, place, ih, Option.or_assoc]

theorem resolved_append {outer outer' : List Level} (h : resolved outer = resolved outer')
    (path : List Level) : resolved (path ++ outer) = resolved (path ++ outer') := by
  induction path with
  | nil => exact h
  | cons l rest ih => rw [List.cons_append, List.cons_append, resolved, resolved, ih]

/-- There is no colour from above for the fill of a root to cut off. -/
theorem resolved_root (style : Style) (fill : Option Fill) (n i : Nat) :
    resolved [⟨{ style with fill }, n, i⟩] = resolved [⟨style, n, i⟩] := by
  have hcolor : ∀ on : Bool,
      (if on then style.color else style.color.or Style.empty.color) = style.color := by
    intro on
    cases on with
    | true => rfl
    | false => exact Option.or_none
  simp only [resolved, Style.resolve_eq, hcolor]
  rfl

theorem color_resolved_of_none {path : List Level} (h : ∀ l ∈ path, l.style.color = none) :
    (resolved path).color = none := by
  induction path with
  | nil => rfl
  | cons l rest ih =>
      have hl := h l List.mem_cons_self
      have hrest := ih fun k hk => h k (List.mem_cons_of_mem l hk)
      rw [resolved, Style.resolve_eq]
      simp only [hl, hrest, Option.or_none, ite_self]

theorem place_of_none {path : List Level} (h : ∀ l ∈ path, l.style.fill = none) :
    place path = none := by
  induction path with
  | nil => rfl
  | cons l rest ih =>
      rw [place, h l List.mem_cons_self, ih fun k hk => h k (List.mem_cons_of_mem l hk)]
      rfl

/-- The look of a character below a filled root: the fill gives the colour if the nodes between
give none and have no fill. -/
theorem look_below_fill (path : List Level) (style : Style) (fill : Fill) (n i : Nat) :
    look (path ++ [⟨{ style with fill := some fill }, n, i⟩])
      = (resolved (path ++ [⟨style, n, i⟩])).paintedBy
          ((place path).or (some ⟨fill, n, i⟩)) := by
  rw [look_eq, resolved_append (resolved_root style (some fill) n i), place_append]
  rfl

theorem look_below_fill_congr (path : List Level) (style : Style) {fill fill' : Fill} {n i : Nat}
    (h : fill.colorAt i n = fill'.colorAt i n) :
    look (path ++ [⟨{ style with fill := some fill }, n, i⟩])
      = look (path ++ [⟨{ style with fill := some fill' }, n, i⟩]) := by
  rw [look_below_fill, look_below_fill]
  cases place path with
  | some p => rfl
  | none =>
      show Style.paintedBy _ (some ⟨fill, n, i⟩) = Style.paintedBy _ (some ⟨fill', n, i⟩)
      simp only [Style.paintedBy, Option.map_some, FillPlace.color, h]

theorem look_below_fill_of_none {path : List Level} {style : Style}
    (hpath : ∀ l ∈ path, l.style.color = none ∧ l.style.fill = none)
    (hstyle : style.color = none) (fill : Fill) (n i : Nat) :
    look (path ++ [⟨{ style with fill := some fill }, n, i⟩])
      = { look (path ++ [⟨style, n, i⟩]) with color := some (fill.colorAt i n) } := by
  have hcolor : (resolved (path ++ [⟨style, n, i⟩])).color = none := by
    refine color_resolved_of_none fun l hl => ?_
    rcases List.mem_append.mp hl with hl | hl
    · exact (hpath l hl).1
    · rw [List.mem_singleton.mp hl]
      exact hstyle
  rw [look_below_fill, place_of_none fun l hl => (hpath l hl).2, look_eq]
  simp only [Style.paintedBy, hcolor, Option.none_or, Option.map_some]
  rfl

end Level

/-! ## Trees with a fill on the root -/

namespace Component

/-- The tree with a fill on its root, in the place of the one it may have there. -/
def withFill (fill : Fill) (c : Component) : Component :=
  c.withStyle { c.style with fill := some fill }

/-- The characters of a tree, each with the nodes above it but for the root. -/
def numbered (c : Component) : List (Char × List Level) :=
  c.text.map (fun ch => (ch, [])) ++ charactersOfAll c.children

theorem length_numbered (c : Component) : c.numbered.length = c.charCount := by
  obtain ⟨text, style, children⟩ := c
  rw [numbered, List.length_append, List.length_map, length_charactersOfAll, charCount]

theorem charCount_withFill (fill : Fill) (c : Component) :
    (c.withFill fill).charCount = c.charCount := by
  rw [← length_numbered, ← length_numbered]
  rfl

theorem plainText_withFill (fill : Fill) (c : Component) :
    (c.withFill fill).plainText = c.plainText := by
  obtain ⟨text, style, children⟩ := c
  rfl

/-- A tree shows its characters by number, each below the root. -/
theorem listing_eq_numbered (c : Component) : Span.listing c.spans
    = c.numbered.mapIdx fun i a => (a.1, Level.look (a.2 ++ [⟨c.style, c.charCount, i⟩])) := by
  obtain ⟨text, style, children⟩ := c
  rw [listing_spans, lookedAt, ← Level.lookBelow_nil, Level.lookBelow_characters]
  simp only [Level.lookBelow, Level.shift_cons, Level.shift_nil, Nat.zero_add]
  rfl

theorem listing_withFill_eq_numbered (fill : Fill) (c : Component) :
    Span.listing (c.withFill fill).spans = c.numbered.mapIdx fun i a =>
      (a.1, Level.look (a.2 ++ [⟨{ c.style with fill := some fill }, c.charCount, i⟩])) := by
  rw [listing_eq_numbered, charCount_withFill]
  rfl

/-- What a tree shows is told by its characters. -/
theorem spans_eq_of_listing {c d : Component} (h : Span.listing c.spans = Span.listing d.spans) :
    c.spans = d.spans := by
  rw [c.spans_eq_group, d.spans_eq_group, ← c.listing_spans, ← d.listing_spans, h]

/-- Only the colours of a fill on the root are shown. -/
theorem spans_withFill_congr (c : Component) {fill fill' : Fill}
    (h : fill.colors c.charCount = fill'.colors c.charCount) :
    (c.withFill fill).spans = (c.withFill fill').spans := by
  refine spans_eq_of_listing ?_
  rw [listing_withFill_eq_numbered, listing_withFill_eq_numbered]
  refine List.ext_getElem (by rw [List.length_mapIdx, List.length_mapIdx]) fun i hi _ => ?_
  rw [List.length_mapIdx, length_numbered, ← fill.length_colors c.charCount] at hi
  have hcolor : fill.colorAt i c.charCount = fill'.colorAt i c.charCount := by
    rw [← Fill.getElem_colors hi, ← Fill.getElem_colors (h ▸ hi)]
    simp only [h]
  rw [List.getElem_mapIdx, List.getElem_mapIdx, Level.look_below_fill_congr _ _ hcolor]

/-- No text of the tree stands below a colour or a fill, but for a fill on the root. -/
structure Uncolored (c : Component) : Prop where
  root : c.style.color = none
  inside : ∀ a ∈ charactersOfAll c.children, ∀ l ∈ a.2,
    l.style.color = none ∧ l.style.fill = none

theorem Uncolored.of_mem_numbered {c : Component} (h : c.Uncolored) {a : Char × List Level}
    (ha : a ∈ c.numbered) : ∀ l ∈ a.2, l.style.color = none ∧ l.style.fill = none := by
  rcases List.mem_append.mp ha with ha | ha
  · obtain ⟨ch, -, rfl⟩ := List.mem_map.mp ha
    exact fun l hl => absurd hl List.not_mem_nil
  · exact h.inside a ha

/-- A fill on the root colours the characters in order, and changes nothing else. -/
theorem listing_withFill {c : Component} (h : c.Uncolored) (fill : Fill) :
    Span.listing (c.withFill fill).spans
      = List.zipWith (fun a color => (a.1, { a.2 with color := some color }))
          (Span.listing c.spans) (fill.colors c.charCount) := by
  rw [listing_withFill_eq_numbered, listing_eq_numbered]
  refine List.ext_getElem ?_ fun i hi _ => ?_
  · simp only [List.length_mapIdx, List.length_zipWith, length_numbered, Fill.length_colors,
      Nat.min_self]
  · rw [List.getElem_mapIdx, List.getElem_zipWith, List.getElem_mapIdx, Fill.getElem_colors]
    have hmem := List.getElem_mem (l := c.numbered) (n := i) (by rwa [List.length_mapIdx] at hi)
    rw [Level.look_below_fill_of_none (h.of_mem_numbered hmem) h.root]

/-- A rainbow gives the colours of the plain sweep, turned to the left by its phase, and a
reversed one these read backwards.

On the root of a tree whose text has no other colour, the rainbow colours the characters by just
that list and leaves all else of their look as it was.  In any tree, phases that are equal up to
whole turns show the same. -/
theorem rainbow_turns_sweep :
    (∀ (n : Nat) (phase : UInt32),
      (Fill.rainbow phase false).colors n
          = ((Fill.rainbow 0 false).colors n).rotate (phase.toNat % n)
        ∧ (Fill.rainbow phase true).colors n = ((Fill.rainbow phase false).colors n).reverse)
      ∧ (∀ c : Component, c.Uncolored → ∀ (phase : UInt32) (reversed : Bool),
        let turned :=
          ((Fill.rainbow 0 false).colors c.charCount).rotate (phase.toNat % c.charCount)
        let shown := Span.listing (c.withFill (.rainbow phase reversed)).spans
        shown = List.zipWith (fun a color => (a.1, { a.2 with color := some color }))
            (Span.listing c.spans) (if reversed then turned.reverse else turned)
          ∧ shown.map Prod.fst = c.plainText)
      ∧ ∀ (c : Component) (phase phase' : UInt32) (reversed : Bool),
        phase.toNat % c.charCount = phase'.toNat % c.charCount →
        (c.withFill (.rainbow phase reversed)).spans
          = (c.withFill (.rainbow phase' reversed)).spans := by
  refine ⟨fun n phase => ⟨Fill.colors_forward n phase, Fill.colors_reversed n phase⟩,
    fun c h phase reversed => ?_,
    fun c phase phase' reversed h => c.spans_withFill_congr (Fill.colors_congr h reversed)⟩
  intro turned shown
  have hcolors : (Fill.rainbow phase reversed).colors c.charCount
      = if reversed then turned.reverse else turned := by
    cases reversed with
    | false => exact Fill.colors_forward _ phase
    | true =>
        rw [Fill.colors_reversed, Fill.colors_forward]
        rfl
  refine ⟨?_, ?_⟩
  · rw [← hcolors]
    exact listing_withFill h _
  · rw [map_fst_listing_spans, plainText_withFill]

/-- Text of four characters in three nodes, and a phase of more than a turn. -/
theorem rainbow_turns_sweep_of_sample :
    let c : Component := ⟨"ab".toList, { decorations := { bold := some true } },
      [⟨"c".toList, { decorations := { italic := some true } }, []⟩, .leaf "d".toList]⟩
    let plain := (Fill.rainbow 0 false).colors 4
    c.Uncolored ∧ c.charCount = 4
      ∧ Span.listing (c.withFill (.rainbow 9 true)).spans
        = List.zipWith (fun a color => (a.1, { a.2 with color := some color }))
            (Span.listing c.spans) (plain.rotate 1).reverse
      ∧ (c.withFill (.rainbow 9 true)).spans = (c.withFill (.rainbow 1 true)).spans := by
  intro c plain
  have huncolored : c.Uncolored := ⟨rfl, by decide +kernel⟩
  have hlength : c.charCount = 4 := by decide +kernel
  have hturn : (9 : UInt32).toNat % c.charCount = (1 : UInt32).toNat % c.charCount := by
    rw [hlength]
    decide
  have hshown := (rainbow_turns_sweep.2.1 c huncolored 9 true).1
  rw [hlength] at hshown
  exact ⟨huncolored, hlength, hshown, rainbow_turns_sweep.2.2 c 9 1 true hturn⟩

end Component

end StyledChat
