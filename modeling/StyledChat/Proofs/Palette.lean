/-
The colours a terminal can show, and the one it is told to show.

Beyond the sixteen that every terminal sets for itself, the palette has a cube of six levels
a channel and a ramp of 24 grays (`Palette.entry`).  A closest entry for a colour can be told
channel by channel in the cube and shade by shade among the grays (`Palette.cube_iff`,
`Palette.gray_iff`), so both questions come down to a finite table.

A colour is told to the terminal by scaling its channels down, and a gray by scaling its
shade, each rounded toward zero.  That is a closest entry for some colours and not for others;
which ones is said exactly (`Ansi.index_closest_iff`), and `Ansi.exact_gray_missed` is a gray
of the ramp that is shown as another one.
-/
import StyledChat.Markup.Parse
import StyledChat.Proofs.Terminal

namespace StyledChat

namespace Palette

/-! ## The palette -/

/-- The levels of a channel in the cube. -/
def level (i : Nat) : Nat := if i = 0 then 0 else 55 + 40 * i

/-- The shades of the ramp. -/
def shade (k : Nat) : Nat := 8 + 10 * k

/-- The channels of the palette entry of an index from 16 to 255. -/
def entry (n : Nat) : Nat × Nat × Nat :=
  if n < 232 then
    (level ((n - 16) / 36), level ((n - 16) / 6 % 6), level ((n - 16) % 6))
  else (shade (n - 232), shade (n - 232), shade (n - 232))

/-- How far two values of a channel are apart. -/
def off (a b : Nat) : Nat := (a - b) + (b - a)

/-- The square of how far two values of a channel are apart. -/
def gap (a b : Nat) : Nat := off a b * off a b

/-- The square of the distance between a colour and a palette entry. -/
def distance (c : Rgb) (e : Nat × Nat × Nat) : Nat :=
  gap c.r.toNat e.1 + gap c.g.toNat e.2.1 + gap c.b.toNat e.2.2

/-- No entry of the cube or the ramp is closer to the colour than that of `n`. -/
def IsClosest (c : Rgb) (n : Nat) : Prop :=
  ∀ m, 16 ≤ m → m ≤ 255 → distance c (entry n) ≤ distance c (entry m)

theorem entry_cube {i j k : Nat} (hi : i < 6) (hj : j < 6) (hk : k < 6) :
    entry (16 + 36 * i + 6 * j + k) = (level i, level j, level k) := by
  have hindex : 16 + 36 * i + 6 * j + k < 232 := by omega
  have hr : (16 + 36 * i + 6 * j + k - 16) / 36 = i := by omega
  have hg : (16 + 36 * i + 6 * j + k - 16) / 6 % 6 = j := by omega
  have hb : (16 + 36 * i + 6 * j + k - 16) % 6 = k := by omega
  simp only [entry, if_pos hindex, hr, hg, hb]

theorem entry_ramp (k : Nat) : entry (232 + k) = (shade k, shade k, shade k) := by
  have hindex : ¬232 + k < 232 := by omega
  have hk : 232 + k - 232 = k := by omega
  simp only [entry, if_neg hindex, hk]

/-- An index is one of the cube or one of the ramp. -/
theorem index_cases {m : Nat} (h : 16 ≤ m) (h' : m ≤ 255) :
    (∃ i j k, i < 6 ∧ j < 6 ∧ k < 6 ∧ m = 16 + 36 * i + 6 * j + k)
      ∨ ∃ k, k < 24 ∧ m = 232 + k := by
  by_cases hm : m < 232
  · exact Or.inl ⟨(m - 16) / 36, (m - 16) / 6 % 6, (m - 16) % 6, by omega, by omega, by omega,
      by omega⟩
  · exact Or.inr ⟨m - 232, by omega, by omega⟩

/-! ## Closest entries -/

/-- An entry is closest when neither the cube nor the ramp has a closer one. -/
theorem isClosest_iff {c : Rgb} {n : Nat} : IsClosest c n ↔
    (∀ i < 6, ∀ j < 6, ∀ k < 6, distance c (entry n) ≤ distance c (level i, level j, level k))
      ∧ ∀ k < 24, distance c (entry n) ≤ distance c (shade k, shade k, shade k) := by
  constructor
  · intro h
    refine ⟨fun i hi j hj k hk => ?_, fun k hk => ?_⟩
    · have hcube := h (16 + 36 * i + 6 * j + k) (by omega) (by omega)
      rwa [entry_cube hi hj hk] at hcube
    · have hramp := h (232 + k) (by omega) (by omega)
      rwa [entry_ramp] at hramp
  · rintro ⟨hcube, hramp⟩ m hm hm'
    rcases index_cases hm hm' with ⟨i, j, k, hi, hj, hk, rfl⟩ | ⟨k, hk, rfl⟩
    · rw [entry_cube hi hj hk]
      exact hcube i hi j hj k hk
    · rw [entry_ramp]
      exact hramp k hk

/-- No level is nearer to a value of a channel. -/
def NearestLevel (v l : Nat) : Prop := ∀ i < 6, gap v l ≤ gap v (level i)

/-- No shade of the ramp is nearer to a gray. -/
def NearestShade (v l : Nat) : Prop := ∀ k < 24, gap v l ≤ gap v (shade k)

instance (v l : Nat) : Decidable (NearestLevel v l) :=
  inferInstanceAs (Decidable (∀ i < 6, gap v l ≤ gap v (level i)))

instance (v l : Nat) : Decidable (NearestShade v l) :=
  inferInstanceAs (Decidable (∀ k < 24, gap v l ≤ gap v (shade k)))

/-- In the cube, every channel is on its own. -/
theorem cube_iff {c : Rgb} {i j k : Nat} (hi : i < 6) (hj : j < 6) (hk : k < 6) :
    (∀ i' < 6, ∀ j' < 6, ∀ k' < 6, distance c (level i, level j, level k)
        ≤ distance c (level i', level j', level k'))
      ↔ NearestLevel c.r.toNat (level i) ∧ NearestLevel c.g.toNat (level j)
        ∧ NearestLevel c.b.toNat (level k) := by
  simp only [distance]
  constructor
  · intro h
    refine ⟨fun x hx => ?_, fun x hx => ?_, fun x hx => ?_⟩
    · have := h x hx j hj k hk
      omega
    · have := h i hi x hx k hk
      omega
    · have := h i hi j hj x hx
      omega
  · rintro ⟨hr, hg, hb⟩ x hx y hy z hz
    have hrx := hr x hx
    have hgy := hg y hy
    have hbz := hb z hz
    omega

/-- For a gray, an entry that is a gray too is closest when its shade is. -/
theorem gray_iff {c : Rgb} {n v l : Nat} (hr : c.r.toNat = v) (hg : c.g.toNat = v)
    (hb : c.b.toNat = v) (hentry : entry n = (l, l, l)) :
    IsClosest c n ↔ NearestLevel v l ∧ NearestShade v l := by
  simp only [isClosest_iff, distance, hr, hg, hb, hentry]
  constructor
  · rintro ⟨hcube, hramp⟩
    refine ⟨fun i hi => ?_, fun k hk => ?_⟩
    · have := hcube i hi i hi i hi
      omega
    · have := hramp k hk
      omega
  · rintro ⟨hlevel, hshade⟩
    refine ⟨fun i hi j hj k hk => ?_, fun k hk => ?_⟩
    · have hli := hlevel i hi
      have hlj := hlevel j hj
      have hlk := hlevel k hk
      omega
    · have hsk := hshade k hk
      omega

/-! ## The entry that is chosen -/

/-- The level that a value of a channel is scaled to. -/
def scaled (v : Nat) : Nat := v * 5 / 255

/-- The shade that a gray is shown with. -/
def shownShade (v : Nat) : Nat :=
  if v < 8 then level 0 else if v > 248 then level 5 else shade ((v - 8) * 24 / 247)

theorem scaled_lt {v : Nat} (h : v < 256) : scaled v < 6 := by
  unfold scaled
  omega

theorem entry_ansi256_of_gray {c : Rgb} {v : Nat} (hr : c.r.toNat = v) (hg : c.g.toNat = v)
    (hb : c.b.toNat = v) : entry c.ansi256 = (shownShade v, shownShade v, shownShade v) := by
  unfold Rgb.ansi256 shownShade
  simp only [hr, hg, hb, and_self, if_true]
  split
  · rfl
  · split
    · rfl
    · exact entry_ramp _

theorem ansi256_of_not_gray {c : Rgb} (h : ¬(c.r = c.g ∧ c.g = c.b)) :
    c.ansi256 = 16 + 36 * scaled c.r.toNat + 6 * scaled c.g.toNat + scaled c.b.toNat := by
  simp only [UInt8.toNat_inj.symm] at h
  simp only [Rgb.ansi256, if_neg h, scaled]

/-- A value in one of some ranges. -/
def Within (ranges : List (Nat × Nat)) (v : Nat) : Prop := ∃ r ∈ ranges, r.1 ≤ v ∧ v ≤ r.2

instance (ranges : List (Nat × Nat)) (v : Nat) : Decidable (Within ranges v) :=
  inferInstanceAs (Decidable (∃ r ∈ ranges, r.1 ≤ v ∧ v ≤ r.2))

/-- The values of a channel that are scaled to a nearest level. -/
def scaledWell : List (Nat × Nat) :=
  [(0, 47), (51, 101), (115, 152), (155, 195), (204, 235), (255, 255)]

/-- The grays that are shown with a nearest shade. -/
def shadedWell : List (Nat × Nat) :=
  [(0, 4), (8, 13), (19, 23), (29, 33), (39, 43), (50, 53), (60, 63), (70, 73), (81, 83),
    (91, 91), (101, 103), (111, 113), (122, 123), (142, 143), (153, 153), (163, 163),
    (183, 183), (245, 246), (249, 255)]

theorem nearestLevel_scaled_iff : ∀ v < 256,
    NearestLevel v (level (scaled v)) ↔ Within scaledWell v := by
  decide +kernel

theorem nearest_shownShade_iff : ∀ v < 256,
    (NearestLevel v (shownShade v) ∧ NearestShade v (shownShade v)) ↔ Within shadedWell v := by
  decide +kernel

theorem off_scaled_le : ∀ v < 256, off v (level (scaled v)) ≤ 50 := by decide +kernel

theorem off_shownShade_le : ∀ v < 256, off v (shownShade v) ≤ 16 := by decide +kernel

/-- The entry of the cube that the channels of a colour are scaled to. -/
def scaledEntry (c : Rgb) : Nat × Nat × Nat :=
  (level (scaled c.r.toNat), level (scaled c.g.toNat), level (scaled c.b.toNat))

/-- The colours that are shown as well as the palette can show them. -/
inductive ShownWell (c : Rgb) : Prop
  | gray : c.r = c.g ∧ c.g = c.b → Within shadedWell c.r.toNat → ShownWell c
  /-- Other colours go to the cube, so no shade of the ramp may be closer. -/
  | other : ¬(c.r = c.g ∧ c.g = c.b) → Within scaledWell c.r.toNat →
      Within scaledWell c.g.toNat → Within scaledWell c.b.toNat →
      (∀ k < 24, distance c (scaledEntry c) ≤ distance c (shade k, shade k, shade k)) →
      ShownWell c

theorem entry_ansi256_of_not_gray {c : Rgb} (h : ¬(c.r = c.g ∧ c.g = c.b)) :
    entry c.ansi256 = scaledEntry c := by
  rw [ansi256_of_not_gray h]
  exact entry_cube (scaled_lt c.r.toNat_lt) (scaled_lt c.g.toNat_lt) (scaled_lt c.b.toNat_lt)

/-- The entry that is chosen is a closest one for just these colours. -/
theorem isClosest_ansi256_iff (c : Rgb) : IsClosest c c.ansi256 ↔ ShownWell c := by
  by_cases hgray : c.r = c.g ∧ c.g = c.b
  · obtain ⟨hrg, hgb⟩ := hgray
    have hg : c.g.toNat = c.r.toNat := by rw [hrg]
    have hb : c.b.toNat = c.r.toNat := by rw [hrg, hgb]
    rw [gray_iff rfl hg hb (entry_ansi256_of_gray rfl hg hb),
      nearest_shownShade_iff _ c.r.toNat_lt]
    constructor
    · exact .gray ⟨hrg, hgb⟩
    · intro h
      cases h with
      | gray _ hwithin => exact hwithin
      | other hnot _ _ _ _ => exact absurd ⟨hrg, hgb⟩ hnot
  · have hentry := entry_ansi256_of_not_gray hgray
    have hcube := cube_iff (c := c) (scaled_lt c.r.toNat_lt) (scaled_lt c.g.toNat_lt)
      (scaled_lt c.b.toNat_lt)
    rw [isClosest_iff, hentry]
    constructor
    · rintro ⟨hcubes, hramp⟩
      obtain ⟨hr, hg, hb⟩ := hcube.mp hcubes
      exact .other hgray ((nearestLevel_scaled_iff _ c.r.toNat_lt).mp hr)
        ((nearestLevel_scaled_iff _ c.g.toNat_lt).mp hg)
        ((nearestLevel_scaled_iff _ c.b.toNat_lt).mp hb) hramp
    · intro h
      cases h with
      | gray hyes _ => exact absurd hyes hgray
      | other _ hr hg hb hramp =>
          exact ⟨hcube.mpr ⟨(nearestLevel_scaled_iff _ c.r.toNat_lt).mpr hr,
            (nearestLevel_scaled_iff _ c.g.toNat_lt).mpr hg,
            (nearestLevel_scaled_iff _ c.b.toNat_lt).mpr hb⟩, hramp⟩

/-- Whatever the colour, the entry that is chosen is not far off in any channel. -/
theorem off_entry_ansi256_le (c : Rgb) : off c.r.toNat (entry c.ansi256).1 ≤ 50
    ∧ off c.g.toNat (entry c.ansi256).2.1 ≤ 50 ∧ off c.b.toNat (entry c.ansi256).2.2 ≤ 50 := by
  by_cases hgray : c.r = c.g ∧ c.g = c.b
  · obtain ⟨hrg, hgb⟩ := hgray
    have hg : c.g.toNat = c.r.toNat := by rw [hrg]
    have hb : c.b.toNat = c.r.toNat := by rw [hrg, hgb]
    have hoff : off c.r.toNat (shownShade c.r.toNat) ≤ 50 :=
      (off_shownShade_le _ c.r.toNat_lt).trans (by decide)
    rw [entry_ansi256_of_gray rfl hg hb, hg, hb]
    exact ⟨hoff, hoff, hoff⟩
  · rw [entry_ansi256_of_not_gray hgray]
    exact ⟨off_scaled_le _ c.r.toNat_lt, off_scaled_le _ c.g.toNat_lt,
      off_scaled_le _ c.b.toNat_lt⟩

theorem le_ansi256 (c : Rgb) : 16 ≤ c.ansi256 := by
  unfold Rgb.ansi256
  dsimp only
  split
  · split
    · decide
    · split
      · decide
      · omega
  · omega

end Palette

/-! ## Runs -/

namespace Ansi

open Palette

/-- The index that is written for a run of a colour.

It is one of the cube or the ramp, and no channel of its entry is far off.  It is a closest
one just if the colour is shown well: a gray in one of some ranges, or another colour whose
channels are all scaled to a nearest level and for which the ramp has nothing closer. -/
theorem index_closest_iff {tree : Component} {span : Span} (hspan : span ∈ tree.spans) {c : Rgb}
    (hcolor : span.style.color = some (.rgb c)) :
    (∃ before rest behind, tree.toAnsi = before ++ run span ++ behind
        ∧ run span = foreground c.ansi256 ++ rest)
      ∧ 16 ≤ c.ansi256 ∧ c.ansi256 ≤ 255
      ∧ (IsClosest c c.ansi256 ↔ ShownWell c)
      ∧ off c.r.toNat (entry c.ansi256).1 ≤ 50 ∧ off c.g.toNat (entry c.ansi256).2.1 ≤ 50
      ∧ off c.b.toNat (entry c.ansi256).2.2 ≤ 50 := by
  have hle : c.ansi256 ≤ 255 := Nat.le_of_lt_succ (Color.rgb c).ansi256_lt
  refine ⟨?_, le_ansi256 c, hle, isClosest_ansi256_iff c, off_entry_ansi256_le c⟩
  obtain ⟨before, behind, hspans⟩ := List.append_of_mem hspan
  have hansi : tree.toAnsi = before.flatMap run ++ run span ++ behind.flatMap run := by
    simp [Component.toAnsi, hspans]
  obtain ⟨attributes, hopening⟩ : ∃ attributes,
      span.style.console.opening = foreground c.ansi256 ++ attributes := by
    unfold ConsoleStyle.opening Style.console
    rw [hcolor]
    exact ⟨_, rfl⟩
  refine ⟨_, attributes ++ span.text ++ reset, _, hansi, ?_⟩
  have hsome : ¬span.style.console.opening.isEmpty := by simp [hopening, foreground, sequence]
  rw [run, ConsoleStyle.apply, if_neg hsome, hopening]
  simp only [List.append_assoc]

/-- A colour of the cube is shown as itself. -/
theorem index_closest_of_cube_color :
    let tree := parse .trusted "a<b><#5f87af>b".toList
    let span : Span :=
      ⟨"b".toList, { color := some (.rgb ⟨95, 135, 175⟩), decorations := { bold := some true } }⟩
    span ∈ tree.spans ∧ IsClosest ⟨95, 135, 175⟩ 67
      ∧ run span = foreground 67 ++ sequence "1".toList ++ "b".toList ++ reset := by
  intro tree span
  have hspan : span ∈ tree.spans := by decide +kernel
  have hwell : ShownWell ⟨95, 135, 175⟩ :=
    .other (by decide) (by decide) (by decide) (by decide) (by decide +kernel)
  obtain ⟨-, -, -, hclosest, -⟩ := index_closest_iff hspan rfl
  exact ⟨hspan, hclosest.mpr hwell, by decide +kernel⟩

/-- A gray that is itself the second shade of the ramp is shown with the first one. -/
theorem exact_gray_missed :
    let tree := parse .trusted "<#121212>x".toList
    let c : Rgb := ⟨18, 18, 18⟩
    tree.spans = [⟨"x".toList, { color := some (.rgb c) }⟩]
      ∧ tree.toAnsi = foreground 232 ++ "x".toList ++ reset
      ∧ distance c (entry 233) = 0 ∧ distance c (entry 232) = 300 ∧ ¬IsClosest c 232 := by
  intro tree c
  have hexact : distance c (entry 233) = 0 := rfl
  have hshown : distance c (entry 232) = 300 := by decide +kernel
  refine ⟨by decide +kernel, by decide +kernel, hexact, hshown, ?_⟩
  intro hclosest
  have hle := hclosest 233 (by decide) (by decide)
  rw [hexact, hshown] at hle
  exact absurd hle (by decide)

end Ansi

end StyledChat
