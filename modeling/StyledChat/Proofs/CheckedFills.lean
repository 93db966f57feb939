/-
Fills that are safe.

In words a fill has one step that can go wrong, the sum of a rainbow's phase and the index of
the character in the direction of the sweep (`Fill.sweepIndex`), and that step wraps around.  All
other steps have their answer for any number of stops, any index and any length, whatever the
single-precision steps give: the stop below a character is clipped to the last but one, so that
it and the next exist (`Fill.checkedGradient_blends`), and a length is raised to one before it
divides.

Where that sum fits, the steps in words answer as the ones without a bound
(`Fill.checkedAt_single`).  It fits in all trees of up to `2 ^ 64 - 2 ^ 32` characters
(`Level.checkedAt_of_mem_characters`).
-/
import StyledChat.Fill.Checked
import StyledChat.Proofs.Spans

namespace StyledChat

/-! ## Steps in words -/

namespace InWords

variable {α β : Type}

theorem pure_eq (a : α) : (pure a : InWords α) = answer a [] := rfl

@[simp] theorem answer_bind (a : α) (f : α → InWords β) : (answer a [] >>= f) = f a := rfl

theorem answer_bind_answer (a : α) (wrapped : List Wrap) (f : α → β) :
    (answer a wrapped >>= fun a => answer (f a) []) = answer (f a) wrapped :=
  congrArg (fun log => ExceptT.mk (Logged.mk (Except.ok (f a)) log)) (List.append_nil wrapped)

end InWords

namespace Word

variable {α : Type} {a b : UInt64}

theorem add_of_lt (h : a.toNat + b.toNat < UInt64.size) : add a b = .answer (a + b) [] := by
  rw [add, if_pos h]

theorem toNat_add_of_lt (h : a.toNat + b.toNat < UInt64.size) :
    (a + b).toNat = a.toNat + b.toNat := by
  rw [UInt64.toNat_add, Nat.mod_eq_of_lt h]

theorem sub_of_le (h : b ≤ a) : sub a b = .answer (a - b) [] := by
  rw [sub, if_pos h]

theorem rem_of_ne_zero (h : b ≠ 0) : rem a b = .answer (a % b) [] := if_neg h

theorem item_of_lt {items : List α} (h : a.toNat < items.length) :
    item items a = .answer items[a.toNat] [] := by
  rw [item, List.getElem?_eq_getElem h]
  rfl

theorem toNat_count {items : List α} (h : items.length < UInt64.size) :
    (count items).toNat = items.length := UInt64.toNat_ofNat_of_lt' h

theorem toNat_min (a b : UInt64) : (min a b).toNat = min a.toNat b.toNat := by
  show (if a ≤ b then a else b).toNat = if a.toNat ≤ b.toNat then a.toNat else b.toNat
  exact apply_ite UInt64.toNat (a ≤ b) a b

theorem toNat_max (a b : UInt64) : (max a b).toNat = max a.toNat b.toNat := by
  show (if a ≤ b then b else a).toNat = if a.toNat ≤ b.toNat then b.toNat else a.toNat
  exact apply_ite UInt64.toNat (a ≤ b) b a

end Word

namespace Fill

variable {F : Type} (steps : SingleSteps F)

/-! ## Gradients -/

theorem few_iff {stops : List Color} (hfits : stops.length < UInt64.size) (length : UInt64) :
    (Word.count stops < 2 ∨ length < 2) ↔ (stops.length < 2 ∨ length.toNat < 2) := by
  rw [UInt64.lt_iff_toNat_lt, UInt64.lt_iff_toNat_lt, Word.toNat_count hfits]
  rfl

theorem few_or_many {stops : List Color} (hfits : stops.length < UInt64.size) (length : UInt64) :
    (Word.count stops < 2 ∨ length < 2) ∨ (2 ≤ stops.length ∧ 2 ≤ length) := by
  refine or_iff_not_imp_left.mpr fun hfew => ?_
  have hmany := mt (few_iff hfits length).mpr hfew
  rw [not_or, Nat.not_lt, Nat.not_lt] at hmany
  exact ⟨hmany.1, UInt64.le_iff_toNat_le.mpr hmany.2⟩

theorem checkedGradient_of_few {stops : List Color} {index length : UInt64}
    (h : Word.count stops < 2 ∨ length < 2) :
    checkedGradient steps stops index length
      = .answer (stops.head?.getD (.rgb Rgb.white)) [] :=
  if_pos h

/-- The position among the stops, counted in segments. -/
def scaledIn (stops : List Color) (index length : UInt64) : F :=
  steps.mul (steps.div (steps.ofWord index) (steps.ofWord (length - 1)))
    (steps.ofWord (Word.count stops - 1))

/-- The stop below that position. -/
def segmentIn (stops : List Color) (index length : UInt64) : UInt64 :=
  min (steps.floorWord (scaledIn steps stops index length)) (Word.count stops - 2)

section

variable {stops : List Color} (hfits : stops.length < UInt64.size) (hstops : 2 ≤ stops.length)

include hfits in
theorem toNat_count_sub {k : UInt64} (hk : k.toNat ≤ stops.length) :
    k ≤ Word.count stops ∧ (Word.count stops - k).toNat = stops.length - k.toNat := by
  have hcount := Word.toNat_count hfits
  have hle : k ≤ Word.count stops := UInt64.le_iff_toNat_le.mpr (hcount ▸ hk)
  exact ⟨hle, by rw [UInt64.toNat_sub_of_le _ _ hle, hcount]⟩

include hfits hstops in
theorem segmentIn_lt (index length : UInt64) :
    (segmentIn steps stops index length).toNat + 1 < stops.length := by
  have hhighest := (toNat_count_sub hfits (k := 2) hstops).2
  have htwo : (2 : UInt64).toNat = 2 := rfl
  have hmin : (segmentIn steps stops index length).toNat ≤ stops.length - 2 := by
    rw [segmentIn, Word.toNat_min, hhighest]
    exact Nat.min_le_right ..
  omega

include hfits hstops in
/-- Two stops next to each other are blended. -/
theorem checkedGradient_blends (index : UInt64) {length : UInt64} (hlength : 2 ≤ length) :
    let segment := segmentIn steps stops index length
    ∃ h : segment.toNat + 1 < stops.length, checkedGradient steps stops index length
      = .answer (.rgb (steps.blend stops[segment.toNat].toRgb stops[segment.toNat + 1].toRgb
          (steps.sub (scaledIn steps stops index length) (steps.ofWord segment)))) [] := by
  intro segment
  have hsegment : segment.toNat + 1 < stops.length := segmentIn_lt steps hfits hstops index length
  have htwo : (2 : UInt64) ≤ Word.count stops := (toNat_count_sub hfits (k := 2) hstops).1
  have hone : ∀ {n : UInt64}, 2 ≤ n → 1 ≤ n := UInt64.le_trans (by decide)
  have hfew : ¬ (Word.count stops < 2 ∨ length < 2) := by
    rw [not_or, UInt64.not_lt, UInt64.not_lt]
    exact ⟨htwo, hlength⟩
  have hadd : segment.toNat + (1 : UInt64).toNat < UInt64.size := Nat.lt_trans hsegment hfits
  have hnext : (segment + 1).toNat = segment.toNat + 1 := Word.toNat_add_of_lt hadd
  have hbelow : Word.item stops segment = .answer stops[segment.toNat] [] :=
    Word.item_of_lt (Nat.lt_of_succ_lt hsegment)
  have habove : Word.item stops (segment + 1) = .answer stops[segment.toNat + 1] [] := by
    rw [Word.item_of_lt (by rwa [hnext])]
    simp only [hnext]
  refine ⟨hsegment, ?_⟩
  rw [checkedGradient, if_neg hfew, Word.sub_of_le (hone hlength), Word.sub_of_le (hone htwo),
    Word.sub_of_le htwo]
  show (do
    let below ← Word.item stops segment
    let next ← Word.add segment 1
    let above ← Word.item stops next
    return Color.rgb (steps.blend below.toRgb above.toRgb
      (steps.sub (scaledIn steps stops index length) (steps.ofWord segment)))) = _
  rw [hbelow, InWords.answer_bind, Word.add_of_lt hadd, InWords.answer_bind, habove]
  rfl

end

/-! ## Rainbows -/

/-- The index of a character in the direction of the sweep: a reversed rainbow counts from the
end. -/
def sweepIndex (reversed : Bool) (index length : Nat) : Nat :=
  if reversed then length - 1 - min index (length - 1) else index

theorem sweepIndex_max_one (reversed : Bool) (i n : Nat) :
    sweepIndex reversed i (max n 1) = sweepIndex reversed i n := by
  cases reversed with
  | false => rfl
  | true =>
      have hlast : max n 1 - 1 = n - 1 := by omega
      simp only [sweepIndex, hlast]

theorem rainbowStep_max_one (phase : UInt32) (reversed : Bool) (i n : Nat) :
    rainbowStep phase reversed i (max n 1)
      = (sweepIndex reversed i n + phase.toNat) % max n 1 := by
  rw [← sweepIndex_max_one]
  rfl

theorem checkedStep_eq (reversed : Bool) (index : UInt64) {length : UInt64} (h : 1 ≤ length) :
    ∃ step, checkedStep reversed index length = .answer step []
      ∧ step.toNat = sweepIndex reversed index.toNat length.toNat := by
  cases reversed with
  | false => exact ⟨index, rfl, rfl⟩
  | true =>
      have hlast : (length - 1).toNat = length.toNat - 1 := UInt64.toNat_sub_of_le _ _ h
      have hmin : (min index (length - 1)).toNat = min index.toNat (length.toNat - 1) := by
        rw [Word.toNat_min, hlast]
      have hle : min index (length - 1) ≤ length - 1 := by
        rw [UInt64.le_iff_toNat_le, hmin, hlast]
        exact Nat.min_le_right ..
      refine ⟨length - 1 - min index (length - 1), ?_, ?_⟩
      · rw [checkedStep, if_pos rfl, Word.sub_of_le h]
        exact Word.sub_of_le hle
      · rw [UInt64.toNat_sub_of_le _ _ hle, hmin, hlast]
        rfl

theorem one_le_max (length : UInt64) : 1 ≤ max length 1 := by
  rw [UInt64.le_iff_toNat_le, Word.toNat_max]
  exact Nat.le_max_right ..

/-- A rainbow has the colour of its sum, which is the only step that can wrap around. -/
theorem checkedRainbow_eq (phase : UInt32) (reversed : Bool) (index length : UInt64) :
    ∃ step : UInt64, step.toNat + phase.toUInt64.toNat
        = sweepIndex reversed index.toNat length.toNat + phase.toNat
      ∧ checkedRainbow steps phase reversed index length = .answer
        (.rgb (steps.wheel (steps.div (steps.ofWord ((step + phase.toUInt64) % max length 1))
          (steps.ofWord (max length 1)))))
        (if sweepIndex reversed index.toNat length.toNat + phase.toNat < UInt64.size then []
          else [.overflow]) := by
  obtain ⟨step, hstep, hindex⟩ := checkedStep_eq reversed index (one_le_max length)
  have hzero : max length 1 ≠ 0 := fun h => absurd (h ▸ one_le_max length) (by decide)
  have hsum : step.toNat + phase.toUInt64.toNat
      = sweepIndex reversed index.toNat length.toNat + phase.toNat := by
    rw [hindex, Word.toNat_max, phase.toNat_toUInt64]
    exact congrArg (· + _) (sweepIndex_max_one ..)
  refine ⟨step, hsum, ?_⟩
  rw [checkedRainbow, hstep, InWords.answer_bind, Word.add, hsum]
  simp only [Word.rem_of_ne_zero hzero, InWords.answer_bind, InWords.pure_eq]
  exact InWords.answer_bind_answer ..

theorem checkedRainbow_of_lt {phase : UInt32} {reversed : Bool} {index length : UInt64}
    (h : sweepIndex reversed index.toNat length.toNat + phase.toNat < UInt64.size) :
    checkedRainbow steps phase reversed index length
      = .answer (.rgb (steps.wheel (steps.div
          (steps.ofWord
            (.ofNat (rainbowStep phase reversed index.toNat (max length.toNat 1))))
          (steps.ofWord (max length 1))))) [] := by
  obtain ⟨step, hsum, heq⟩ := checkedRainbow_eq steps phase reversed index length
  have hfits : step.toNat + phase.toUInt64.toNat < UInt64.size := hsum ▸ h
  have hturned : ((step + phase.toUInt64) % max length 1).toNat
      = rainbowStep phase reversed index.toNat (max length.toNat 1) := by
    rw [UInt64.toNat_mod, Word.toNat_add_of_lt hfits, hsum, Word.toNat_max,
      rainbowStep_max_one]
    rfl
  rw [heq, if_pos h, ← hturned, UInt64.ofNat_toNat]

/-! ## Where a fill has a colour -/

/-- The stops of a gradient are no more than a word can count, as in any memory of such words. -/
def Counted : Fill → Prop
  | gradient stops => stops.length < UInt64.size
  | rainbow _ _ => True

/-- The index in the direction of the sweep and the phase of a rainbow add up to a word. -/
def SumFits (index length : Nat) : Fill → Prop
  | gradient _ => True
  | rainbow phase reversed => sweepIndex reversed index length + phase.toNat < UInt64.size

instance (index length : Nat) : ∀ fill : Fill, Decidable (fill.SumFits index length)
  | gradient _ => inferInstanceAs (Decidable True)
  | rainbow .. => inferInstanceAs (Decidable (_ < _))

/-- The index itself bounds that sum, but for a reversed rainbow over nearly as many characters as
a word can count. -/
theorem sumFits_rainbow {phase : UInt32} {reversed : Bool} {i n : Nat}
    (hindex : i + phase.toNat < UInt64.size)
    (hlength : reversed → n + phase.toNat ≤ UInt64.size) :
    (rainbow phase reversed).SumFits i n := by
  cases reversed with
  | false => exact hindex
  | true =>
      have hn := hlength rfl
      show n - 1 - min i (n - 1) + phase.toNat < UInt64.size
      omega

theorem single_toNat (n : UInt64) : single n.toNat = n.toFloat32 := by
  rw [single, UInt64.ofNat_toNat]

theorem gradientAt_of_segment {stops : List Color} {index length i : Nat}
    (hmany : ¬ (stops.length < 2 ∨ length < 2))
    (hi : segment (single index / single (length - 1) * single (stops.length - 1)) stops.length
      = i) (hnext : i + 1 < stops.length) :
    gradientAt stops index length
      = .rgb (Rgb.lerp stops[i].toRgb stops[i + 1].toRgb
          (single index / single (length - 1) * single (stops.length - 1) - single i)) := by
  subst hi
  rw [gradientAt, dif_neg hmany]

section

variable {stops : List Color} (hfits : stops.length < UInt64.size) (hstops : 2 ≤ stops.length)
  {length : UInt64} (hlength : 2 ≤ length)

include hfits hstops hlength in
theorem scaledIn_single (index : UInt64) : scaledIn .single stops index length
    = single index.toNat / single (length.toNat - 1) * single (stops.length - 1) := by
  have hlast : (length - 1).toNat = length.toNat - 1 :=
    UInt64.toNat_sub_of_le _ _ (UInt64.le_trans (by decide) hlength)
  have hsegments : (Word.count stops - 1).toNat = stops.length - 1 :=
    (toNat_count_sub hfits (k := 1) (Nat.le_of_succ_le hstops)).2
  rw [← hlast, ← hsegments, single_toNat, single_toNat, single_toNat]
  rfl

include hfits hstops in
theorem toNat_segmentIn_single (index length : UInt64) :
    (segmentIn .single stops index length).toNat
      = segment (scaledIn .single stops index length) stops.length := by
  rw [segmentIn, Word.toNat_min, (toNat_count_sub hfits (k := 2) hstops).2]
  rfl

include hfits hstops hlength in
theorem checkedGradient_single (index : UInt64) :
    checkedGradient .single stops index length
      = .answer (gradientAt stops index.toNat length.toNat) [] := by
  have hmany : ¬ (stops.length < 2 ∨ length.toNat < 2) := by
    rw [not_or, Nat.not_lt, Nat.not_lt]
    exact ⟨hstops, UInt64.le_iff_toNat_le.mp hlength⟩
  obtain ⟨hnext, hblend⟩ := checkedGradient_blends .single hfits hstops index hlength
  have hsegment := toNat_segmentIn_single hfits hstops index length
  rw [scaledIn_single hfits hstops hlength] at hsegment
  rw [hblend, gradientAt_of_segment hmany hsegment.symm hnext,
    ← scaledIn_single hfits hstops hlength, single_toNat]
  rfl

end

/-- In words the fill has the colour that it has without a bound. -/
theorem checkedAt_single {fill : Fill} (hcounted : fill.Counted) {index length : UInt64}
    (hsum : fill.SumFits index.toNat length.toNat) :
    fill.checkedAt .single index length
      = .answer (fill.colorAt index.toNat length.toNat) [] := by
  match fill, hcounted, hsum with
  | gradient stops, hcounted, _ =>
      rcases few_or_many hcounted length with hfew | ⟨hstops, hlength⟩
      · rw [checkedAt, checkedGradient_of_few _ hfew, colorAt, gradientAt,
          dif_pos ((few_iff hcounted length).mp hfew)]
      · exact checkedGradient_single hcounted hstops hlength index
  | rainbow phase reversed, _, hsum =>
      have hlength : max length.toNat 1 = (max length 1).toNat := (Word.toNat_max length 1).symm
      rw [checkedAt, checkedRainbow_of_lt _ hsum, colorAt, rainbowAt, hlength, single_toNat]
      rfl

end Fill

/-! ## The fills of a tree -/

mutual

/-- A character is one of those below each node above it. -/
theorem Component.rank_lt_of_mem_characters : ∀ (c : Component),
    ∀ a ∈ c.characters, ∀ l ∈ a.2, l.rank < l.length ∧ l.length ≤ c.charCount
  | ⟨text, style, children⟩, a, ha, l, hl => by
      rcases Component.level_cases ha hl with ⟨b, hb, hl⟩ | ⟨rank, hrank, rfl⟩
      · have hbelow := rank_lt_of_mem_charactersOfAll children b hb l hl
        exact ⟨hbelow.1, Nat.le_trans hbelow.2 (Nat.le_add_left ..)⟩
      · exact ⟨hrank, Nat.le_refl _⟩

theorem rank_lt_of_mem_charactersOfAll : ∀ (cs : List Component),
    ∀ a ∈ charactersOfAll cs, ∀ l ∈ a.2, l.rank < l.length ∧ l.length ≤ charCounts cs
  | c :: rest, a, ha, l, hl => by
      rcases List.mem_append.mp ha with ha | ha
      · have hbelow := c.rank_lt_of_mem_characters a ha l hl
        exact ⟨hbelow.1, Nat.le_trans hbelow.2 (Nat.le_add_right ..)⟩
      · have hbelow := rank_lt_of_mem_charactersOfAll rest a ha l hl
        exact ⟨hbelow.1, Nat.le_trans hbelow.2 (Nat.le_add_left ..)⟩

end

theorem Fill.sumFits_of_lt {i n : Nat} (h : i < n) (hn : n + UInt32.size ≤ UInt64.size)
    (fill : Fill) : fill.SumFits i n := by
  match fill with
  | .gradient _ => exact trivial
  | .rainbow phase reversed =>
      have hphase := phase.toNat_lt_size
      exact Fill.sumFits_rainbow (by omega) fun _ => by omega

/-- Nothing wraps around when a fill is asked for the characters of a tree. -/
theorem Level.checkedAt_of_mem_characters {c : Component}
    (hc : c.charCount + UInt32.size ≤ UInt64.size) {a : Char × List Level}
    (ha : a ∈ c.characters) {l : Level} (hl : l ∈ a.2) {fill : Fill} (hcounted : fill.Counted) :
    fill.checkedAt .single (.ofNat l.rank) (.ofNat l.length)
      = .answer (fill.colorAt l.rank l.length) [] := by
  obtain ⟨hrank, hlength⟩ := c.rank_lt_of_mem_characters a ha l hl
  have hphases : 0 < UInt32.size := by decide
  have hl64 : l.length < UInt64.size := by omega
  have hlengthWord : (UInt64.ofNat l.length).toNat = l.length :=
    UInt64.toNat_ofNat_of_lt' hl64
  have hrankWord : (UInt64.ofNat l.rank).toNat = l.rank :=
    UInt64.toNat_ofNat_of_lt' (Nat.lt_trans hrank hl64)
  have hfits : fill.SumFits (UInt64.ofNat l.rank).toNat (UInt64.ofNat l.length).toNat := by
    rw [hrankWord, hlengthWord]
    exact Fill.sumFits_of_lt hrank (by omega) fill
  rw [Fill.checkedAt_single hcounted hfits, hrankWord, hlengthWord]

end StyledChat
