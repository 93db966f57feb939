/-
Replacing text one character at a time.

A reader needs no search to say what replacing does: at every character the first
listed needle that stands there is replaced and skipped, and where none stands the
character is kept (`scan`).  The library looks for the leftmost occurrence of any
needle instead and cuts the text there.  Both give the same head and the same
pieces, whatever the needles are (`spliceText_eq_layOut`), so that a tree with
its needles replaced, and the text it shows, can be read off the scan
(`Component.splice_is_scan`).
-/
import StyledChat.Proofs.Splice

namespace StyledChat

/-! ## The scan -/

/-- What stands at a place of a scanned text: a character that is kept, or a needle
to be replaced. -/
inductive Piece where
  | kept (c : Char)
  | put (r : Replacement)

/-- Whether the text starts with the needle.  An empty needle stands nowhere. -/
def Replacement.starts (r : Replacement) (t : Text) : Bool :=
  !r.needle.isEmpty && r.needle.isPrefixOf t

/-- The first listed needle that the text starts with. -/
def Replacement.at? (rs : List Replacement) (t : Text) : Option Replacement :=
  rs.find? fun r => r.starts t

/-- The pieces of a text behind `skip` characters that belong to a needle already
replaced. -/
def scanFrom (rs : List Replacement) : (skip : Nat) → Text → List Piece
  | _, [] => []
  | skip + 1, _ :: rest => scanFrom rs skip rest
  | 0, c :: rest =>
    match Replacement.at? rs (c :: rest) with
    | some r => .put r :: scanFrom rs (r.needle.length - 1) rest
    | none => .kept c :: scanFrom rs 0 rest

/-- The pieces of a text, read once from its start to its end. -/
def scan (rs : List Replacement) (t : Text) : List Piece := scanFrom rs 0 t

/-- What a piece shows. -/
def Piece.text : Piece → Text
  | kept c => [c]
  | put r => r.content.plainText

/-- The text in front of the first needle, and the trees that follow it: every
replacement, with a leaf of the text behind it if there is any. -/
def layOut : List Piece → Text × List Component
  | [] => ([], [])
  | .kept c :: rest => (c :: (layOut rest).1, (layOut rest).2)
  | .put r :: rest => ([], r.content :: (Component.leafOf (layOut rest).1 ++ (layOut rest).2))

/-! ## Searching for the leftmost needle -/

theorem Text.after?_eq_ite (start t : Text) :
    Text.after? start t = if start.isPrefixOf t then some (t.drop start.length) else none := by
  by_cases h : start.isPrefixOf t
  · obtain ⟨rest, rfl⟩ := List.isPrefixOf_iff_prefix.mp h
    rw [if_pos h, List.drop_left]
    exact Text.after?_eq_some_iff.mpr rfl
  · rw [if_neg h]
    cases hafter : Text.after? start t with
    | none => rfl
    | some rest =>
        refine absurd (List.isPrefixOf_iff_prefix.mpr ?_) h
        exact ⟨rest, (Text.after?_eq_some_iff.mp hafter).symm⟩

/-- The same place, seen from one character earlier. -/
def Found.push (c : Char) (f : Found) : Found := { f with before := c :: f.before }

namespace Replacement

theorem starts_iff {r : Replacement} {t : Text} :
    r.starts t ↔ r.needle ≠ [] ∧ r.needle <+: t := by
  simp [starts]

theorem starts_of_at? {rs : List Replacement} {t : Text} {r : Replacement}
    (h : at? rs t = some r) : r.starts t := by
  have hstarts := List.find?_some h
  exact hstarts

theorem find?_nil (r : Replacement) : r.find? [] = none := by
  unfold find?
  split
  · rfl
  · next h => rw [Text.cutAround?, if_neg h, Option.map_none]

theorem find?_of_starts {r : Replacement} {c : Char} {rest : Text} (h : r.starts (c :: rest)) :
    r.find? (c :: rest) = some ⟨[], r.content, (c :: rest).drop r.needle.length⟩ := by
  obtain ⟨hne, hprefix⟩ := starts_iff.mp h
  have hempty : ¬r.needle.isEmpty := fun e => hne (List.isEmpty_iff.mp e)
  rw [find?, if_neg hempty, Text.cutAround?, Text.after?_eq_ite,
    if_pos (List.isPrefixOf_iff_prefix.mpr hprefix)]
  rfl

theorem find?_of_not_starts {r : Replacement} {c : Char} {rest : Text}
    (h : ¬r.starts (c :: rest)) : r.find? (c :: rest) = (r.find? rest).map (Found.push c) := by
  by_cases hempty : r.needle.isEmpty
  · rw [find?, if_pos hempty, find?, if_pos hempty, Option.map_none]
  · have hprefix : ¬r.needle.isPrefixOf (c :: rest) := fun e =>
      h (starts_iff.mpr
        ⟨fun e' => hempty (List.isEmpty_iff.mpr e'), List.isPrefixOf_iff_prefix.mp e⟩)
    rw [find?, if_neg hempty, find?, if_neg hempty, Text.cutAround?, Text.after?_eq_ite,
      if_neg hprefix, Option.map_map, Option.map_map]
    rfl

theorem leftmost?_nil : ∀ rs : List Replacement, leftmost? [] rs = none
  | [] => rfl
  | r :: rest => by
      rw [leftmost?, find?_nil]
      exact leftmost?_nil rest

/-- A needle that stands at the start is leftmost, and of several the first. -/
theorem leftmost?_of_at? {c : Char} {rest : Text} {r : Replacement} :
    ∀ {rs : List Replacement}, at? rs (c :: rest) = some r →
      leftmost? (c :: rest) rs = some ⟨[], r.content, (c :: rest).drop r.needle.length⟩
  | q :: more, h => by
      rw [at?, List.find?_cons] at h
      split at h
      · next hq =>
          obtain rfl := Option.some.inj h
          rw [leftmost?, find?_of_starts hq]
          cases leftmost? (c :: rest) more with
          | none => rfl
          | some g => exact if_pos (Nat.zero_le _)
      · next hq =>
          rw [leftmost?, leftmost?_of_at? h, find?_of_not_starts (ne_true_of_eq_false hq)]
          cases q.find? rest with
          | none => rfl
          | some f => exact if_neg (Nat.not_succ_le_zero _)

theorem leftmost?_of_no_start {c : Char} {rest : Text} :
    ∀ {rs : List Replacement}, at? rs (c :: rest) = none →
      leftmost? (c :: rest) rs = (leftmost? rest rs).map (Found.push c)
  | [], _ => rfl
  | q :: more, h => by
      have hnone := List.find?_eq_none.mp h
      have hstarts : ¬q.starts (c :: rest) := hnone q List.mem_cons_self
      have hmore : at? more (c :: rest) = none :=
        List.find?_eq_none.mpr fun p hp => hnone p (List.mem_cons_of_mem _ hp)
      rw [leftmost?, leftmost?, find?_of_not_starts hstarts, leftmost?_of_no_start hmore]
      cases q.find? rest with
      | none => rfl
      | some f =>
          cases leftmost? rest more with
          | none => rfl
          | some g =>
              -- both places lie one character further on, so the same one comes first
              show (if f.before.length + 1 ≤ g.before.length + 1 then some (f.push c)
                else some (g.push c)) = Option.map (Found.push c) (if _ then _ else _)
              by_cases hle : f.before.length ≤ g.before.length
              · rw [if_pos hle, if_pos (Nat.succ_le_succ hle)]
                rfl
              · rw [if_neg hle, if_neg fun e => hle (Nat.le_of_succ_le_succ e)]
                rfl

end Replacement

/-! ## Both ways to replace agree -/

theorem spliceText_of_no_start {rs : List Replacement} {c : Char} {rest : Text}
    (h : Replacement.at? rs (c :: rest) = none) :
    spliceText rs (c :: rest) = (c :: (spliceText rs rest).1, (spliceText rs rest).2) := by
  have hleft := Replacement.leftmost?_of_no_start h
  cases hrest : Replacement.leftmost? rest rs with
  | none =>
      rw [hrest] at hleft
      rw [spliceText_of_none hleft, spliceText_of_none hrest]
  | some found =>
      rw [hrest] at hleft
      rw [spliceText_of_some hleft, spliceText_of_some hrest]
      rfl

/-- What lies behind the skipped characters is split as if it stood alone. -/
theorem layOut_scanFrom (rs : List Replacement) : ∀ (t : Text) (skip : Nat),
    layOut (scanFrom rs skip t) = spliceText rs (t.drop skip)
  | [], skip => by
      rw [List.drop_nil, spliceText_of_none (Replacement.leftmost?_nil rs)]
      cases skip <;> rfl
  | _ :: rest, skip + 1 => layOut_scanFrom rs rest skip
  | c :: rest, 0 => by
      rw [List.drop_zero, scanFrom]
      cases h : Replacement.at? rs (c :: rest) with
      | none =>
          show (c :: _, _) = _
          rw [layOut_scanFrom rs rest 0, spliceText_of_no_start h]
          rfl
      | some r =>
          obtain ⟨hne, -⟩ := Replacement.starts_iff.mp (Replacement.starts_of_at? h)
          have hdrop : (c :: rest).drop r.needle.length = rest.drop (r.needle.length - 1) := by
            have hpos := List.length_pos_iff.mpr hne
            obtain ⟨n, hn⟩ := Nat.exists_eq_add_one_of_ne_zero (Nat.ne_of_gt hpos)
            rw [hn, List.drop_succ_cons, Nat.add_sub_cancel]
          rw [spliceText_of_some (Replacement.leftmost?_of_at? h), hdrop,
            ← layOut_scanFrom rs rest (r.needle.length - 1)]
          rfl

theorem spliceText_eq_layOut (rs : List Replacement) (t : Text) :
    spliceText rs t = layOut (scan rs t) :=
  (layOut_scanFrom rs t 0).symm

/-! ## The pieces that are laid out -/

/-- Only listed needles are found, and they are found in the text. -/
theorem of_put_mem_scanFrom {rs : List Replacement} {r : Replacement} :
    ∀ (t : Text) (skip : Nat), Piece.put r ∈ scanFrom rs skip t → r ∈ rs ∧ r.needle <:+: t
  | [], skip, h => by cases skip <;> cases h
  | c :: rest, skip + 1, h => by
      obtain ⟨hr, hin⟩ := of_put_mem_scanFrom rest skip h
      exact ⟨hr, hin.trans (List.suffix_cons c rest).isInfix⟩
  | c :: rest, 0, h => by
      have hlater : ∀ skip, Piece.put r ∈ scanFrom rs skip rest →
          r ∈ rs ∧ r.needle <:+: c :: rest := by
        intro skip h
        obtain ⟨hr, hin⟩ := of_put_mem_scanFrom rest skip h
        exact ⟨hr, hin.trans (List.suffix_cons c rest).isInfix⟩
      rw [scanFrom] at h
      split at h
      · next q hq =>
          rcases List.mem_cons.mp h with he | h
          · cases he
            obtain ⟨-, hprefix⟩ := Replacement.starts_iff.mp (Replacement.starts_of_at? hq)
            exact ⟨List.mem_of_find?_eq_some hq, hprefix.isInfix⟩
          · exact hlater _ h
      · rcases List.mem_cons.mp h with he | h
        · cases he
        · exact hlater 0 h

theorem mem_leafOf {t : Text} {p : Component} (h : p ∈ Component.leafOf t) :
    t ≠ [] ∧ p = Component.leaf t := by
  unfold Component.leafOf at h
  split at h
  · cases h
  · next ht => exact ⟨fun e => ht (List.isEmpty_iff.mpr e), List.mem_singleton.mp h⟩

/-- The trees that take the place of a text are replacements that were found, and
leaves of some text. -/
theorem mem_layOut {p : Component} : ∀ {pieces : List Piece}, p ∈ (layOut pieces).2 →
    (∃ r, Piece.put r ∈ pieces ∧ p = r.content) ∨ ∃ t, t ≠ [] ∧ p = Component.leaf t
  | .kept _ :: rest, h => by
      rcases @mem_layOut p rest h with ⟨r, hr, he⟩ | hleaf
      · exact Or.inl ⟨r, List.mem_cons_of_mem _ hr, he⟩
      · exact Or.inr hleaf
  | .put q :: rest, h => by
      rcases List.mem_cons.mp h with rfl | h
      · exact Or.inl ⟨q, List.mem_cons_self, rfl⟩
      · rcases List.mem_append.mp h with h | h
        · exact Or.inr ⟨_, mem_leafOf h⟩
        · rcases @mem_layOut p rest h with ⟨r, hr, he⟩ | hleaf
          · exact Or.inl ⟨r, List.mem_cons_of_mem _ hr, he⟩
          · exact Or.inr hleaf

theorem plainTexts_append (cs ds : List Component) :
    plainTexts (cs ++ ds) = plainTexts cs ++ plainTexts ds := by
  induction cs with
  | nil => rfl
  | cons c rest ih => rw [List.cons_append, plainTexts, plainTexts, ih, List.append_assoc]

theorem plainTexts_leafOf (t : Text) : plainTexts (Component.leafOf t) = t := by
  cases t with
  | nil => rfl
  | cons c rest =>
      show (c :: rest) ++ [] ++ [] = _
      rw [List.append_nil, List.append_nil]

/-- What is laid out shows the pieces in their order. -/
theorem plainText_layOut : ∀ pieces : List Piece,
    (layOut pieces).1 ++ plainTexts (layOut pieces).2 = pieces.flatMap Piece.text
  | [] => rfl
  | .kept c :: rest => congrArg (List.cons c) (plainText_layOut rest)
  | .put r :: rest => by
      rw [List.flatMap_cons, ← plainText_layOut rest]
      show plainTexts (r.content :: (Component.leafOf _ ++ _)) = r.content.plainText ++ _
      rw [plainTexts, plainTexts_append, plainTexts_leafOf]

/-! ## Texts without needles -/

/-- No needle, empty ones aside, occurs in the text. -/
def Replacement.Absent (rs : List Replacement) (t : Text) : Prop :=
  ∀ r ∈ rs, r.needle ≠ [] → ¬r.needle <:+: t

theorem scan_of_absent {rs : List Replacement} : ∀ {t : Text}, Replacement.Absent rs t →
    scan rs t = t.map Piece.kept
  | [], _ => rfl
  | c :: rest, h => by
      have hnone : Replacement.at? rs (c :: rest) = none := by
        refine List.find?_eq_none.mpr fun r hr htest => ?_
        obtain ⟨hne, hprefix⟩ := Replacement.starts_iff.mp htest
        exact h r hr hne hprefix.isInfix
      have hrest : Replacement.Absent rs rest := fun r hr hne hin =>
        h r hr hne (hin.trans (List.suffix_cons c rest).isInfix)
      rw [scan, scanFrom, hnone]
      exact congrArg (List.cons (Piece.kept c)) (scan_of_absent hrest)

theorem layOut_kept (t : Text) : layOut (t.map Piece.kept) = (t, []) := by
  induction t with
  | nil => rfl
  | cons c rest ih => rw [List.map_cons, layOut, ih]

/-! ## Whole trees -/

mutual

/-- The texts of all nodes of a tree, in reading order; those inside hover trees are
not among them. -/
def Component.ownTexts : Component → List Text
  | ⟨text, _, children⟩ => text :: ownTextsOfAll children

def ownTextsOfAll : List Component → List Text
  | [] => []
  | c :: rest => c.ownTexts ++ ownTextsOfAll rest

end

mutual

/-- The texts of all nodes of a tree and of all hover trees in it. -/
def Component.allTexts : Component → List Text
  | ⟨text, style, children⟩ => text :: (style.hoverTexts ++ allTextsOfAll children)

def Style.hoverTexts : Style → List Text
  | ⟨_, _, _, _, hover, _, _⟩ => allTextsOfHover hover

def allTextsOfHover : Option Component → List Text
  | none => []
  | some c => c.allTexts

def allTextsOfAll : List Component → List Text
  | [] => []
  | c :: rest => c.allTexts ++ allTextsOfAll rest

end

theorem spliceHover_eq_map (rs : List Replacement) (hover : Option Component) :
    spliceHover rs hover = hover.map (Component.splice rs) := by
  cases hover with
  | none => rw [spliceHover, Option.map_none]
  | some c => rw [spliceHover, Option.map_some]

theorem spliceAll_eq_map (rs : List Replacement) (cs : List Component) :
    spliceAll rs cs = cs.map (Component.splice rs) := by
  induction cs with
  | nil => rw [spliceAll, List.map_nil]
  | cons c rest ih => rw [spliceAll, ih, List.map_cons]

/-- A style with the needles in its hover text replaced. -/
def Style.splice (rs : List Replacement) (s : Style) : Style :=
  { s with hover := s.hover.map (Component.splice rs) }

/-- One node: its text as it is scanned, then its children. -/
theorem Component.splice_mk (rs : List Replacement) (text : Text) (style : Style)
    (children : List Component) : Component.splice rs ⟨text, style, children⟩
      = ⟨(layOut (scan rs text)).1, style.splice rs,
          (layOut (scan rs text)).2 ++ spliceAll rs children⟩ := by
  obtain ⟨_, _, _, _, hover, _, _⟩ := style
  rw [Component.splice, spliceText_eq_layOut, spliceHover_eq_map]
  rfl

mutual

/-- A tree in which no needle occurs stays as it is. -/
theorem Component.splice_of_absent {rs : List Replacement} : ∀ {c : Component},
    (∀ t ∈ c.allTexts, Replacement.Absent rs t) → c.splice rs = c
  | ⟨text, ⟨color, fill, decorations, click, hover, insertion, font⟩, children⟩, h => by
      have hown : Replacement.Absent rs text := h text List.mem_cons_self
      have hhover : spliceHover rs hover = hover := spliceHover_of_absent fun t ht =>
        h t (List.mem_cons_of_mem _ (List.mem_append_left _ ht))
      have hchildren : spliceAll rs children = children := spliceAll_of_absent fun t ht =>
        h t (List.mem_cons_of_mem _ (List.mem_append_right _ ht))
      rw [Component.splice, spliceText_eq_layOut, scan_of_absent hown, layOut_kept, hhover,
        hchildren]
      rfl

theorem spliceHover_of_absent {rs : List Replacement} : ∀ {hover : Option Component},
    (∀ t ∈ allTextsOfHover hover, Replacement.Absent rs t) → spliceHover rs hover = hover
  | none, _ => by rw [spliceHover]
  | some c, h => by rw [spliceHover, c.splice_of_absent h]

theorem spliceAll_of_absent {rs : List Replacement} : ∀ {cs : List Component},
    (∀ t ∈ allTextsOfAll cs, Replacement.Absent rs t) → spliceAll rs cs = cs
  | [], _ => by rw [spliceAll]
  | c :: rest, h => by
      rw [spliceAll, c.splice_of_absent fun t ht => h t (List.mem_append_left _ ht),
        spliceAll_of_absent fun t ht => h t (List.mem_append_right _ ht)]

end

mutual

/-- Two lists of needles that find the same in all texts of a tree do the same to it. -/
theorem Component.splice_congr {rs rs' : List Replacement} : ∀ {c : Component},
    (∀ t ∈ c.allTexts, scan rs t = scan rs' t) → c.splice rs = c.splice rs'
  | ⟨text, ⟨color, fill, decorations, click, hover, insertion, font⟩, children⟩, h => by
      have hown : scan rs text = scan rs' text := h text List.mem_cons_self
      have hhover : spliceHover rs hover = spliceHover rs' hover := spliceHover_congr fun t ht =>
        h t (List.mem_cons_of_mem _ (List.mem_append_left _ ht))
      have hchildren : spliceAll rs children = spliceAll rs' children :=
        spliceAll_congr fun t ht => h t (List.mem_cons_of_mem _ (List.mem_append_right _ ht))
      rw [Component.splice, Component.splice, spliceText_eq_layOut, spliceText_eq_layOut, hown,
        hhover, hchildren]

theorem spliceHover_congr {rs rs' : List Replacement} : ∀ {hover : Option Component},
    (∀ t ∈ allTextsOfHover hover, scan rs t = scan rs' t) →
      spliceHover rs hover = spliceHover rs' hover
  | none, _ => by rw [spliceHover, spliceHover]
  | some c, h => by rw [spliceHover, spliceHover, c.splice_congr h]

theorem spliceAll_congr {rs rs' : List Replacement} : ∀ {cs : List Component},
    (∀ t ∈ allTextsOfAll cs, scan rs t = scan rs' t) → spliceAll rs cs = spliceAll rs' cs
  | [], _ => by rw [spliceAll, spliceAll]
  | c :: rest, h => by
      rw [spliceAll, spliceAll, c.splice_congr fun t ht => h t (List.mem_append_left _ ht),
        spliceAll_congr fun t ht => h t (List.mem_append_right _ ht)]

end

mutual

theorem Component.plainText_splice (rs : List Replacement) : ∀ c : Component,
    (c.splice rs).plainText = c.ownTexts.flatMap fun t => (scan rs t).flatMap Piece.text
  | ⟨text, style, children⟩ => by
      rw [Component.splice_mk, Component.plainText, plainTexts_append, ← List.append_assoc,
        plainText_layOut, plainTexts_spliceAll rs children, Component.ownTexts,
        List.flatMap_cons]

theorem plainTexts_spliceAll (rs : List Replacement) : ∀ cs : List Component,
    plainTexts (spliceAll rs cs)
      = (ownTextsOfAll cs).flatMap fun t => (scan rs t).flatMap Piece.text
  | [] => by rw [spliceAll]; rfl
  | c :: rest => by
      rw [spliceAll, plainTexts, c.plainText_splice rs, plainTexts_spliceAll rs rest,
        ownTextsOfAll, List.flatMap_append]

end

/-- Replacing rewrites the text of every node as the scan of that text says, puts the
trees it found in front of the children, and keeps everything else but the hover
text, which is rewritten alike.  What is put in comes from the list as it stands, and
no leaf is put between without a text.  A tree in which no needle occurs stays as it
is, and a rewritten one shows the scans of its texts in reading order. -/
theorem Component.splice_is_scan (rs : List Replacement) (c : Component) :
    c.splice rs = ⟨(layOut (scan rs c.text)).1,
        { c.style with hover := c.style.hover.map (Component.splice rs) },
        (layOut (scan rs c.text)).2 ++ c.children.map (Component.splice rs)⟩
      ∧ (∀ p ∈ (layOut (scan rs c.text)).2,
          (∃ r ∈ rs, Piece.put r ∈ scan rs c.text ∧ p = r.content)
            ∨ ∃ t, t ≠ [] ∧ p = Component.leaf t)
      ∧ ((∀ t ∈ c.allTexts, ∀ r ∈ rs, r.needle ≠ [] → ¬r.needle <:+: t) → c.splice rs = c)
      ∧ (c.splice rs).plainText
          = c.ownTexts.flatMap fun t => (scan rs t).flatMap Piece.text := by
  refine ⟨?_, ?_, Component.splice_of_absent, c.plainText_splice rs⟩
  · obtain ⟨text, style, children⟩ := c
    rw [Component.splice_mk, spliceAll_eq_map]
    rfl
  · intro p hp
    rcases mem_layOut hp with ⟨r, hr, he⟩ | hleaf
    · exact Or.inl ⟨r, (of_put_mem_scanFrom c.text 0 hr).1, hr, he⟩
    · exact Or.inr hleaf

end StyledChat
