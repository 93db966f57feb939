/-
The walk over a tree whose needles were replaced.

The walk goes through the pieces of a text as if they had never been cut apart
(`shown_layOut`): a character that was kept is shown in the style of its node, a
replacement is walked below that style, and the place in the surrounding fill moves
on by as many characters as each piece shows.  So the walk over a spliced tree
follows the scan of the original one, node by node (`Component.shown_splice_mk`).
-/
import StyledChat.Proofs.Scan
import StyledChat.Proofs.Spans

namespace StyledChat

/-! ## Places -/

namespace FillPlace

theorem map_advance_zero (p : Option FillPlace) : p.map (·.advance 0) = p :=
  congrFun Option.map_id p

theorem map_advance_advance (p : Option FillPlace) (m n : Nat) :
    (p.map (·.advance m)).map (·.advance n) = p.map (·.advance (m + n)) := by
  rw [Option.map_map]
  congr 1
  funext q
  exact congrArg (FillPlace.mk q.fill q.length) (Nat.add_assoc ..)

/-- Without a place there is nothing to move on. -/
theorem map_advance_congr {p : Option FillPlace} {m n : Nat} (h : p ≠ none → m = n) :
    p.map (·.advance m) = p.map (·.advance n) := by
  cases p with
  | none => rfl
  | some place => rw [h (Option.some_ne_none place)]

end FillPlace

/-- The place the walk has in a node: the start of its fill, or the place it had
around the node. -/
def Style.placeIn (s : Style) (length : Nat) (outer : Option FillPlace) : Option FillPlace :=
  (s.fill.map fun f => .start f length).or outer

theorem Style.placeIn_of_fill_none {s : Style} (h : s.fill = none) (length : Nat)
    (outer : Option FillPlace) : s.placeIn length outer = outer := by
  rw [placeIn, h, Option.map_none, Option.none_or]

theorem Style.fill_resolve (own parent : Style) : (own.resolve parent).fill = none := by
  rw [Style.resolve_eq]
  rfl

theorem Style.resolve_empty {s : Style} (h : s.fill = none) : Style.empty.resolve s = s := by
  cases s
  cases h
  rfl

/-! ## One node -/

theorem Component.flatten_fst (parent : Style) (outer : Option FillPlace) (text : Text)
    (style : Style) (children : List Component) :
    let s := style.resolve parent
    let p := style.placeIn (Component.charCount ⟨text, style, children⟩) outer
    (Component.flatten parent outer ⟨text, style, children⟩).1
      = Span.ofText text s p ++ (flattenAll s (p.map (·.advance text.length)) children).1 := by
  intro s p
  simp only [p, s, Style.placeIn, Component.charCount]
  rw [Component.flatten]
  cases style.fill with
  | none => rfl
  | some f => rfl

mutual

/-- Behind a tree the place has moved on by the characters of the tree, whatever fills
the tree holds itself. -/
theorem Component.flatten_snd (parent : Style) (outer : Option FillPlace) : ∀ c : Component,
    (c.flatten parent outer).2 = outer.map (·.advance c.charCount)
  | ⟨text, style, children⟩ => by
      have hbelow := fun s p => flattenAll_snd s p children
      rw [Component.flatten, Component.charCount]
      cases style.fill with
      | none =>
          show (flattenAll _ _ children).2 = _
          rw [hbelow, FillPlace.map_advance_advance]
      | some f =>
          show outer.map _ = _
          rw [hbelow]
          simp only [Option.map_some, Option.getD_some, FillPlace.advance, FillPlace.start,
            Nat.zero_add]

theorem flattenAll_snd (parent : Style) (outer : Option FillPlace) : ∀ cs : List Component,
    (flattenAll parent outer cs).2 = outer.map (·.advance (charCounts cs))
  | [] => (FillPlace.map_advance_zero outer).symm
  | c :: rest => by
      rw [flattenAll_cons]
      show (flattenAll parent (c.flatten parent outer).2 rest).2 = _
      rw [flattenAll_snd parent _ rest, c.flatten_snd parent outer,
        FillPlace.map_advance_advance, charCounts]

end

theorem flattenAll_append (parent : Style) (ds : List Component) :
    ∀ (cs : List Component) (outer : Option FillPlace),
      (flattenAll parent outer (cs ++ ds)).1 = (flattenAll parent outer cs).1
        ++ (flattenAll parent (outer.map (·.advance (charCounts cs))) ds).1
  | [], outer => by
      rw [charCounts, FillPlace.map_advance_zero]
      rfl
  | c :: rest, outer => by
      rw [List.cons_append, flattenAll_cons, flattenAll_cons]
      show _ ++ (flattenAll parent _ (rest ++ ds)).1 = (_ ++ _) ++ _
      rw [flattenAll_append parent ds rest, c.flatten_snd, FillPlace.map_advance_advance,
        charCounts, List.append_assoc]

/-! ## What the walk shows -/

/-- A text in one style, painted from a place on. -/
def Text.painted (s : Style) (p : Option FillPlace) (t : Text) : List (Char × Style) :=
  t.mapIdx fun i c => (c, s.paintedBy (p.map (·.advance i)))

theorem Text.painted_cons (s : Style) (p : Option FillPlace) (c : Char) (rest : Text) :
    Text.painted s p (c :: rest)
      = (c, s.paintedBy p) :: Text.painted s (p.map (·.advance 1)) rest := by
  rw [Text.painted, List.mapIdx_cons, FillPlace.map_advance_zero, Text.painted]
  simp only [FillPlace.map_advance_advance, Nat.add_comm 1]

theorem Text.painted_append (s : Style) (t u : Text) : ∀ p : Option FillPlace,
    Text.painted s p (t ++ u)
      = Text.painted s p t ++ Text.painted s (p.map (·.advance t.length)) u := by
  induction t with
  | nil =>
      intro p
      rw [List.length_nil, FillPlace.map_advance_zero]
      rfl
  | cons c rest ih =>
      intro p
      rw [List.cons_append, Text.painted_cons, ih, Text.painted_cons,
        FillPlace.map_advance_advance, Nat.add_comm 1]
      rfl

theorem Span.listing_ofText_eq_painted (t : Text) (s : Style) (p : Option FillPlace) :
    Span.listing (Span.ofText t s p) = Text.painted s p t :=
  Span.listing_ofText t s p

/-- The characters a tree shows below a style, from a place on. -/
def Component.shown (parent : Style) (outer : Option FillPlace) (c : Component) :
    List (Char × Style) :=
  Span.listing (c.flatten parent outer).1

def shownAll (parent : Style) (outer : Option FillPlace) (cs : List Component) :
    List (Char × Style) :=
  Span.listing (flattenAll parent outer cs).1

theorem shownAll_cons (parent : Style) (outer : Option FillPlace) (c : Component)
    (rest : List Component) : shownAll parent outer (c :: rest)
      = c.shown parent outer ++ shownAll parent (outer.map (·.advance c.charCount)) rest := by
  rw [shownAll, flattenAll_cons, Span.listing_append, c.flatten_snd]
  rfl

theorem shownAll_append (parent : Style) (outer : Option FillPlace) (cs ds : List Component) :
    shownAll parent outer (cs ++ ds) = shownAll parent outer cs
      ++ shownAll parent (outer.map (·.advance (charCounts cs))) ds := by
  rw [shownAll, flattenAll_append, Span.listing_append]
  rfl

theorem Component.shown_mk (parent : Style) (outer : Option FillPlace) (text : Text)
    (style : Style) (children : List Component) :
    let s := style.resolve parent
    let p := style.placeIn (Component.charCount ⟨text, style, children⟩) outer
    Component.shown parent outer ⟨text, style, children⟩
      = Text.painted s p text ++ shownAll s (p.map (·.advance text.length)) children := by
  intro s p
  rw [Component.shown, Component.flatten_fst, Span.listing_append,
    Span.listing_ofText_eq_painted]
  rfl

mutual

theorem Component.map_fst_shown (parent : Style) (outer : Option FillPlace) : ∀ c : Component,
    (c.shown parent outer).map Prod.fst = c.plainText
  | ⟨text, style, children⟩ => by
      have hown : ∀ s p, (Text.painted s p text).map Prod.fst = text := by
        intro s p
        exact List.ext_getElem (by simp [Text.painted]) (by simp [Text.painted])
      rw [Component.shown_mk, List.map_append, hown, map_fst_shownAll, Component.plainText]

theorem map_fst_shownAll (parent : Style) (outer : Option FillPlace) : ∀ cs : List Component,
    (shownAll parent outer cs).map Prod.fst = plainTexts cs
  | [] => rfl
  | c :: rest => by
      rw [shownAll_cons, List.map_append, c.map_fst_shown, map_fst_shownAll, plainTexts]

end

theorem Component.length_shown (parent : Style) (outer : Option FillPlace) (c : Component) :
    (c.shown parent outer).length = c.charCount := by
  rw [← List.length_map Prod.fst, c.map_fst_shown, c.length_plainText]

theorem Component.listing_spans_eq_shown (c : Component) :
    Span.listing c.spans = c.shown Style.empty none :=
  Span.listing_merge _

theorem Component.shown_leaf {s : Style} (hs : s.fill = none) (p : Option FillPlace) (t : Text) :
    (Component.leaf t).shown s p = Text.painted s p t := by
  rw [Component.leaf, Component.shown_mk, Style.resolve_empty hs,
    Style.placeIn_of_fill_none rfl]
  exact List.append_nil _

/-! ## Pieces -/

/-- The number of characters a piece shows. -/
def Piece.size : Piece → Nat
  | kept _ => 1
  | put r => r.content.charCount

theorem Piece.length_text (p : Piece) : p.text.length = p.size := by
  cases p with
  | kept c => rfl
  | put r => exact r.content.length_plainText

/-- The characters a piece shows below a style, from a place on. -/
def Piece.shown (s : Style) (p : Option FillPlace) : Piece → List (Char × Style)
  | kept c => [(c, s.paintedBy p)]
  | put r => r.content.shown s p

def shownPieces (s : Style) : Option FillPlace → List Piece → List (Char × Style)
  | _, [] => []
  | p, q :: rest => q.shown s p ++ shownPieces s (p.map (·.advance q.size)) rest

theorem Piece.length_shown (s : Style) (p : Option FillPlace) (q : Piece) :
    (q.shown s p).length = q.size := by
  cases q with
  | kept c => rfl
  | put r => exact r.content.length_shown s p

theorem shownAll_leafOf {s : Style} (hs : s.fill = none) (p : Option FillPlace) (t : Text) :
    shownAll s p (Component.leafOf t) = Text.painted s p t := by
  cases t with
  | nil => rfl
  | cons c rest =>
      show shownAll s p [Component.leaf (c :: rest)] = _
      rw [shownAll_cons, Component.shown_leaf hs]
      exact List.append_nil _

theorem charCounts_leafOf (t : Text) : charCounts (Component.leafOf t) = t.length := by
  rw [← length_plainTexts, plainTexts_leafOf]

/-- A text that is laid out shows its pieces one after the other: where it was cut
makes no difference. -/
theorem shown_layOut {s : Style} (hs : s.fill = none) : ∀ (ps : List Piece) (p : Option FillPlace),
    Text.painted s p (layOut ps).1
        ++ shownAll s (p.map (·.advance (layOut ps).1.length)) (layOut ps).2
      = shownPieces s p ps
  | [], _ => rfl
  | .kept c :: rest, p => by
      rw [shownPieces, ← shown_layOut hs rest, layOut, Text.painted_cons, List.length_cons,
        FillPlace.map_advance_advance, Piece.size, Nat.add_comm 1]
      rfl
  | .put r :: rest, p => by
      rw [shownPieces, ← shown_layOut hs rest, layOut]
      show shownAll s (p.map (·.advance 0)) (r.content :: (Component.leafOf _ ++ _)) = _
      rw [FillPlace.map_advance_zero, shownAll_cons, shownAll_append, shownAll_leafOf hs,
        charCounts_leafOf]
      rfl

/-- The number of characters that pieces show together. -/
def countPieces (ps : List Piece) : Nat := (ps.flatMap Piece.text).length

theorem charCounts_layOut (ps : List Piece) :
    (layOut ps).1.length + charCounts (layOut ps).2 = countPieces ps := by
  rw [countPieces, ← plainText_layOut, List.length_append, length_plainTexts]

/-- A node of a spliced tree shows the pieces of its text and then its children. -/
theorem Component.shown_splice_mk (rs : List Replacement) (parent : Style)
    (outer : Option FillPlace) (text : Text) (style : Style) (children : List Component) :
    let c : Component := ⟨text, style, children⟩
    let s := (style.splice rs).resolve parent
    let p := style.placeIn (c.splice rs).charCount outer
    (c.splice rs).shown parent outer = shownPieces s p (scan rs text)
      ++ shownAll s (p.map (·.advance (countPieces (scan rs text))))
          (spliceAll rs children) := by
  intro c s p
  have hs : s.fill = none := Style.fill_resolve _ _
  have hplace : (style.splice rs).placeIn (c.splice rs).charCount outer = p := rfl
  simp only [c, Component.splice_mk] at hplace ⊢
  rw [Component.shown_mk, hplace, shownAll_append, ← List.append_assoc, shown_layOut hs,
    FillPlace.map_advance_advance, charCounts_layOut]

end StyledChat
