/-
Putting plain text in the place of needles.

A leaf without a style shows its text in the style of the node it is put into, and
counts as many characters as that text has.  So it makes no difference whether a name is
put into a tree as a leaf, which cuts the text of its node apart, or written into that
text (`Component.spans_splice_leaves`): the walk comes through the pieces of a cut text
in the same style and at the same places of every fill as through the text written in
one.  Only a hover text would tell the two apart, since a run carries its tree as it is.
-/
import StyledChat.Proofs.ShownMessage
import StyledChat.Proofs.Walk

namespace StyledChat

/-! ## Writing into a text -/

namespace Text

/-- The first listed needle that the text starts with, with the text to write in its
place.  An empty needle stands nowhere. -/
def pairAt? (pairs : List (Text × Text)) (t : Text) : Option (Text × Text) :=
  pairs.find? fun p => !p.1.isEmpty && p.1.isPrefixOf t

/-- Writes the listed texts in the place of their needles, once from the start to the end;
the first `skip` characters belong to a needle already replaced. -/
def substituteFrom (pairs : List (Text × Text)) : (skip : Nat) → Text → Text
  | _, [] => []
  | skip + 1, _ :: rest => substituteFrom pairs skip rest
  | 0, c :: rest =>
    match pairAt? pairs (c :: rest) with
    | some (needle, written) => written ++ substituteFrom pairs (needle.length - 1) rest
    | none => c :: substituteFrom pairs 0 rest

/-- The text with every listed needle written over.  What was written is not read
again. -/
def substitute (pairs : List (Text × Text)) (t : Text) : Text := substituteFrom pairs 0 t

end Text

mutual

/-- The tree with the text of every node written over, and nothing else changed. -/
def Component.substitute (pairs : List (Text × Text)) : Component → Component
  | ⟨text, style, children⟩ => ⟨Text.substitute pairs text, style, substituteAll pairs children⟩

def substituteAll (pairs : List (Text × Text)) : List Component → List Component
  | [] => []
  | c :: rest => c.substitute pairs :: substituteAll pairs rest

end

/-- Every text as a leaf that takes the place of its needle. -/
def Replacement.leaves (pairs : List (Text × Text)) : List Replacement :=
  pairs.map fun p => ⟨p.1, Component.leaf p.2⟩

variable {pairs : List (Text × Text)}

theorem Component.plainText_leaf (t : Text) : (Component.leaf t).plainText = t :=
  List.append_nil t

theorem Replacement.at?_leaves (t : Text) : Replacement.at? (Replacement.leaves pairs) t
    = (Text.pairAt? pairs t).map fun p => ⟨p.1, Component.leaf p.2⟩ :=
  List.find?_map

/-- What is written is what the pieces of the scan show. -/
theorem flatMap_scanFrom_leaves : ∀ (t : Text) (skip : Nat),
    (scanFrom (Replacement.leaves pairs) skip t).flatMap Piece.text
      = Text.substituteFrom pairs skip t
  | [], skip => by cases skip <;> rfl
  | _ :: rest, skip + 1 => flatMap_scanFrom_leaves rest skip
  | c :: rest, 0 => by
      rw [scanFrom, Text.substituteFrom, Replacement.at?_leaves]
      cases Text.pairAt? pairs (c :: rest) with
      | none => exact congrArg (List.cons c) (flatMap_scanFrom_leaves rest 0)
      | some p =>
          show Component.plainText _ ++ (scanFrom _ (p.1.length - 1) rest).flatMap _ = _
          rw [Component.plainText_leaf, flatMap_scanFrom_leaves rest]

theorem flatMap_scan_leaves (t : Text) :
    (scan (Replacement.leaves pairs) t).flatMap Piece.text = Text.substitute pairs t :=
  flatMap_scanFrom_leaves t 0

/-! ## Both trees have the same text -/

mutual

theorem Component.plainText_substitute : ∀ c : Component,
    (c.substitute pairs).plainText = (c.splice (Replacement.leaves pairs)).plainText
  | ⟨text, style, children⟩ => by
      rw [Component.substitute, Component.plainText, plainTexts_substituteAll children,
        Component.splice_mk, Component.plainText, plainTexts_append, ← List.append_assoc,
        plainText_layOut, flatMap_scan_leaves]

theorem plainTexts_substituteAll : ∀ cs : List Component,
    plainTexts (substituteAll pairs cs) = plainTexts (spliceAll (Replacement.leaves pairs) cs)
  | [] => by rw [substituteAll, spliceAll]
  | c :: rest => by
      rw [substituteAll, spliceAll, plainTexts, plainTexts, c.plainText_substitute,
        plainTexts_substituteAll rest]

end

theorem Component.charCount_substitute (c : Component) :
    (c.substitute pairs).charCount = (c.splice (Replacement.leaves pairs)).charCount := by
  rw [← Component.length_plainText, c.plainText_substitute, Component.length_plainText]

/-! ## Both walks show the same -/

/-- A leaf that was put in shows its text as if it stood in the text of the node. -/
theorem Piece.shown_eq_painted {s : Style} (hs : s.fill = none) (p : Option FillPlace)
    {q : Piece} (hq : ∀ r, q = .put r → ∃ t, r.content = Component.leaf t) :
    q.shown s p = Text.painted s p q.text := by
  cases q with
  | kept c => exact (Text.painted_cons s p c []).symm
  | put r =>
      obtain ⟨t, ht⟩ := hq r rfl
      rw [Piece.shown, Piece.text, ht, Component.shown_leaf hs, Component.plainText_leaf]

/-- Pieces without trees are shown like one text. -/
theorem shownPieces_eq_painted {s : Style} (hs : s.fill = none) : ∀ {ps : List Piece},
    (∀ r, Piece.put r ∈ ps → ∃ t, r.content = Component.leaf t) → ∀ p : Option FillPlace,
      shownPieces s p ps = Text.painted s p (ps.flatMap Piece.text)
  | [], _, _ => rfl
  | q :: rest, h, p => by
      have hq : q.shown s p = Text.painted s p q.text :=
        Piece.shown_eq_painted hs p fun r e => h r (e ▸ List.mem_cons_self)
      have hrest : ∀ r, Piece.put r ∈ rest → ∃ t, r.content = Component.leaf t := fun r hr =>
        h r (List.mem_cons_of_mem q hr)
      rw [shownPieces, hq, shownPieces_eq_painted hs hrest, List.flatMap_cons,
        Text.painted_append, Piece.length_text]

theorem shownPieces_scan_leaves {s : Style} (hs : s.fill = none) (p : Option FillPlace)
    (t : Text) : shownPieces s p (scan (Replacement.leaves pairs) t)
      = Text.painted s p (Text.substitute pairs t) := by
  rw [← flatMap_scan_leaves, shownPieces_eq_painted hs]
  intro r hr
  obtain ⟨hmem, -⟩ := of_put_mem_scanFrom t 0 hr
  obtain ⟨pair, -, rfl⟩ := List.mem_map.mp hmem
  exact ⟨pair.2, rfl⟩

/-- Without a hover text there is nothing to replace in a style. -/
theorem Style.splice_of_hovers {s : Style} (h : s.hovers = []) (rs : List Replacement) :
    s.splice rs = s := by
  obtain ⟨_, _, _, _, hover, _, _⟩ := s
  cases hover with
  | none => rfl
  | some c => exact absurd h (List.cons_ne_nil _ _)

mutual

/-- Where no node has a hover text, the walk over the tree with the leaves put in shows
the same characters in the same styles as the walk over the tree they were written into:
below any style, and from any place in a fill around the tree. -/
theorem Component.shown_splice_leaves : ∀ {c : Component}, c.hovers = [] →
    ∀ (parent : Style) (outer : Option FillPlace),
      (c.splice (Replacement.leaves pairs)).shown parent outer
        = (c.substitute pairs).shown parent outer
  | ⟨text, style, children⟩, h, parent, outer => by
      obtain ⟨hstyle, hchildren⟩ := List.append_eq_nil_iff.mp h
      have hfill : (style.resolve parent).fill = none := Style.fill_resolve _ _
      have hcount : countPieces (scan (Replacement.leaves pairs) text)
          = (Text.substitute pairs text).length :=
        congrArg List.length (flatMap_scan_leaves text)
      rw [Component.shown_splice_mk, Style.splice_of_hovers hstyle,
        shownPieces_scan_leaves hfill, shownAll_splice_leaves hchildren, hcount,
        ← Component.charCount_substitute, Component.substitute, Component.shown_mk]

theorem shownAll_splice_leaves : ∀ {cs : List Component}, hoversOfAll cs = [] →
    ∀ (parent : Style) (outer : Option FillPlace),
      shownAll parent outer (spliceAll (Replacement.leaves pairs) cs)
        = shownAll parent outer (substituteAll pairs cs)
  | [], _, _, _ => by rw [spliceAll, substituteAll]
  | c :: rest, h, parent, outer => by
      obtain ⟨hc, hrest⟩ := List.append_eq_nil_iff.mp h
      rw [spliceAll, substituteAll, shownAll_cons, shownAll_cons, c.shown_splice_leaves hc,
        shownAll_splice_leaves hrest, ← c.charCount_substitute]

end

/-! ## The runs -/

/-- The runs of a tree follow from what the walk over it shows. -/
theorem Component.spans_eq_of_shown {c d : Component}
    (h : c.shown Style.empty none = d.shown Style.empty none) : c.spans = d.spans := by
  have hlook : c.lookedAt = d.lookedAt := by
    rw [← c.listing_spans, ← d.listing_spans, c.listing_spans_eq_shown, d.listing_spans_eq_shown, h]
  rw [c.spans_eq_group, d.spans_eq_group, hlook]

/-- Putting plain text in as leaves is writing it into the texts of the nodes.  In a tree
without hover text both give the same runs, whatever the needles are and however the nodes
are coloured, filled and nested: a name is shown in the style, and in the colours of a
gradient or rainbow, that the same text written there would have. -/
theorem Component.spans_splice_leaves {c : Component} (h : c.hovers = [])
    (pairs : List (Text × Text)) :
    (c.splice (Replacement.leaves pairs)).spans = (c.substitute pairs).spans :=
  Component.spans_eq_of_shown (Component.shown_splice_leaves h _ _)

/-- A template that shows names in a gradient, one of them in colours of its own: with the
names put in, it has the runs of the template in which they are written out.  Of two
needles the one that stands further left is taken, an empty one is never found, and a
needle inside a name is left as it is. -/
theorem Component.spans_splice_names :
    let template := parse .trusted
      "<gradient:red:blue>Hi {name}, <b><rainbow>{n}!</rainbow></b> <green>name".toList
    let written := parse .trusted
      "<gradient:red:blue>Hi Ann {n}, <b><rainbow>Bob!</rainbow></b> <green>you".toList
    let pairs := [([], "never".toList), ("name".toList, "you".toList),
      ("{n}".toList, "Bob".toList), ("{name}".toList, "Ann {n}".toList)]
    template.hovers = [] ∧ template.substitute pairs = written
      ∧ (template.splice (Replacement.leaves pairs)).spans = written.spans := by
  intro template written pairs
  have hhovers : template.hovers = [] := by decide +kernel
  have hwritten : template.substitute pairs = written := by decide +kernel
  exact ⟨hhovers, hwritten, hwritten ▸ Component.spans_splice_leaves hhovers pairs⟩

end StyledChat
