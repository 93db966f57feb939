/-
A message does not change the look of what stands around it.

`Component.origins` says of every character of a filled template whether it comes
from the template, from the display name or from the message.  Two messages are
rendered into trees that agree on all characters but those of the messages
themselves (`Renderer.surroundings_alike`).  Only a fill looks at how long the
message is, by counting it; so messages of equal length can always be compared, and
any two can where no filled node of the template has the message in it.

The two walks are compared step by step.  They are below the same style of the
template, filled with either message, and at the same place of a fill, which is all
that what they show depends on.
-/
import Mathlib.Data.List.Forall2
import StyledChat.Proofs.Interactions
import StyledChat.Proofs.Walk

namespace StyledChat

/-! ## Where characters come from -/

/-- For every character of a piece, the needle it was put in for, or none if it was
kept. -/
def Piece.origins : Piece → List (Option Text)
  | kept _ => [none]
  | put r => List.replicate r.content.charCount (some r.needle)

/-- For every character of the spliced tree, in reading order, the needle it was put in
for, or none if it stands in the tree itself. -/
def Component.origins (rs : List Replacement) (c : Component) : List (Option Text) :=
  c.ownTexts.flatMap fun t => (scan rs t).flatMap Piece.origins

def originsOfAll (rs : List Replacement) (cs : List Component) : List (Option Text) :=
  (ownTextsOfAll cs).flatMap fun t => (scan rs t).flatMap Piece.origins

/-- What was not put in for this needle. -/
def outside {α : Type} (needle : Text) (shown : List α) (origins : List (Option Text)) : List α :=
  ((shown.zip origins).filter fun a => a.2 ≠ some needle).map Prod.fst

/-- What a piece shows, unless it was put in for this needle. -/
def Piece.around (needle : Text) : Piece → Text
  | kept c => [c]
  | put r => if r.needle = needle then [] else r.content.plainText

theorem Piece.length_origins (p : Piece) : p.origins.length = p.size := by
  cases p with
  | kept c => rfl
  | put r => exact List.length_replicate

/-- Every shown character has an origin. -/
theorem Component.length_origins (rs : List Replacement) (c : Component) :
    (c.origins rs).length = (c.splice rs).charCount := by
  rw [← Component.length_plainText, c.plainText_splice, origins, List.length_flatMap,
    List.length_flatMap]
  congr 1
  refine List.map_congr_left fun t _ => ?_
  rw [List.length_flatMap, List.length_flatMap]
  exact congrArg List.sum
    (List.map_congr_left fun p _ => p.length_origins.trans p.length_text.symm)

section Outside

variable {α : Type} {needle : Text}

theorem outside_append {l l' : List α} {o o' : List (Option Text)}
    (h : l.length = o.length) :
    outside needle (l ++ l') (o ++ o') = outside needle l o ++ outside needle l' o' := by
  rw [outside, List.zip_append h, List.filter_append, List.map_append]
  rfl

/-- A stretch of one origin is left out as a whole, or kept as a whole. -/
theorem outside_replicate (origin : Option Text) (l : List α) :
    outside needle l (List.replicate l.length origin)
      = if origin = some needle then [] else l := by
  induction l with
  | nil => exact (ite_self _).symm
  | cons a rest ih =>
      have hcons : outside needle (a :: rest) (origin :: List.replicate rest.length origin)
          = outside needle [a] [origin] ++ outside needle rest (List.replicate rest.length origin) :=
        @outside_append α needle [a] rest [origin] _ rfl
      refine hcons.trans ?_
      rw [ih]
      by_cases h : origin = some needle
      · simp [outside, h]
      · simp [outside, h]

theorem map_outside {β : Type} (f : α → β) (l : List α) (o : List (Option Text)) :
    (outside needle l o).map f = outside needle (l.map f) o := by
  rw [outside, outside, List.zip_map_left, List.filter_map, List.map_map, List.map_map]
  rfl

theorem Piece.outside_origins (p : Piece) : outside needle p.text p.origins = p.around needle := by
  cases p with
  | kept c => exact outside_replicate none [c]
  | put r =>
      rw [text, origins, ← r.content.length_plainText, outside_replicate, around]
      exact if_congr Option.some_inj rfl rfl

theorem outside_flatMap {β : Type} {text : β → List α} {origins : β → List (Option Text)}
    (hlength : ∀ b, (text b).length = (origins b).length) (l : List β) :
    outside needle (l.flatMap text) (l.flatMap origins)
      = l.flatMap fun b => outside needle (text b) (origins b) := by
  induction l with
  | nil => rfl
  | cons b rest ih =>
      rw [List.flatMap_cons, List.flatMap_cons, List.flatMap_cons, outside_append (hlength b), ih]

end Outside

/-- Without the message, a spliced tree reads like its pieces without the message. -/
theorem Component.outside_origins (needle : Text) (rs : List Replacement) (c : Component) :
    outside needle (c.splice rs).plainText (c.origins rs)
      = c.ownTexts.flatMap fun t => (scan rs t).flatMap (Piece.around needle) := by
  have hlength : ∀ p : Piece, p.text.length = p.origins.length := fun p =>
    p.length_text.trans p.length_origins.symm
  rw [c.plainText_splice, origins, outside_flatMap fun t => ?_]
  · congr 1
    funext t
    rw [outside_flatMap hlength]
    exact congrArg (List.flatMap · _) (funext Piece.outside_origins)
  · rw [List.length_flatMap, List.length_flatMap]
    exact congrArg List.sum (List.map_congr_left fun p _ => hlength p)

/-! ## Two messages -/

section TwoMessages

variable (name : Text) (m m' : Component)

/-- The pieces that one text falls into for either message. -/
inductive Piece.Paired : Piece → Piece → Prop
  | kept (c : Char) : Paired (.kept c) (.kept c)
  | name : Paired (.put ⟨Template.namePlaceholder, Component.leaf name⟩)
      (.put ⟨Template.namePlaceholder, Component.leaf name⟩)
  | message : Paired (.put ⟨Template.messagePlaceholder, m⟩) (.put ⟨Template.messagePlaceholder, m'⟩)

/-- The same needle stands at the start of a text whatever the message is. -/
theorem at?_fillings (t : Text) :
    (Replacement.at? (fillings name m) t = none ∧ Replacement.at? (fillings name m') t = none)
      ∨ ∃ r r', Replacement.at? (fillings name m) t = some r
          ∧ Replacement.at? (fillings name m') t = some r'
          ∧ r.needle = r'.needle ∧ Piece.Paired name m m' (.put r) (.put r') := by
  by_cases hname : (⟨Template.namePlaceholder, Component.leaf name⟩ : Replacement).starts t
  · refine Or.inr ⟨_, _, List.find?_cons_of_pos hname, List.find?_cons_of_pos hname, rfl, .name⟩
  · have hskip : ∀ d, Replacement.at? (fillings name d) t
        = [(⟨Template.messagePlaceholder, d⟩ : Replacement)].find? fun r => r.starts t :=
      fun d => List.find?_cons_of_neg hname
    rw [hskip, hskip]
    by_cases hmessage : (⟨Template.messagePlaceholder, m⟩ : Replacement).starts t
    · exact Or.inr ⟨_, _, List.find?_cons_of_pos hmessage, List.find?_cons_of_pos hmessage, rfl,
        .message⟩
    · exact Or.inl ⟨List.find?_cons_of_neg hmessage, List.find?_cons_of_neg hmessage⟩

theorem paired_scanFrom : ∀ (t : Text) (skip : Nat),
    List.Forall₂ (Piece.Paired name m m') (scanFrom (fillings name m) skip t)
      (scanFrom (fillings name m') skip t)
  | [], skip => by cases skip <;> exact .nil
  | _ :: rest, skip + 1 => paired_scanFrom rest skip
  | c :: rest, 0 => by
      rw [scanFrom, scanFrom]
      rcases at?_fillings name m m' (c :: rest) with ⟨h, h'⟩ | ⟨r, r', h, h', hneedle, hpaired⟩
      · rw [h, h']
        exact .cons (.kept c) (paired_scanFrom rest 0)
      · rw [h, h']
        show List.Forall₂ _ (_ :: scanFrom _ (r.needle.length - 1) rest) _
        rw [hneedle]
        exact .cons hpaired (paired_scanFrom rest _)

theorem paired_scan (t : Text) : List.Forall₂ (Piece.Paired name m m')
    (scan (fillings name m) t) (scan (fillings name m') t) :=
  paired_scanFrom name m m' t 0

end TwoMessages

section TwoMessages

variable {name : Text} {m m' : Component}

/-- A piece in which the messages are equally long: any but a message, or a message if
both have as many characters. -/
def Piece.Steady (m m' : Component) (p : Piece) : Prop :=
  p = .put ⟨Template.messagePlaceholder, m⟩ → m.charCount = m'.charCount

theorem Piece.Paired.size_eq {p p' : Piece} (h : Piece.Paired name m m' p p')
    (hp : p.Steady m m') : p.size = p'.size := by
  cases h with
  | kept | name => rfl
  | message => exact hp rfl

theorem countPieces_eq {ps ps' : List Piece} (h : List.Forall₂ (Piece.Paired name m m') ps ps')
    (hps : ∀ p ∈ ps, p.Steady m m') : countPieces ps = countPieces ps' := by
  induction h with
  | nil => rfl
  | @cons p p' rest rest' hpaired _ ih =>
      have hsize := hpaired.size_eq (hps p List.mem_cons_self)
      have hrest := ih fun q hq => hps q (List.mem_cons_of_mem _ hq)
      rw [countPieces, List.flatMap_cons, List.length_append, p.length_text, hsize,
        ← p'.length_text, ← countPieces, hrest, countPieces, ← List.length_append,
        ← List.flatMap_cons, countPieces]

/-- The same pieces where there is no message. -/
theorem eq_of_paired {ps ps' : List Piece} (h : List.Forall₂ (Piece.Paired name m m') ps ps')
    (hps : Piece.put ⟨Template.messagePlaceholder, m⟩ ∉ ps) : ps = ps' := by
  induction h with
  | nil => rfl
  | cons hpaired _ ih =>
      rw [ih fun hp => hps (List.mem_cons_of_mem _ hp)]
      cases hpaired with
      | kept | name => rfl
      | message => exact absurd List.mem_cons_self hps

/-- The text does not show the message, or both messages are equally long. -/
def Text.Steady (m m' : Component) (t : Text) : Prop :=
  Template.messagePlaceholder <:+: t → m.charCount = m'.charCount

theorem Text.Steady.pieces {t : Text} (h : t.Steady m m') :
    ∀ p ∈ scan (fillings name m) t, p.Steady m m' := by
  rintro _ hp rfl
  exact h (of_put_mem_scanFrom t 0 hp).2

/-! ## Two walks -/

/-- One character of the template in the style it has for either message: the same
style of the template, with the message filled into its hover text. -/
def AlikeIn (name : Text) (m m' : Component) (hovers : Component → Prop)
    (a a' : Char × Style) : Prop :=
  ∃ (c : Char) (s : Style), (∀ h, s.hover = some h → hovers h)
    ∧ a = (c, s.splice (fillings name m)) ∧ a' = (c, s.splice (fillings name m'))

variable {hovers : Component → Prop}

theorem Text.painted_splice (rs : List Replacement) (s : Style) (p : Option FillPlace) (t : Text) :
    Text.painted (s.splice rs) p t = (Text.painted s p t).map fun a => (a.1, a.2.splice rs) :=
  List.ext_getElem (by simp [Text.painted]) (by
    intro i _ _
    simp only [Text.painted, List.getElem_map, List.getElem_mapIdx]
    rfl)

theorem alike_painted {s : Style} (hs : ∀ h, s.hover = some h → hovers h)
    (p : Option FillPlace) (t : Text) : List.Forall₂ (AlikeIn name m m' hovers)
      (Text.painted (s.splice (fillings name m)) p t)
      (Text.painted (s.splice (fillings name m')) p t) := by
  rw [Text.painted_splice, Text.painted_splice, List.forall₂_map_left_iff,
    List.forall₂_map_right_iff, List.forall₂_same]
  intro a ha
  obtain ⟨i, hi, rfl⟩ := List.mem_mapIdx.mp ha
  exact ⟨t[i], s.paintedBy (p.map (·.advance i)), hs, rfl, rfl⟩

theorem length_shownPieces (s : Style) : ∀ (ps : List Piece) (p : Option FillPlace),
    (shownPieces s p ps).length = (ps.flatMap Piece.origins).length
  | [], _ => rfl
  | q :: rest, p => by
      rw [shownPieces, List.flatMap_cons, List.length_append, List.length_append,
        length_shownPieces s rest, q.length_shown, q.length_origins]

/-- A piece that is a message is left out in both walks, and any other piece is the
same in both. -/
theorem Piece.Paired.alike_shown {s : Style} (hfill : s.fill = none)
    (hs : ∀ h, s.hover = some h → hovers h) (p : Option FillPlace) {q q' : Piece}
    (h : Piece.Paired name m m' q q') : List.Forall₂ (AlikeIn name m m' hovers)
      (outside Template.messagePlaceholder (q.shown (s.splice (fillings name m)) p) q.origins)
      (outside Template.messagePlaceholder (q'.shown (s.splice (fillings name m')) p) q'.origins) := by
  have hwhole : ∀ (r : Replacement) (t : Style), outside Template.messagePlaceholder
      (r.content.shown t p) (Piece.put r).origins
        = if some r.needle = some Template.messagePlaceholder then [] else r.content.shown t p := by
    intro r t
    rw [Piece.origins, ← r.content.length_shown t p, outside_replicate]
  cases h with
  | kept c => exact .cons ⟨c, s.paintedBy p, hs, rfl, rfl⟩ .nil
  | name =>
      show List.Forall₂ _ (outside _ ((Component.leaf name).shown _ p) _)
        (outside _ ((Component.leaf name).shown _ p) _)
      have hother : some Template.namePlaceholder ≠ some Template.messagePlaceholder := by decide
      have hleaf := fun d => Component.shown_leaf (s := s.splice (fillings name d)) hfill p name
      rw [hwhole ⟨Template.namePlaceholder, Component.leaf name⟩,
        hwhole ⟨Template.namePlaceholder, Component.leaf name⟩, if_neg hother, if_neg hother]
      show List.Forall₂ _ ((Component.leaf name).shown _ p) ((Component.leaf name).shown _ p)
      rw [hleaf m, hleaf m']
      exact alike_painted hs p name
  | message =>
      show List.Forall₂ _ (outside _ (m.shown _ p) _) (outside _ (m'.shown _ p) _)
      rw [hwhole ⟨Template.messagePlaceholder, m⟩, hwhole ⟨Template.messagePlaceholder, m'⟩,
        if_pos rfl, if_pos rfl]
      exact .nil

/-- The pieces of a text, walked with either message from the same place on. -/
theorem alike_shownPieces {s : Style} (hfill : s.fill = none)
    (hs : ∀ h, s.hover = some h → hovers h) {ps ps' : List Piece}
    (h : List.Forall₂ (Piece.Paired name m m') ps ps') : ∀ (p : Option FillPlace),
      (p ≠ none → ∀ q ∈ ps, q.Steady m m') →
      List.Forall₂ (AlikeIn name m m' hovers)
        (outside Template.messagePlaceholder (shownPieces (s.splice (fillings name m)) p ps)
          (ps.flatMap Piece.origins))
        (outside Template.messagePlaceholder (shownPieces (s.splice (fillings name m')) p ps')
          (ps'.flatMap Piece.origins)) := by
  induction h with
  | nil => exact fun _ _ => .nil
  | @cons q q' rest rest' hpaired _ ih =>
      intro p hp
      have hlength : ∀ (q : Piece) t, (q.shown t p).length = q.origins.length := fun q t => by
        rw [q.length_shown, q.length_origins]
      have hplace : p.map (·.advance q.size) = p.map (·.advance q'.size) :=
        FillPlace.map_advance_congr fun hne => hpaired.size_eq (hp hne q List.mem_cons_self)
      rw [shownPieces, shownPieces, List.flatMap_cons, List.flatMap_cons,
        outside_append (hlength q _), outside_append (hlength q' _), ← hplace]
      refine List.rel_append (hpaired.alike_shown hfill hs p) (ih _ fun hne r hr => ?_)
      exact hp (fun e => hne (by rw [e]; rfl)) r (List.mem_cons_of_mem _ hr)

end TwoMessages

/-! ## Whole templates -/

mutual

/-- All nodes of a tree; those inside hover trees are not among them. -/
def Component.nodes : Component → List Component
  | ⟨text, style, children⟩ => ⟨text, style, children⟩ :: nodesOfAll children

def nodesOfAll : List Component → List Component
  | [] => []
  | c :: rest => c.nodes ++ nodesOfAll rest

end

/-- Below the node there is no message, or both messages are equally long. -/
def Component.Steady (c m m' : Component) : Prop :=
  ∀ t ∈ c.ownTexts, t.Steady m m'

section TwoMessages

variable {name : Text} {m m' : Component} {hovers : Component → Prop}

theorem countPieces_scan_eq {t : Text} (h : t.Steady m m') :
    countPieces (scan (fillings name m) t) = countPieces (scan (fillings name m') t) :=
  countPieces_eq (paired_scan name m m' t) h.pieces

theorem Component.Steady.charCount_eq {c : Component} (h : c.Steady m m') :
    (c.splice (fillings name m)).charCount = (c.splice (fillings name m')).charCount := by
  rw [← Component.length_plainText, ← Component.length_plainText, Component.plainText_splice,
    Component.plainText_splice, List.length_flatMap, List.length_flatMap]
  exact congrArg List.sum (List.map_congr_left fun t ht => countPieces_scan_eq (h t ht))

/-- The place in a node is the same for both messages, and where there is one the
messages at or below the node are equally long. -/
theorem Component.exists_place (c : Component) {outer : Option FillPlace}
    (hown : c.style.fill.isSome → c.Steady m m') (houter : outer ≠ none → c.Steady m m') :
    ∃ place : Option FillPlace,
      c.style.placeIn (c.splice (fillings name m)).charCount outer = place
        ∧ c.style.placeIn (c.splice (fillings name m')).charCount outer = place
        ∧ (place ≠ none → c.Steady m m') := by
  cases hf : c.style.fill with
  | none =>
      exact ⟨outer, Style.placeIn_of_fill_none hf _ _, Style.placeIn_of_fill_none hf _ _, houter⟩
  | some f =>
      have hsteady : c.Steady m m' := hown (by rw [hf]; rfl)
      refine ⟨_, rfl, ?_, fun _ => hsteady⟩
      rw [hsteady.charCount_eq]

theorem Style.splice_resolve (rs : List Replacement) (own parent : Style) :
    (own.splice rs).resolve (parent.splice rs) = (own.resolve parent).splice rs := by
  have hhover : (own.hover.map (Component.splice rs)).or (parent.hover.map (Component.splice rs))
      = (own.hover.or parent.hover).map (Component.splice rs) := by
    cases own.hover with
    | none => rfl
    | some h => rfl
  rw [Style.resolve_eq, Style.resolve_eq]
  simp only [Style.splice, Style.inherit, hhover]
  rfl

theorem Style.hover_of_resolve {own parent : Style} (hown : ∀ h, own.hover = some h → hovers h)
    (hparent : ∀ h, parent.hover = some h → hovers h) :
    ∀ h, (own.resolve parent).hover = some h → hovers h := by
  intro h e
  rw [Style.hover_resolve] at e
  cases ho : own.hover with
  | none =>
      rw [ho, Option.none_or] at e
      exact hparent h e
  | some k =>
      rw [ho, Option.some_or] at e
      exact hown h (ho.trans e)

mutual

/-- The walks over a template filled with either message, below the same style of the
template and from the same place on, show the same outside of the messages. -/
theorem Component.alike_shown : ∀ (c : Component) {s : Style} {outer : Option FillPlace},
    (∀ h, s.hover = some h → hovers h) →
    (∀ own ∈ c.styles, ∀ h, own.hover = some h → hovers h) →
    (∀ node ∈ c.nodes, node.style.fill.isSome → node.Steady m m') →
    (outer ≠ none → c.Steady m m') →
    List.Forall₂ (AlikeIn name m m' hovers)
      (outside Template.messagePlaceholder
        ((c.splice (fillings name m)).shown (s.splice (fillings name m)) outer)
        (c.origins (fillings name m)))
      (outside Template.messagePlaceholder
        ((c.splice (fillings name m')).shown (s.splice (fillings name m')) outer)
        (c.origins (fillings name m')))
  | ⟨text, style, children⟩, s, outer, hs, hstyles, hfilled, houter => by
      have hresolved := Style.hover_of_resolve (hstyles style List.mem_cons_self) hs
      obtain ⟨place, hplace, hplace', hsteady⟩ := Component.exists_place
        ⟨text, style, children⟩ (hfilled _ List.mem_cons_self) houter
      have hlength : ∀ rs t, (shownPieces t place (scan rs text)).length
          = ((scan rs text).flatMap Piece.origins).length := fun rs t =>
        length_shownPieces t _ place
      have hbelow : place.map (·.advance (countPieces (scan (fillings name m) text)))
          = place.map (·.advance (countPieces (scan (fillings name m') text))) :=
        FillPlace.map_advance_congr fun hne =>
          countPieces_scan_eq (hsteady hne text List.mem_cons_self)
      rw [Component.shown_splice_mk, Component.shown_splice_mk, hplace, hplace',
        Style.splice_resolve, Style.splice_resolve, ← hbelow]
      show List.Forall₂ _ (outside _ _ (_ ++ originsOfAll _ children))
        (outside _ _ (_ ++ originsOfAll _ children))
      rw [outside_append (hlength _ _), outside_append (hlength _ _)]
      refine List.rel_append ?_ (alike_shownAll children hresolved ?_ ?_ ?_)
      · exact alike_shownPieces (Style.fill_resolve style s) hresolved (paired_scan name m m' text)
          place fun hne => (hsteady hne text List.mem_cons_self).pieces
      · exact fun own hown => hstyles own (List.mem_cons_of_mem _ hown)
      · exact fun node hnode => hfilled node (List.mem_cons_of_mem _ hnode)
      · intro hne t ht
        exact hsteady (fun e => hne (by rw [e]; rfl)) t (List.mem_cons_of_mem _ ht)

theorem alike_shownAll : ∀ (cs : List Component) {s : Style} {outer : Option FillPlace},
    (∀ h, s.hover = some h → hovers h) →
    (∀ own ∈ stylesOfAll cs, ∀ h, own.hover = some h → hovers h) →
    (∀ node ∈ nodesOfAll cs, node.style.fill.isSome → node.Steady m m') →
    (outer ≠ none → ∀ t ∈ ownTextsOfAll cs, t.Steady m m') →
    List.Forall₂ (AlikeIn name m m' hovers)
      (outside Template.messagePlaceholder
        (shownAll (s.splice (fillings name m)) outer (spliceAll (fillings name m) cs))
        (originsOfAll (fillings name m) cs))
      (outside Template.messagePlaceholder
        (shownAll (s.splice (fillings name m')) outer (spliceAll (fillings name m') cs))
        (originsOfAll (fillings name m') cs))
  | [], _, _, _, _, _, _ => by
      rw [spliceAll, spliceAll]
      exact .nil
  | c :: rest, s, outer, hs, hstyles, hfilled, houter => by
      have hc : outer ≠ none → c.Steady m m' := fun hne t ht =>
        houter hne t (List.mem_append_left _ ht)
      have hlength : ∀ rs t, ((c.splice rs).shown t outer).length = (c.origins rs).length :=
        fun rs t => by rw [Component.length_shown, Component.length_origins]
      have hbetween : outer.map (·.advance (c.splice (fillings name m)).charCount)
          = outer.map (·.advance (c.splice (fillings name m')).charCount) :=
        FillPlace.map_advance_congr fun hne => (hc hne).charCount_eq
      have horigins : ∀ rs, originsOfAll rs (c :: rest) = c.origins rs ++ originsOfAll rs rest :=
        fun rs => List.flatMap_append
      rw [spliceAll, spliceAll, shownAll_cons, shownAll_cons, horigins, horigins,
        outside_append (hlength _ _), outside_append (hlength _ _), ← hbetween]
      refine List.rel_append (c.alike_shown hs ?_ ?_ hc) (alike_shownAll rest hs ?_ ?_ ?_)
      · exact fun own hown => hstyles own (List.mem_append_left _ hown)
      · exact fun node hnode => hfilled node (List.mem_append_left _ hnode)
      · exact fun own hown => hstyles own (List.mem_append_right _ hown)
      · exact fun node hnode => hfilled node (List.mem_append_right _ hnode)
      · intro hne t ht
        exact houter (fun e => hne (by rw [e]; rfl)) t (List.mem_append_right _ ht)

end

end TwoMessages

/-! ## Rendered messages -/

/-- Whether a tree, or a hover text in it, has the message in it. -/
def Component.ShowsMessage (c : Component) : Prop :=
  ∃ t ∈ c.allTexts, Template.messagePlaceholder <:+: t

theorem Component.splice_fillings_eq {h : Component} (hh : ¬h.ShowsMessage) (name : Text)
    (m m' : Component) : h.splice (fillings name m) = h.splice (fillings name m') := by
  refine Component.splice_congr fun t ht => eq_of_paired (paired_scan name m m' t) fun hmem => ?_
  exact hh ⟨t, ht, (of_put_mem_scanFrom t 0 hmem).2⟩

/-- The same style in two renderings of a template with different messages: only a
hover text may differ, and only as the same hover text of the template that has the
message in it. -/
structure Style.AlikeBut (template : Component) (name : Text) (m m' : Component)
    (s s' : Style) : Prop where
  rest : { s with hover := none } = { s' with hover := none }
  hover : s.hover = s'.hover ∨ ∃ h : Component, (∃ own ∈ template.styles, own.hover = some h)
    ∧ h.ShowsMessage ∧ s.hover = some (h.splice (fillings name m))
    ∧ s'.hover = some (h.splice (fillings name m'))

theorem AlikeIn.alikeBut {template : Component} {name : Text} {m m' : Component}
    {a a' : Char × Style}
    (h : AlikeIn name m m' (fun h => ∃ own ∈ template.styles, own.hover = some h) a a') :
    a.1 = a'.1 ∧ a.2.AlikeBut template name m m' a'.2 := by
  obtain ⟨c, s, hs, rfl, rfl⟩ := h
  refine ⟨rfl, rfl, ?_⟩
  show s.hover.map _ = s.hover.map _ ∨ _
  cases hhover : s.hover with
  | none => exact Or.inl rfl
  | some h =>
      by_cases hshows : h.ShowsMessage
      · refine Or.inr ⟨h, hs h hhover, hshows, ?_, ?_⟩
        · exact congrArg (Option.map _) hhover
        · exact congrArg (Option.map _) hhover
      · exact Or.inl (congrArg some (Component.splice_fillings_eq hshows name m m'))

namespace Renderer

/-- The tree of the template a message is rendered into, before anything is put in. -/
def template (r : Renderer) (name : Option Text) (perms : Permissions) : Component :=
  templateTree (r.sourceText name perms)

/-- For every character of a rendered message, the placeholder it was put in for, or
none if it stands in the template. -/
def origins (r : Renderer) (name raw : Option Text) (perms : Permissions) (mixing : Bool) :
    List (Option Text) :=
  (r.template name perms).origins (fillings (name.getD consoleName) (messageTree raw mixing))

/-- The characters of a rendered message that do not belong to a copy of the message,
each in the style it is shown in. -/
def surroundings (r : Renderer) (name raw : Option Text) (perms : Permissions) (mixing : Bool) :
    List (Char × Style) :=
  outside Template.messagePlaceholder
    (Span.listing (r.render name raw perms mixing).value.spans) (r.origins name raw perms mixing)

/-- A message cannot restyle the template around it.  Its surroundings are the text of
the template with the display name in it, shown in the same styles whatever the message
is, if both messages are equally long or no filled node of the template has the message
at or below it. -/
theorem surroundings_alike (r : Renderer) (name raw other : Option Text) (perms : Permissions)
    (mixing : Bool)
    (h : (messageTree raw mixing).plainText.length = (messageTree other mixing).plainText.length
      ∨ ∀ node ∈ (r.template name perms).nodes, node.style.fill.isSome →
          ∀ t ∈ node.ownTexts, ¬Template.messagePlaceholder <:+: t) :
    (r.surroundings name raw perms mixing).map Prod.fst
        = (r.template name perms).ownTexts.flatMap (fun t =>
          (scan (fillings (name.getD consoleName) (messageTree raw mixing)) t).flatMap
            (Piece.around Template.messagePlaceholder))
      ∧ List.Forall₂
        (fun a a' => a.1 = a'.1 ∧ a.2.AlikeBut (r.template name perms) (name.getD consoleName)
          (messageTree raw mixing) (messageTree other mixing) a'.2)
        (r.surroundings name raw perms mixing) (r.surroundings name other perms mixing) := by
  have hsteady : ∀ node ∈ (r.template name perms).nodes, node.style.fill.isSome →
      node.Steady (messageTree raw mixing) (messageTree other mixing) := by
    intro node hnode hfill t ht hin
    rcases h with hlength | hfree
    · rwa [Component.length_plainText, Component.length_plainText] at hlength
    · exact absurd hin (hfree node hnode hfill t ht)
  refine ⟨?_, ?_⟩
  · rw [surroundings, map_outside, value_render, Component.listing_spans_eq_shown,
      Component.map_fst_shown]
    exact Component.outside_origins _ _ _
  · rw [surroundings, surroundings, value_render, value_render,
      Component.listing_spans_eq_shown, Component.listing_spans_eq_shown]
    have hroot : ∀ h, Style.empty.hover = some h →
        ∃ own ∈ (r.template name perms).styles, own.hover = some h := fun _ e => nomatch e
    refine List.Forall₂.imp (fun _ _ => AlikeIn.alikeBut) ?_
    exact Component.alike_shown (r.template name perms) hroot (fun own hown _ e => ⟨own, hown, e⟩)
      hsteady (fun hne => absurd rfl hne)

/-- Two messages of one length inside of a rainbow, and a message that tries to end it
against none at all behind the rainbow. -/
theorem surroundings_alike_at_rainbow :
    let inside : Renderer := ⟨⟨[], ⟨Template.defaultId,
      "<rainbow>{display_name}: {message}!</rainbow>".toList, none⟩⟩, none⟩
    let behind : Renderer := ⟨⟨[], ⟨Template.defaultId,
      "<rainbow>{display_name}</rainbow>: {message}!".toList, none⟩⟩, none⟩
    let bold := some "<b>hi".toList
    let plain := some "yo".toList
    let ending := some "</rainbow><reset>hi".toList
    (messageTree bold false).plainText.length = (messageTree plain false).plainText.length
      ∧ List.Forall₂
        (fun a a' => a.1 = a'.1 ∧ a.2.AlikeBut (inside.template none Permissions.refuseAll)
          consoleName (messageTree bold false) (messageTree plain false) a'.2)
        (inside.surroundings none bold Permissions.refuseAll false)
        (inside.surroundings none plain Permissions.refuseAll false)
      ∧ List.Forall₂
        (fun a a' => a.1 = a'.1 ∧ a.2.AlikeBut (behind.template none Permissions.refuseAll)
          consoleName (messageTree ending false) (messageTree none false) a'.2)
        (behind.surroundings none ending Permissions.refuseAll false)
        (behind.surroundings none none Permissions.refuseAll false) := by
  intro inside behind bold plain ending
  have hlength : (messageTree bold false).plainText.length
      = (messageTree plain false).plainText.length := by decide +kernel
  refine ⟨hlength, ?_, ?_⟩
  · exact (surroundings_alike inside none bold plain Permissions.refuseAll false (Or.inl hlength)).2
  · exact (surroundings_alike behind none ending none Permissions.refuseAll false
      (Or.inr (by decide +kernel))).2

end Renderer

end StyledChat
