/-
What each character of a tree looks like, read off the tree without a walk.

`Component.characters` lists the characters of a tree, each with the nodes above
it, and of every such node the number of characters below it and the rank of
this one among them.  That is all its look depends on (`Level.look`): most
properties come from the nearest node that sets them, and a colour may come from
the innermost fill.  The flattening walk carries a resolved style and a place in
a fill instead; `Component.listing_flatten` says that it shows the same, because
both of them are functions of the nodes above (`Level.resolved`, `Level.place`).
-/
import StyledChat.Proofs.Runs

namespace StyledChat

/-- A node above a character. -/
structure Level where
  style : Style
  /-- The number of characters below the node. -/
  length : Nat
  /-- How many of them stand before this one. -/
  rank : Nat

/-! ## The characters of a tree -/

mutual

/-- The characters of a tree in reading order, each with the nodes above it,
innermost first. -/
def Component.characters : Component → List (Char × List Level)
  | ⟨text, style, children⟩ =>
    let below := text.map (fun c => (c, [])) ++ charactersOfAll children
    below.mapIdx fun i a => (a.1, a.2 ++ [⟨style, below.length, i⟩])

def charactersOfAll : List Component → List (Char × List Level)
  | [] => []
  | c :: rest => c.characters ++ charactersOfAll rest

end

namespace Level

/-! ## The look of a character -/

/-- The value nearest to the character that a property is set to. -/
def nearest {β : Type} (property : Style → Option β) (path : List Level) : Option β :=
  path.findSome? fun l => property l.style

/-- The colour of a character.  Without a fill above it, the nearest colour.
With one, the nearest colour that is not set above the innermost filled node,
else what its fill gives to the character. -/
def color (path : List Level) : Option Color :=
  match path.dropWhile fun l => l.style.fill.isNone with
  | [] => nearest Style.color path
  | filled :: _ =>
    let inside := path.takeWhile fun l => l.style.fill.isNone
    (nearest Style.color (inside ++ [filled])).or
      (filled.style.fill.map fun f => f.colorAt filled.rank filled.length)

/-- The state of every decoration, each from the nearest node that sets it. -/
def decorations (path : List Level) : Decorations where
  bold := nearest (fun s => s.decorations.bold) path
  italic := nearest (fun s => s.decorations.italic) path
  underlined := nearest (fun s => s.decorations.underlined) path
  strikethrough := nearest (fun s => s.decorations.strikethrough) path
  obfuscated := nearest (fun s => s.decorations.obfuscated) path

/-- The style a character is shown in, by the nodes above it. -/
def look (path : List Level) : Style where
  color := color path
  fill := none
  decorations := decorations path
  click := nearest Style.click path
  hover := nearest Style.hover path
  insertion := nearest Style.insertion path
  font := nearest Style.font path

end Level

/-- The characters of a tree, each in the style it is shown in. -/
def Component.lookedAt (c : Component) : List (Char × Style) :=
  c.characters.map fun a => (a.1, Level.look a.2)

/-! ## Nothing but the text is listed -/

theorem mapIdx_const {α β : Type} (f : α → β) (l : List α) :
    (l.mapIdx fun _ a => f a) = l.map f :=
  List.ext_getElem (by simp) (by simp)

theorem map_fst_mapIdx {α β γ : Type} {f : Nat → α × β → α × γ}
    (hf : ∀ i a, (f i a).1 = a.1) (l : List (α × β)) :
    (l.mapIdx f).map Prod.fst = l.map Prod.fst :=
  List.ext_getElem (by simp) (by simp [hf])

mutual

theorem Component.map_fst_characters : ∀ c : Component,
    c.characters.map Prod.fst = c.plainText
  | ⟨text, style, children⟩ => by
      have own : (text.map fun c => (c, ([] : List Level))).map Prod.fst = text := by
        rw [List.map_map]
        exact List.map_id _
      rw [Component.characters, Component.plainText, map_fst_mapIdx, List.map_append,
        own, map_fst_charactersOfAll children]
      exact fun _ _ => rfl

theorem map_fst_charactersOfAll : ∀ cs : List Component,
    (charactersOfAll cs).map Prod.fst = plainTexts cs
  | [] => rfl
  | c :: rest => by
      rw [charactersOfAll, plainTexts, List.map_append, c.map_fst_characters,
        map_fst_charactersOfAll rest]

end

mutual

theorem Component.length_plainText : ∀ c : Component, c.plainText.length = c.charCount
  | ⟨text, _, children⟩ => by
      rw [Component.plainText, Component.charCount, List.length_append,
        length_plainTexts children]

theorem length_plainTexts : ∀ cs : List Component, (plainTexts cs).length = charCounts cs
  | [] => rfl
  | c :: rest => by
      rw [plainTexts, charCounts, List.length_append, c.length_plainText,
        length_plainTexts rest]

end

theorem Component.length_characters (c : Component) : c.characters.length = c.charCount := by
  rw [← c.length_plainText, ← c.map_fst_characters, List.length_map]

theorem length_charactersOfAll (cs : List Component) :
    (charactersOfAll cs).length = charCounts cs := by
  rw [← length_plainTexts, ← map_fst_charactersOfAll, List.length_map]

/-- A node above a character is the root, or stands above a character of the children. -/
theorem Component.level_cases {text : Text} {style : Style} {children : List Component}
    {a : Char × List Level} (ha : a ∈ (Component.mk text style children).characters)
    {l : Level} (hl : l ∈ a.2) :
    (∃ b ∈ charactersOfAll children, l ∈ b.2)
      ∨ ∃ rank, rank < (Component.mk text style children).charCount
          ∧ l = ⟨style, (Component.mk text style children).charCount, rank⟩ := by
  rw [Component.characters] at ha
  obtain ⟨i, hi, rfl⟩ := List.mem_mapIdx.mp ha
  rcases List.mem_append.mp hl with hl | hl
  · generalize hb : (text.map (fun c => (c, [])) ++ charactersOfAll children)[i] = b at hl
    have hmem := hb ▸ List.getElem_mem hi
    rcases List.mem_append.mp hmem with h | h
    · obtain ⟨ch, -, rfl⟩ := List.mem_map.mp h
      cases hl
    · exact .inl ⟨b, h, hl⟩
  · have hlength : (text.map (fun c => (c, ([] : List Level))) ++ charactersOfAll children).length
        = (Component.mk text style children).charCount := by
      rw [List.length_append, List.length_map, length_charactersOfAll, Component.charCount]
    rw [hlength] at hi hl
    exact .inr ⟨i, hi, List.mem_singleton.mp hl⟩

/-! ## What the walk carries

Both things the walk carries down are functions of the nodes above: the style is
the fold of their styles, and the place is that of the innermost fill among them.
Going on by `n` characters moves every rank, and nothing else. -/

/-- The style with the colour of a place in a fill where it has none. -/
def Style.paintedBy (s : Style) (p : Option FillPlace) : Style :=
  { s with color := s.color.or (p.map FillPlace.color) }

theorem Style.paintedBy_none (s : Style) : s.paintedBy none = s := by
  cases s
  rw [paintedBy, Option.map_none, Option.or_none]

theorem Style.paintedBy_of_color {s : Style} {c : Color} (h : s.color = some c)
    (p : Option FillPlace) : s.paintedBy p = s := by
  cases s
  rw [paintedBy, h, Option.some_or, ← h]

/-- A fill changes nothing in what is handed down but the colour. -/
theorem Style.resolve_eq (own parent : Style) : own.resolve parent =
    { own.inherit parent with
      color := if own.fill.isSome then own.color else own.color.or parent.color } := by
  unfold resolve
  cases own.fill with
  | none => rfl
  | some _ => rfl

namespace Level

/-- The style that the nodes above a character hand down. -/
def resolved : List Level → Style
  | [] => Style.empty
  | l :: outer => l.style.resolve (resolved outer)

/-- The place of a character in the innermost fill above it. -/
def place : List Level → Option FillPlace
  | [] => none
  | l :: outer => (l.style.fill.map fun f => ⟨f, l.length, l.rank⟩).or (place outer)

/-- The nodes above the character that stands `n` places further on, below the
same nodes. -/
def shift (n : Nat) (path : List Level) : List Level :=
  path.map fun l => { l with rank := l.rank + n }

@[simp] theorem shift_nil (n : Nat) : shift n [] = [] := rfl

theorem shift_cons (n : Nat) (l : Level) (path : List Level) :
    shift n (l :: path) = { l with rank := l.rank + n } :: shift n path := rfl

theorem shift_zero (path : List Level) : shift 0 path = path := List.map_id path

theorem shift_shift (m n : Nat) (path : List Level) :
    shift m (shift n path) = shift (n + m) path := by
  simp [shift, Nat.add_assoc]

theorem resolved_shift (n : Nat) : ∀ path : List Level, resolved (shift n path) = resolved path
  | [] => rfl
  | l :: outer => congrArg l.style.resolve (resolved_shift n outer)

theorem place_shift (n : Nat) : ∀ path : List Level,
    place (shift n path) = (place path).map (·.advance n)
  | [] => rfl
  | l :: outer => by
      rw [shift_cons, place, place, place_shift n outer]
      cases l.style.fill with
      | none => rfl
      | some f => rfl

/-! ### The look by what the walk carries -/

theorem fill_resolved : ∀ path : List Level, (resolved path).fill = none
  | [] => rfl
  | l :: outer => by rw [resolved, Style.resolve_eq]; rfl

theorem nearest_cons {β : Type} (property : Style → Option β) (l : Level) (path : List Level) :
    nearest property (l :: path) = (property l.style).or (nearest property path) := by
  rw [nearest, List.findSome?_cons]
  cases property l.style with
  | none => rfl
  | some b => rfl

/-- A property that every node hands down when it does not set it. -/
theorem nearest_eq_resolved {β : Type} (property : Style → Option β)
    (hempty : property Style.empty = none)
    (hresolve : ∀ own parent : Style,
      property (own.resolve parent) = (property own).or (property parent)) :
    ∀ path : List Level, nearest property path = property (resolved path)
  | [] => hempty.symm
  | l :: outer => by
      rw [nearest_cons, nearest_eq_resolved property hempty hresolve outer, resolved, hresolve]

theorem color_eq_resolved : ∀ path : List Level,
    color path = (resolved path).color.or ((place path).map FillPlace.color)
  | [] => rfl
  | l :: outer => by
      have ih := color_eq_resolved outer
      cases hf : l.style.fill with
      | none =>
          -- the node is inside the innermost fill, or there is none
          have hcolor : color (l :: outer) = l.style.color.or (color outer) := by
            unfold color
            rw [List.dropWhile_cons_of_pos (by simp [hf]),
              List.takeWhile_cons_of_pos (by simp [hf])]
            split
            · exact nearest_cons _ _ _
            · simp only [List.cons_append, nearest_cons, Option.or_assoc]
          have hresolved : (resolved (l :: outer)).color
              = l.style.color.or (resolved outer).color := by
            rw [resolved, Style.resolve, hf]
            rfl
          rw [hcolor, hresolved, ih, Option.or_assoc, place, hf]
          rfl
      | some f =>
          have hcolor : color (l :: outer)
              = l.style.color.or (some (f.colorAt l.rank l.length)) := by
            unfold color
            rw [List.dropWhile_cons_of_neg (by simp [hf]),
              List.takeWhile_cons_of_neg (by simp [hf])]
            show (nearest Style.color [l]).or (l.style.fill.map _) = _
            rw [hf, nearest_cons, nearest, List.findSome?_nil, Option.or_none]
            rfl
          have hresolved : (resolved (l :: outer)).color = l.style.color := by
            rw [resolved, Style.resolve, hf]
          rw [hcolor, hresolved, place, hf]
          rfl

theorem decorations_eq_resolved (path : List Level) :
    decorations path = (resolved path).decorations := by
  have h : ∀ get : Decorations → Option Bool, get {} = none →
      (∀ s t : Decorations, get (s.inherit t) = (get s).or (get t)) →
      nearest (fun s => get s.decorations) path = get (resolved path).decorations := by
    intro get hempty hinherit
    exact nearest_eq_resolved _ hempty
      (fun own parent => by rw [Style.resolve_eq]; exact hinherit _ _) path
  unfold decorations
  rw [h Decorations.bold rfl fun _ _ => rfl, h Decorations.italic rfl fun _ _ => rfl,
    h Decorations.underlined rfl fun _ _ => rfl, h Decorations.strikethrough rfl fun _ _ => rfl,
    h Decorations.obfuscated rfl fun _ _ => rfl]

theorem look_eq (path : List Level) : look path = (resolved path).paintedBy (place path) := by
  have hclick := nearest_eq_resolved Style.click rfl
    (fun _ _ => by rw [Style.resolve_eq]; rfl) path
  have hhover := nearest_eq_resolved Style.hover rfl
    (fun _ _ => by rw [Style.resolve_eq]; rfl) path
  have hinsertion := nearest_eq_resolved Style.insertion rfl
    (fun _ _ => by rw [Style.resolve_eq]; rfl) path
  have hfont := nearest_eq_resolved Style.font rfl
    (fun _ _ => by rw [Style.resolve_eq]; rfl) path
  rw [look, Style.paintedBy, color_eq_resolved, decorations_eq_resolved, hclick, hhover,
    hinsertion, hfont, fill_resolved]

/-! ### Characters below given nodes -/

/-- The look of characters listed below the nodes of `ctx`, the first of which
has the ranks given there. -/
def lookBelow (ctx : List Level) (l : List (Char × List Level)) : List (Char × Style) :=
  l.mapIdx fun i a => (a.1, look (a.2 ++ shift i ctx))

theorem lookBelow_nil (l : List (Char × List Level)) :
    lookBelow [] l = l.map fun a => (a.1, look a.2) := by
  simp only [lookBelow, shift_nil, List.append_nil]
  exact mapIdx_const _ l

theorem lookBelow_append (ctx : List Level) (l l' : List (Char × List Level)) :
    lookBelow ctx (l ++ l') = lookBelow ctx l ++ lookBelow (shift l.length ctx) l' := by
  simp only [lookBelow, List.mapIdx_append, shift_shift]
  congr 2
  funext i a
  rw [Nat.add_comm]

/-- The characters of a node are those below it, with the node above them. -/
theorem lookBelow_characters (ctx : List Level) (text : Text) (style : Style)
    (children : List Component) :
    lookBelow ctx (Component.characters ⟨text, style, children⟩)
      = lookBelow (⟨style, text.length + charCounts children, 0⟩ :: ctx)
          (text.map (fun c => (c, [])) ++ charactersOfAll children) := by
  simp only [lookBelow, Component.characters, List.mapIdx_mapIdx, List.length_append,
    List.length_map, length_charactersOfAll]
  congr 1
  funext i a
  simp [shift_cons]

end Level

/-! ## The walk shows the look -/

theorem Span.listing_paint (s : Style) : ∀ (text : Text) (p : FillPlace),
    Span.listing (Span.paint s p text)
      = text.mapIdx fun i c => (c, { s with color := some (p.advance i).color })
  | [], _ => rfl
  | c :: rest, p => by
      rw [Span.paint, Span.listing_cons, Span.listing_paint s rest, List.mapIdx_cons]
      simp [Span.toRun, Run.chars, FillPlace.advance, Nat.add_comm, Nat.add_left_comm]

/-- The runs of a node's own text show every character in the style that comes
down to it, painted by the fill around it. -/
theorem Span.listing_ofText (text : Text) (s : Style) (p : Option FillPlace) :
    Span.listing (Span.ofText text s p)
      = text.mapIdx fun i c => (c, s.paintedBy (p.map (·.advance i))) := by
  have plain : Span.listing [⟨text, s⟩] = text.mapIdx fun _ c => (c, s) := by
    rw [mapIdx_const]
    exact List.append_nil _
  unfold Span.ofText
  split
  · next h => rw [List.isEmpty_iff.mp h]; rfl
  · cases p with
    | none =>
        show Span.listing [⟨text, s⟩] = _
        simp only [plain, Option.map_none, Style.paintedBy_none]
    | some place =>
        cases hs : s.color with
        | none =>
            show Span.listing (Span.paint s place text) = _
            rw [Span.listing_paint]
            simp only [Style.paintedBy, hs, Option.map_some, Option.none_or]
        | some color =>
            show Span.listing [⟨text, s⟩] = _
            simp only [plain, Style.paintedBy_of_color hs]

/-- A node is walked under the nodes above it together with itself: its own text
first, then its children further on by the length of that text. -/
theorem Component.flatten_mk (ctx : List Level) (text : Text) (style : Style)
    (children : List Component) :
    let self := ⟨style, text.length + charCounts children, 0⟩ :: ctx
    let below := flattenAll (Level.resolved (Level.shift text.length self))
      (Level.place (Level.shift text.length self)) children
    Component.flatten (Level.resolved ctx) (Level.place ctx) ⟨text, style, children⟩
      = (Span.ofText text (Level.resolved self) (Level.place self) ++ below.1,
          if style.fill.isSome then (Level.place ctx).map (·.advance ((below.2.map (·.index)).getD 0))
          else below.2) := by
  intro self below
  simp only [below, Level.resolved_shift, Level.place_shift]
  rw [Component.flatten]
  cases hf : style.fill with
  | none => simp [self, Level.place, Level.resolved, hf]
  | some f => simp [self, Level.place, Level.resolved, hf, FillPlace.start]

theorem flattenAll_cons (parent : Style) (outer : Option FillPlace) (c : Component)
    (rest : List Component) : flattenAll parent outer (c :: rest) =
      let here := c.flatten parent outer
      let below := flattenAll parent here.2 rest
      (here.1 ++ below.1, below.2) := by
  rw [flattenAll]

mutual

/-- The walk under the nodes of `ctx` shows the characters of a tree as they
look below these nodes, and then stands behind them. -/
theorem Component.listing_flatten (ctx : List Level) : ∀ c : Component,
    Span.listing (c.flatten (Level.resolved ctx) (Level.place ctx)).1
        = Level.lookBelow ctx c.characters
      ∧ (c.flatten (Level.resolved ctx) (Level.place ctx)).2
        = Level.place (Level.shift c.charCount ctx)
  | ⟨text, style, children⟩ => by
      have hnode := Component.flatten_mk ctx text style children
      generalize hself : (⟨style, text.length + charCounts children, 0⟩ :: ctx : List Level) = self
        at hnode
      obtain ⟨hlist, hplace⟩ := listing_flattenAll (Level.shift text.length self) children
      have hown : Span.listing (Span.ofText text (Level.resolved self) (Level.place self))
          = Level.lookBelow self (text.map fun c => (c, [])) := by
        rw [Span.listing_ofText, Level.lookBelow]
        refine List.ext_getElem (by simp) fun i _ _ => ?_
        simp [Level.look_eq, Level.resolved_shift, Level.place_shift]
      refine ⟨?_, ?_⟩
      · rw [hnode, Span.listing_append, hlist, hown, Level.lookBelow_characters, hself,
          Level.lookBelow_append, List.length_map]
      · rw [hnode]
        show (if style.fill.isSome then _ else _) = _
        rw [hplace, Level.shift_shift, Component.charCount, ← hself]
        cases hf : style.fill with
        | none => simp [Level.shift_cons, Level.place, hf]
        | some f => simp [Level.shift_cons, Level.place, hf, Level.place_shift]

theorem listing_flattenAll (ctx : List Level) : ∀ cs : List Component,
    Span.listing (flattenAll (Level.resolved ctx) (Level.place ctx) cs).1
        = Level.lookBelow ctx (charactersOfAll cs)
      ∧ (flattenAll (Level.resolved ctx) (Level.place ctx) cs).2
        = Level.place (Level.shift (charCounts cs) ctx)
  | [] => ⟨rfl, by rw [charCounts, Level.shift_zero]; rfl⟩
  | c :: rest => by
      obtain ⟨hhere, hbetween⟩ := c.listing_flatten ctx
      obtain ⟨hbelow, hafter⟩ := listing_flattenAll (Level.shift c.charCount ctx) rest
      rw [Level.resolved_shift] at hbelow hafter
      rw [flattenAll_cons]
      simp only [hbetween]
      refine ⟨?_, ?_⟩
      · rw [Span.listing_append, hhere, hbelow, charactersOfAll, Level.lookBelow_append,
          c.length_characters]
      · rw [hafter, Level.shift_shift, charCounts]

end

/-! ## No run of the walk is empty -/

theorem Span.text_ne_nil_of_mem_paint {style : Style} {s : Span} :
    ∀ {text : Text} {place : FillPlace}, s ∈ Span.paint style place text → s.text ≠ []
  | _ :: _, _, h => by
      rcases List.mem_cons.mp h with rfl | h
      · exact List.cons_ne_nil _ _
      · exact text_ne_nil_of_mem_paint h

theorem Span.text_ne_nil_of_mem_ofText {text : Text} {style : Style} {place : Option FillPlace}
    {s : Span} (h : s ∈ Span.ofText text style place) : s.text ≠ [] := by
  unfold Span.ofText at h
  split at h
  · cases h
  · next htext =>
      split at h
      · exact Span.text_ne_nil_of_mem_paint h
      · obtain rfl := List.mem_singleton.mp h
        exact fun e => htext (List.isEmpty_iff.mpr e)

mutual

theorem Component.text_ne_nil_of_mem_flatten (parent : Style) (outer : Option FillPlace) :
    ∀ (c : Component), ∀ s ∈ (c.flatten parent outer).1, s.text ≠ []
  | ⟨text, style, children⟩, s, hs => by
      unfold Component.flatten at hs
      split at hs
      all_goals
        rcases List.mem_append.mp hs with hs | hs
        · exact Span.text_ne_nil_of_mem_ofText hs
        · exact text_ne_nil_of_mem_flattenAll _ _ children s hs

theorem text_ne_nil_of_mem_flattenAll (parent : Style) (outer : Option FillPlace) :
    ∀ (cs : List Component), ∀ s ∈ (flattenAll parent outer cs).1, s.text ≠ []
  | [], s, hs => by cases hs
  | c :: rest, s, hs => by
      rw [flattenAll_cons] at hs
      rcases List.mem_append.mp hs with hs | hs
      · exact c.text_ne_nil_of_mem_flatten parent outer s hs
      · exact text_ne_nil_of_mem_flattenAll _ _ rest s hs

end

/-! ## The runs of a tree -/

/-- The runs of a tree are the maximal runs of one look. -/
theorem Component.spans_eq_group (c : Component) :
    c.spans = (Run.group c.lookedAt).map Span.ofRun := by
  have hlist : Span.listing (c.flatten Style.empty none).1 = c.lookedAt :=
    ((c.listing_flatten []).1).trans (Level.lookBelow_nil _)
  rw [Component.spans, Span.merge_eq_group (c.text_ne_nil_of_mem_flatten _ _), hlist]

theorem Component.listing_spans (c : Component) : Span.listing c.spans = c.lookedAt := by
  rw [Span.listing, c.spans_eq_group, List.map_map]
  exact (congrArg Run.listing (List.map_id _)).trans (Run.listing_group _)

theorem Component.map_fst_listing_spans (c : Component) :
    (Span.listing c.spans).map Prod.fst = c.plainText := by
  rw [c.listing_spans, Component.lookedAt, List.map_map]
  exact c.map_fst_characters

theorem Component.maximal_spans (c : Component) : Run.Maximal (c.spans.map Span.toRun) := by
  rw [c.spans_eq_group, List.map_map]
  exact (List.map_id _).symm ▸ Run.maximal_group _

/-- Every run of a tree shows the look of some character. -/
theorem Component.exists_look_of_mem_spans {c : Component} {s : Span} (hs : s ∈ c.spans) :
    ∃ a ∈ c.characters, s.style = Level.look a.2 := by
  have hrun : s.toRun ∈ c.spans.map Span.toRun := List.mem_map_of_mem hs
  obtain ⟨ch, hch⟩ := List.exists_mem_of_ne_nil _ (c.maximal_spans.nonempty _ hrun)
  have hmem : (ch, s.style) ∈ Span.listing c.spans :=
    List.mem_flatMap.mpr ⟨_, hrun, List.mem_map.mpr ⟨ch, hch, rfl⟩⟩
  rw [c.listing_spans] at hmem
  obtain ⟨a, ha, e⟩ := List.mem_map.mp hmem
  exact ⟨a, ha, (congrArg Prod.snd e).symm⟩

theorem Component.fill_of_mem_spans {c : Component} {s : Span} (hs : s ∈ c.spans) :
    s.style.fill = none := by
  obtain ⟨a, -, e⟩ := c.exists_look_of_mem_spans hs
  rw [e]
  rfl

theorem Component.isChain_spans (c : Component) :
    c.spans.IsChain fun s t => s.style ≠ t.style :=
  (List.isChain_map Span.toRun).mp c.maximal_spans.distinct

theorem Component.text_ne_nil_of_mem_spans {c : Component} {s : Span} (hs : s ∈ c.spans) :
    s.text ≠ [] :=
  c.maximal_spans.nonempty s.toRun (List.mem_map_of_mem hs)

/-- A tree shows the characters of its text, each in the look that the nodes
above it give it, cut into maximal runs of one style.  No style carries a fill:
every fill has become colours. -/
theorem Component.spans_are_runs_of_looks (c : Component) :
    c.characters.map Prod.fst = c.plainText
      ∧ c.spans = (Run.group (c.characters.map fun a => (a.1, Level.look a.2))).map Span.ofRun
      ∧ Span.listing c.spans = c.characters.map (fun a => (a.1, Level.look a.2))
      ∧ (∀ s ∈ c.spans, s.text ≠ [] ∧ s.style.fill = none)
      ∧ c.spans.IsChain fun s t => s.style ≠ t.style :=
  ⟨c.map_fst_characters, c.spans_eq_group, c.listing_spans,
    fun _ hs => ⟨c.text_ne_nil_of_mem_spans hs, c.fill_of_mem_spans hs⟩, c.isChain_spans⟩

end StyledChat
