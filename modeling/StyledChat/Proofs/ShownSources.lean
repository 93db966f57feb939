/-
What of the text that is read is shown.

The plain text of a message is made up of some of its pieces, each as it is read
(`plainText_messageTree`).  No token has a part of a tag that was put in: either the tag
is a token of its own, or it stands within the quotes of a tag that was typed around it,
or behind a `\` in a stretch of text (`Source.exists_oneToken`).  A tag shows all of its
pieces or none, and a stretch of text all but its escapes (`Source.ShownSoFar.step`).  So
a tag that was put in is shown only where it is left over (`Source.LeftOver`), and a
message in which nothing is left over shows nothing that was not typed.
-/
import Mathlib.Data.List.Flatten
import StyledChat.Proofs.Said
import StyledChat.Proofs.Sources

namespace StyledChat

/-! ## Made tags in the scanners -/

namespace Bracketed

variable {tag : Text}

/-- Between quotes, the search for the end of a tag passes over it. -/
theorem passes (h : Bracketed tag) {place : Quoting} (hplace : place ≠ .outside) :
    ∃ q, Token.Passes place tag (.inside q) := by
  cases place with
  | outside => exact absurd rfl hplace
  | inside q => exact ⟨q, .unquoted h.unquoted q⟩
  | escaped q =>
      obtain ⟨⟨content, rfl, -⟩, hunquoted⟩ := h
      have hrest : Token.Passes (.inside q) (content ++ ['>']) (.inside q) :=
        .unquoted (fun c hc => hunquoted c (List.mem_cons_of_mem _ hc)) q
      exact ⟨q, (Token.Passes.escaped q '<').append hrest⟩

theorem no_slash (h : Bracketed tag) : '\\' ∉ tag := fun hmem => (h.unquoted _ hmem).1 rfl

theorem getLast?_ne (h : Bracketed tag) : tag.getLast? ≠ some '\\' :=
  fun hlast => h.no_slash (List.mem_of_getLast? hlast)

/-- Behind a `\` it is a part of the text. -/
theorem isStretch (h : Bracketed tag) : Token.IsStretch true tag := by
  obtain ⟨⟨content, rfl, hfree⟩, -⟩ := h
  rw [Token.IsStretch, Token.cutText_cons (by simp)]
  exact Token.isStretch_of_no_bracket hfree.not_mem_concat _

end Bracketed

namespace Source

/-- The content of a tag ends with a piece. -/
theorem eq_of_cutTag? : ∀ {l : List Source} {place : Quoting} {inner behind : Text},
    AllMadeBy Made l → Token.cutTag? place (readOf l) = some (inner, behind) →
      ∃ l₁ l₂, l = l₁ ++ typed '>' :: l₂ ∧ readOf l₁ = inner ∧ readOf l₂ = behind
  | typed c :: rest, place, inner, behind, hmade, h => by
      change Token.cutTag? place (c :: readOf rest) = _ at h
      unfold Token.cutTag? at h
      split at h
      · next hc =>
          obtain ⟨rfl, rfl⟩ := Prod.mk.inj (Option.some.inj h)
          exact ⟨[], rest, by rw [hc.2]; rfl, rfl, rfl⟩
      · split at h
        · cases h
        · obtain ⟨⟨i, b⟩, hcut, he⟩ := Option.map_eq_some_iff.mp h
          obtain ⟨rfl, rfl⟩ := Prod.mk.inj he
          obtain ⟨l₁, l₂, rfl, rfl, rfl⟩ := eq_of_cutTag? hmade.tail hcut
          exact ⟨typed c :: l₁, l₂, rfl, rfl, rfl⟩
  | made written tag :: rest, place, inner, behind, hmade, h => by
      have hbracketed := (hmade written tag List.mem_cons_self).bracketed
      change Token.cutTag? place (tag ++ readOf rest) = _ at h
      by_cases hplace : place = .outside
      · obtain ⟨⟨content, rfl, -⟩, -⟩ := hbracketed
        rw [hplace, List.cons_append, Token.cutTag?_outside_bracket] at h
        cases h
      · obtain ⟨q, hpasses⟩ := hbracketed.passes hplace
        rw [hpasses] at h
        obtain ⟨⟨i, b⟩, hcut, he⟩ := Option.map_eq_some_iff.mp h
        obtain ⟨rfl, rfl⟩ := Prod.mk.inj he
        obtain ⟨l₁, l₂, rfl, rfl, rfl⟩ := eq_of_cutTag? hmade.tail hcut
        exact ⟨made written tag :: l₁, l₂, rfl, rfl, rfl⟩

/-- Every tag that was put in stands directly behind a `\` that was typed.  The flag says
whether the pieces themselves stand behind one. -/
def BehindSlash (escaped : Bool) : List Source → Prop
  | [] => True
  | typed c :: rest => BehindSlash (c == '\\') rest
  | made _ _ :: rest => escaped ∧ BehindSlash false rest

theorem BehindSlash.getElem? : ∀ {l : List Source} {escaped : Bool} {i : Nat}
    {written tag : Text}, BehindSlash escaped l → l[i]? = some (made written tag) →
      i = 0 ∧ escaped ∨ ∃ j, i = j + 1 ∧ l[j]? = some (typed '\\')
  | typed c :: rest, _, i + 1, written, tag, h, hi => by
      rcases BehindSlash.getElem? (l := rest) h hi with ⟨rfl, hc⟩ | ⟨j, rfl, hj⟩
      · exact Or.inr ⟨0, rfl, congrArg (some <| typed ·) (beq_iff_eq.mp hc)⟩
      · exact Or.inr ⟨j + 1, rfl, hj⟩
  | made _ _ :: _, _, 0, _, _, h, _ => Or.inl ⟨rfl, h.1⟩
  | made _ _ :: rest, _, i + 1, written, tag, h, hi => by
      rcases BehindSlash.getElem? (l := rest) h.2 hi with ⟨-, hc⟩ | ⟨j, rfl, hj⟩
      · cases hc
      · exact Or.inr ⟨j + 1, rfl, hj⟩

/-- A stretch of text ends with a piece. -/
theorem exists_cutText : ∀ {l : List Source} (escaped : Bool), AllMadeBy Made l →
    ∃ l₁ l₂, l = l₁ ++ l₂ ∧ Token.cutText escaped (readOf l) = (readOf l₁, readOf l₂)
      ∧ BehindSlash escaped l₁
  | [], _, _ => ⟨[], [], rfl, rfl, trivial⟩
  | typed c :: rest, escaped, hmade => by
      by_cases hc : c = '<' ∧ !escaped
      · exact ⟨[], typed c :: rest, rfl, if_pos hc, trivial⟩
      · obtain ⟨l₁, l₂, rfl, hcut, hslash⟩ := exists_cutText (c == '\\') hmade.tail
        refine ⟨typed c :: l₁, l₂, rfl, ?_, hslash⟩
        show Token.cutText escaped (c :: readOf (l₁ ++ l₂)) = _
        rw [Token.cutText_cons hc, hcut]
        rfl
  | made written tag :: rest, escaped, hmade => by
      have hbracketed := (hmade written tag List.mem_cons_self).bracketed
      cases escaped with
      | false =>
          obtain ⟨⟨content, rfl, -⟩, -⟩ := hbracketed
          exact ⟨[], _, rfl, Token.cutText_bracket _, trivial⟩
      | true =>
          obtain ⟨l₁, l₂, rfl, hcut, hslash⟩ := exists_cutText false hmade.tail
          refine ⟨made written tag :: l₁, l₂, rfl, ?_, rfl, hslash⟩
          have hne : tag ≠ [] := by
            obtain ⟨⟨content, rfl, -⟩, -⟩ := hbracketed
            exact List.cons_ne_nil _ _
          show Token.cutText true (tag ++ readOf (l₁ ++ l₂)) = _
          rw [Token.cutText_append hbracketed.isStretch hne hbracketed.getLast?_ne, hcut]
          rfl

/-! ## Escapes -/

/-- A `\` that was typed in front of a `<`. -/
structure EscapeAt (l : List Source) (i : Nat) : Prop where
  slash : l[i]? = some (typed '\\')
  bracket : ∃ next, l[i + 1]? = some next ∧ next.read.head? = some '<'

theorem EscapeAt.cons {l : List Source} {i : Nat} (h : EscapeAt l i) (s : Source) :
    EscapeAt (s :: l) (i + 1) := ⟨h.slash, h.bracket⟩

theorem escapeAt_zero {rest : List Source} (hmade : AllMadeBy Made rest)
    (hhead : (readOf rest).head? = some '<') : EscapeAt (typed '\\' :: rest) 0 := by
  refine ⟨rfl, ?_⟩
  cases rest with
  | nil => cases hhead
  | cons next more =>
      refine ⟨next, rfl, ?_⟩
      cases next with
      | typed c => exact hhead
      | made written tag =>
          obtain ⟨⟨content, rfl, -⟩, -⟩ := (hmade written tag List.mem_cons_self).bracketed
          rfl

/-- What is left of some pieces, their places counted from `n`, in a stretch of text: all
but the escapes. -/
structure Unescaped (l : List Source) (n : Nat) (kept : List (Source × Nat)) : Prop where
  sublist : kept.Sublist (l.zipIdx n)
  read : Token.unescape (readOf l) = readOf (kept.map Prod.fst)
  escape : ∀ s i, (s, i) ∈ l.zipIdx n → (s, i) ∉ kept → EscapeAt l (i - n)

namespace Unescaped

variable {rest : List Source} {n : Nat} {kept : List (Source × Nat)}

theorem later (h : Unescaped rest (n + 1) kept) (s : Source) : ∀ s' i,
    (s', i) ∈ rest.zipIdx (n + 1) → (s', i) ∉ kept → EscapeAt (s :: rest) (i - n) := by
  intro s' i hmem hnot
  have hle := List.le_snd_of_mem_zipIdx hmem
  have hi : i - n = i - (n + 1) + 1 := by omega
  rw [hi]
  exact (h.escape s' i hmem hnot).cons s

theorem keep (h : Unescaped rest (n + 1) kept) {s : Source}
    (hread : Token.unescape (readOf (s :: rest)) = s.read ++ Token.unescape (readOf rest)) :
    Unescaped (s :: rest) n ((s, n) :: kept) where
  sublist := h.sublist.cons_cons _
  read := by
    rw [hread, h.read]
    rfl
  escape := by
    intro s' i hmem hnot
    rcases List.mem_cons.mp hmem with he | hmem
    · exact absurd (he ▸ List.mem_cons_self) hnot
    · exact h.later s s' i hmem fun hin => hnot (List.mem_cons_of_mem _ hin)

theorem drop (h : Unescaped rest (n + 1) kept) (hmade : AllMadeBy Made rest)
    (hhead : (readOf rest).head? = some '<') : Unescaped (typed '\\' :: rest) n kept where
  sublist := h.sublist.cons _
  read := (if_pos ⟨rfl, hhead⟩).trans h.read
  escape := by
    intro s' i hmem hnot
    rcases List.mem_cons.mp hmem with he | hmem
    · obtain ⟨rfl, rfl⟩ := Prod.mk.inj he
      rw [Nat.sub_self]
      exact escapeAt_zero hmade hhead
    · exact h.later _ s' i hmem hnot

end Unescaped

theorem exists_unescaped : ∀ {l : List Source} (n : Nat), AllMadeBy Made l →
    ∃ kept, Unescaped l n kept
  | [], _, _ => ⟨[], List.Sublist.refl _, rfl, fun _ _ hmem => absurd hmem List.not_mem_nil⟩
  | typed c :: rest, n, hmade => by
      obtain ⟨kept, hkept⟩ := exists_unescaped (n + 1) hmade.tail
      by_cases hc : c = '\\' ∧ (readOf rest).head? = some '<'
      · obtain ⟨rfl, hhead⟩ := hc
        exact ⟨kept, hkept.drop hmade.tail hhead⟩
      · exact ⟨_, hkept.keep (if_neg hc)⟩
  | made written tag :: rest, n, hmade => by
      obtain ⟨kept, hkept⟩ := exists_unescaped (n + 1) hmade.tail
      have hbracketed := (hmade written tag List.mem_cons_self).bracketed
      refine ⟨_, hkept.keep ?_⟩
      show Token.unescape (tag ++ readOf rest) = tag ++ Token.unescape (readOf rest)
      rw [Token.unescape_append hbracketed.getLast?_ne,
        Token.unescape_of_no_slash hbracketed.no_slash]

/-! ## One token -/

/-- The pieces that one token is read from. -/
inductive OneToken : List Source → Token → Prop
  /-- A tag that was put in. -/
  | made {written tag : Text} {tok : Token} : ReadsAs tag tok → OneToken [made written tag] tok
  /-- A tag that was typed, perhaps around others. -/
  | tag {inner : List Source} {tok : Token} : (∀ raw, tok ≠ .text raw) →
      readOf (typed '<' :: inner) = tok.raw → OneToken (typed '<' :: inner) tok
  /-- A stretch of text. -/
  | text {l : List Source} : BehindSlash false l → OneToken l (.text (readOf l))

theorem OneToken.readOf_eq {l : List Source} {tok : Token} (h : OneToken l tok) :
    readOf l = tok.raw := by
  cases h with
  | made h => cases h <;> exact List.append_nil _
  | tag _ h => exact h
  | text _ => rfl

end Source

namespace Source

/-- The first token is read from whole pieces. -/
theorem exists_oneToken {s : Source} {l : List Source} (hmade : AllMadeBy Made (s :: l)) :
    ∃ more rest tok, l = more ++ rest ∧ OneToken (s :: more) tok
      ∧ Token.ofText (readOf (s :: l)) = tok :: Token.ofText (readOf rest) := by
  cases s with
  | made written tag =>
      have hm := hmade written tag List.mem_cons_self
      obtain ⟨tok, hreads, htag⟩ := hm.reads (readOf l)
      refine ⟨[], l, tok, rfl, .made hreads, ?_⟩
      obtain ⟨⟨content, rfl, -⟩, -⟩ := hm.bracketed
      rw [List.tail_cons] at htag
      show Token.ofText ('<' :: (content ++ ['>'] ++ readOf l)) = _
      rw [Token.ofText, Token.first_tag htag]
  | typed c =>
      show ∃ more rest tok, _ ∧ _ ∧ Token.ofText (c :: readOf l) = _
      rw [Token.ofText]
      by_cases hc : c = '<'
      · subst hc
        cases htag : Token.tag? (readOf l) with
        | none =>
            rw [Token.first_bracket htag]
            exact ⟨[], l, _, rfl, .text trivial, rfl⟩
        | some found =>
            obtain ⟨tok, behind⟩ := found
            obtain ⟨content, hcut, hcontent⟩ := Token.cutTag?_of_tag? htag
            obtain ⟨l₁, l₂, rfl, rfl, rfl⟩ := eq_of_cutTag? hmade.tail hcut
            rw [Token.first_tag htag]
            refine ⟨l₁ ++ [typed '>'], l₂, tok, List.append_cons _ _ _, ?_, rfl⟩
            refine .tag (Token.not_text_of_ofContent? hcontent) ?_
            rw [Token.raw_of_ofContent? hcontent]
            exact congrArg (List.cons '<') (readOf_append _ _)
      · obtain ⟨l₁, l₂, rfl, hcut, hslash⟩ := exists_cutText (c == '\\') hmade.tail
        rw [Token.first_text hc, Token.cutText_cons fun e => hc e.1, hcut]
        exact ⟨l₁, l₂, _, rfl, .text (l := typed c :: l₁) hslash, rfl⟩

end Source

/-! ## What is left over -/

/-- What players said with some tokens. -/
def Reading.behind (before : List Token) : Reading := before.foldl (Reading.step .restricted) {}

theorem Reading.behind_concat (before : List Token) (tok : Token) :
    behind (before ++ [tok]) = (behind before).step .restricted tok := List.foldl_concat ..

/-- A tag that is kept as text behind some tokens: one that means nothing to players, or
one that ends no open tag. -/
inductive KeptBehind (before : List Token) : Token → Prop
  | refused {tag : Tagged} : Draft.allowedTag? .restricted tag = none →
      KeptBehind before (.opening tag)
  | orphan {tag : Tagged} :
      truncate? tag.name (Reading.behind before).tags = none →
      KeptBehind before (.closing tag)

theorem KeptBehind.step {before : List Token} {tok : Token} (h : KeptBehind before tok) :
    (Reading.behind before).step .restricted tok = (Reading.behind before).emit tok.raw := by
  cases h with
  | refused h => exact Reading.step_refused h
  | orphan h => exact Reading.step_orphan h

/-- A tag that is not kept says nothing. -/
theorem said_step_of_not_kept {before : List Token} {tok : Token} (htok : ∀ raw, tok ≠ .text raw)
    (hkept : ¬KeptBehind before tok) :
    ((Reading.behind before).step .restricted tok).said = (Reading.behind before).said := by
  cases tok with
  | text raw => exact absurd rfl (htok raw)
  | opening tag =>
      cases hm : Draft.allowedTag? .restricted tag with
      | none => exact absurd (.refused hm) hkept
      | some meaning =>
          rw [Reading.step_opened hm]
          have hallowed := (Draft.allowedTag?_eq_some_iff.mp hm).2
          cases meaning with
          | newline => exact absurd hallowed Bool.false_ne_true
          | reset | color | decoration | fill | click | hover | insertion | font => rfl
  | closing tag =>
      cases hc : truncate? tag.name (Reading.behind before).tags with
      | none => exact absurd (.orphan hc) hkept
      | some kept => rw [Reading.step_closed hc]

namespace Source

/-- The token behind some others is read from the pieces behind some others. -/
structure TokenAt (l done piece : List Source) (before : List Token) (tok : Token) : Prop where
  pieces : done ++ piece <+: l
  tokens : before ++ [tok] <+: Token.ofText (readOf l)
  read_before : readOf done = before.flatMap Token.raw
  read : readOf piece = tok.raw

theorem TokenAt.getElem? {l done piece : List Source} {before : List Token} {tok : Token}
    (h : TokenAt l done piece before tok) {j : Nat} {s : Source} (hj : piece[j]? = some s) :
    l[done.length + j]? = some s := by
  obtain ⟨rest, rfl⟩ := h.pieces
  have hlt := (List.getElem?_eq_some_iff.mp hj).1
  rw [List.append_assoc, List.getElem?_append_right (Nat.le_add_right _ _),
    Nat.add_sub_cancel_left, List.getElem?_append_left hlt, hj]

theorem TokenAt.escapeAt {l done piece : List Source} {before : List Token} {tok : Token}
    (h : TokenAt l done piece before tok) {j : Nat} (hj : EscapeAt piece j) :
    EscapeAt l (done.length + j) := by
  obtain ⟨next, hnext, hhead⟩ := hj.bracket
  exact ⟨h.getElem? hj.slash, next, h.getElem? hnext, hhead⟩

/-- Why the tag that was put in at a place of some pieces is not obeyed. -/
inductive LeftOver (l : List Source) (i : Nat) : Prop
  /-- It stands directly behind a `\` that was typed. -/
  | escaped : 0 < i → l[i - 1]? = some (typed '\\') → LeftOver l i
  /-- It stands within a tag that was typed around it and is kept as text. -/
  | within {done inner : List Source} {before : List Token} {tok : Token} :
      TokenAt l done (typed '<' :: inner) before tok → KeptBehind before tok →
      done.length < i → i < done.length + (inner.length + 1) → LeftOver l i
  /-- It is the end of a gradient and ends nothing. -/
  | orphan {done : List Source} {written : Text} {before : List Token} {tok : Token} :
      TokenAt l done [made written Flag.closeTag] before tok → KeptBehind before tok →
      i = done.length → LeftOver l i

/-- Why a piece is not shown. -/
inductive Dropped (l : List Source) (i : Nat) : Prop
  /-- It belongs to a tag that is obeyed. -/
  | obeyed {done piece : List Source} {before : List Token} {tok : Token} :
      TokenAt l done piece before tok → (∀ raw, tok ≠ .text raw) → ¬KeptBehind before tok →
      done.length ≤ i → i < done.length + piece.length → Dropped l i
  /-- It is the `\` of an escape. -/
  | escape : EscapeAt l i → Dropped l i

/-! ## What is shown so far -/

/-- Some pieces have been read, and of these the ones in `shown` are shown, each listed
with its place. -/
structure ShownSoFar (l done todo : List Source) (before : List Token)
    (shown : List (Source × Nat)) : Prop where
  pieces : done ++ todo = l
  tokens : before ++ Token.ofText (readOf todo) = Token.ofText (readOf l)
  read : readOf done = before.flatMap Token.raw
  sublist : shown.Sublist done.zipIdx
  said : (Reading.behind before).said.flatMap Run.text = readOf (shown.map Prod.fst)
  leftOver : ∀ written tag i, (made written tag, i) ∈ shown → LeftOver l i
  dropped : ∀ s i, (s, i) ∈ done.zipIdx → (s, i) ∉ shown → Dropped l i

namespace ShownSoFar

variable {l done rest piece : List Source} {before : List Token} {tok : Token}
  {shown : List (Source × Nat)}

theorem tokenAt (h : ShownSoFar l done (piece ++ rest) before shown) (hone : OneToken piece tok)
    (hnext : Token.ofText (readOf (piece ++ rest)) = tok :: Token.ofText (readOf rest)) :
    TokenAt l done piece before tok where
  pieces := ⟨rest, by rw [List.append_assoc, h.pieces]⟩
  tokens := ⟨Token.ofText (readOf rest), by rw [← h.tokens, hnext, List.append_assoc]; rfl⟩
  read_before := h.read
  read := hone.readOf_eq

/-- One more token has been read, of which some pieces are shown. -/
theorem more (h : ShownSoFar l done (piece ++ rest) before shown) (hone : OneToken piece tok)
    (hnext : Token.ofText (readOf (piece ++ rest)) = tok :: Token.ofText (readOf rest))
    {new : List (Source × Nat)} (hsub : new.Sublist (piece.zipIdx done.length))
    (hsaid : ((Reading.behind before).step .restricted tok).said.flatMap Run.text
      = (Reading.behind before).said.flatMap Run.text ++ readOf (new.map Prod.fst))
    (hleft : ∀ written tag i, (made written tag, i) ∈ new → LeftOver l i)
    (hdrop : ∀ s i, (s, i) ∈ piece.zipIdx done.length → (s, i) ∉ new → Dropped l i) :
    ShownSoFar l (done ++ piece) rest (before ++ [tok]) (shown ++ new) where
  pieces := by rw [List.append_assoc, h.pieces]
  tokens := by rw [← h.tokens, hnext, List.append_assoc]; rfl
  read := by rw [readOf_append, h.read, hone.readOf_eq, List.flatMap_append,
    List.flatMap_singleton]
  sublist := by
    rw [List.zipIdx_append, Nat.zero_add]
    exact h.sublist.append hsub
  said := by
    rw [Reading.behind_concat, List.map_append, readOf_append, ← h.said, hsaid]
  leftOver := by
    intro written tag i hmem
    rcases List.mem_append.mp hmem with hmem | hmem
    · exact h.leftOver written tag i hmem
    · exact hleft written tag i hmem
  dropped := by
    intro s i hmem hnot
    rw [List.zipIdx_append, Nat.zero_add] at hmem
    rw [List.mem_append, not_or] at hnot
    rcases List.mem_append.mp hmem with hmem | hmem
    · exact h.dropped s i hmem hnot.1
    · exact hdrop s i hmem hnot.2

/-- A tag that is kept is shown with all its pieces. -/
theorem leftOver_of_kept (hat : TokenAt l done piece before tok) (hone : OneToken piece tok)
    (htok : ∀ raw, tok ≠ .text raw) (hkept : KeptBehind before tok) {written tag : Text} {i : Nat}
    (hmem : (made written tag, i) ∈ piece.zipIdx done.length) : LeftOver l i := by
  obtain ⟨hle, hi⟩ := List.mk_mem_zipIdx_iff_le_and_getElem?_sub.mp hmem
  cases hone with
  | text _ => exact absurd rfl (htok _)
  | @tag inner _ _ _ =>
      -- the `<` in front was typed, so the place is one behind it
      have hlt := (List.getElem?_eq_some_iff.mp hi).1
      rw [List.length_cons] at hlt
      refine .within hat hkept (Nat.lt_of_le_of_ne hle fun e => ?_) (by omega)
      rw [← e, Nat.sub_self] at hi
      cases hi
  | made hreads =>
      have hzero : i = done.length := by
        have hlt := (List.getElem?_eq_some_iff.mp hi).1
        rw [List.length_singleton] at hlt
        omega
      cases hreads with
      | opening hallowed =>
          cases hkept with
          | refused hrefused =>
              rw [hallowed] at hrefused
              cases hrefused
      | closing hclose =>
          rw [hclose] at hat
          exact .orphan hat hkept hzero

/-- Within a stretch of text, a tag that was put in stands behind a `\`. -/
theorem leftOver_of_text (hat : TokenAt l done piece before tok) (hslash : BehindSlash false piece)
    {written tag : Text} {i : Nat} (hmem : (made written tag, i) ∈ piece.zipIdx done.length) :
    LeftOver l i := by
  obtain ⟨hle, hi⟩ := List.mk_mem_zipIdx_iff_le_and_getElem?_sub.mp hmem
  rcases hslash.getElem? hi with ⟨-, hfalse⟩ | ⟨j, hj, hslash⟩
  · cases hfalse
  · have hpred : i - 1 = done.length + j := by omega
    exact .escaped (by omega) (hpred ▸ hat.getElem? hslash)

/-- One token.  A stretch of text shows all but its escapes, a tag all or nothing. -/
theorem step (h : ShownSoFar l done (piece ++ rest) before shown) (hmade : AllMadeBy Made piece)
    (hone : OneToken piece tok)
    (hnext : Token.ofText (readOf (piece ++ rest)) = tok :: Token.ofText (readOf rest)) :
    ∃ new, ShownSoFar l (done ++ piece) rest (before ++ [tok]) (shown ++ new) := by
  have hat := h.tokenAt hone hnext
  by_cases htext : ∃ raw, tok = .text raw
  · obtain ⟨raw, rfl⟩ := htext
    cases hone with
    | made hreads => cases hreads
    | tag htok _ => exact absurd rfl (htok _)
    | text hslash =>
        obtain ⟨new, hnew⟩ := exists_unescaped done.length hmade
        refine ⟨new, h.more (.text hslash) hnext hnew.sublist ?_ ?_ ?_⟩
        · rw [← hnew.read]
          exact Reading.flatMap_text_emit _ _
        · intro written tag i hmem
          exact leftOver_of_text hat hslash (hnew.sublist.subset hmem)
        · intro s i hmem hnot
          have hle := List.le_snd_of_mem_zipIdx hmem
          have hescape := hat.escapeAt (hnew.escape s i hmem hnot)
          rw [Nat.add_sub_cancel' hle] at hescape
          exact .escape hescape
  · have htok : ∀ raw, tok ≠ .text raw := fun raw he => htext ⟨raw, he⟩
    by_cases hkept : KeptBehind before tok
    · refine ⟨piece.zipIdx done.length, h.more hone hnext (List.Sublist.refl _) ?_ ?_ ?_⟩
      · rw [hkept.step, List.zipIdx_map_fst, hone.readOf_eq, Reading.flatMap_text_emit]
      · exact fun written tag i hmem => leftOver_of_kept hat hone htok hkept hmem
      · exact fun s i hmem hnot => absurd hmem hnot
    · refine ⟨[], h.more hone hnext (List.nil_sublist _) ?_ ?_ ?_⟩
      · rw [said_step_of_not_kept htok hkept]
        exact (List.append_nil _).symm
      · exact fun _ _ _ hmem => absurd hmem List.not_mem_nil
      · intro s i hmem _
        have hbounds := List.mem_zipIdx hmem
        exact .obeyed hat htok hkept hbounds.1 hbounds.2.1

/-- All tokens. -/
theorem run : ∀ {todo done : List Source} {before : List Token} {shown : List (Source × Nat)},
    AllMadeBy Made todo → ShownSoFar l done todo before shown →
      ∃ tokens shown, ShownSoFar l l [] tokens shown
  | [], done, before, shown, _, h => by
      have hdone : done = l := by rw [← h.pieces, List.append_nil]
      exact ⟨before, shown, hdone ▸ h⟩
  | s :: todo, done, before, shown, hmade, h => by
      obtain ⟨more, rest, tok, htodo, hone, hnext⟩ := exists_oneToken hmade
      have hshorter : rest.length < (s :: todo).length := by
        rw [htodo, List.length_cons, List.length_append]
        omega
      rw [htodo, ← List.cons_append] at hmade h hnext
      obtain ⟨new, hnew⟩ := h.step hmade.left hone hnext
      exact run hmade.right hnew
termination_by todo => todo.length

end ShownSoFar

/-- Some pieces say some of them: the tags among these are left over, and the others are
dropped. -/
theorem exists_shown {l : List Source} (hmade : AllMadeBy Made l) :
    ∃ shown : List (Source × Nat), shown.Sublist l.zipIdx
      ∧ (interpret .restricted (readOf l)).flatMap Run.text = readOf (shown.map Prod.fst)
      ∧ (∀ written tag i, (made written tag, i) ∈ shown → LeftOver l i)
      ∧ ∀ s i, l[i]? = some s → (s, i) ∉ shown → Dropped l i := by
  have hstart : ShownSoFar l [] l [] [] :=
    ⟨rfl, rfl, rfl, List.Sublist.refl _, rfl, fun _ _ _ hmem => absurd hmem List.not_mem_nil,
      fun _ _ hmem => absurd hmem List.not_mem_nil⟩
  obtain ⟨tokens, shown, hend⟩ := hstart.run hmade
  have htokens : tokens = Token.ofText (readOf l) := by
    rw [← hend.tokens, show readOf [] = [] from rfl, Token.ofText, List.append_nil]
  refine ⟨shown, hend.sublist, ?_, hend.leftOver, fun s i hi hnot => ?_⟩
  · rw [interpret, ← htokens, ← hend.said, Reading.behind]
  · exact hend.dropped s i (List.mk_mem_zipIdx_iff_getElem?.mpr hi) hnot

theorem readOf_eq_writtenOf {l : List Source} (h : ∀ written tag, made written tag ∉ l) :
    readOf l = writtenOf l := by
  induction l with
  | nil => rfl
  | cons s rest ih =>
      have hrest := ih fun written tag hmem => h written tag (List.mem_cons_of_mem s hmem)
      cases s with
      | typed c => exact congrArg (List.cons c) hrest
      | made written tag => exact absurd List.mem_cons_self (h written tag)

theorem mem_writtenOf {l : List Source} {s : Source} {c : Char} (hs : s ∈ l)
    (hc : c ∈ s.written) : c ∈ writtenOf l := List.mem_flatMap.mpr ⟨s, hs, hc⟩

/-- Nothing is left over where neither a `<` nor a `\` was typed. -/
theorem not_leftOver {l : List Source} (hmade : AllMadeBy Made l) (hopen : '<' ∉ writtenOf l)
    (hslash : '\\' ∉ writtenOf l) (i : Nat) : ¬LeftOver l i := by
  intro h
  cases h with
  | escaped _ hi =>
      exact hslash (mem_writtenOf (List.mem_of_getElem? hi) (List.mem_singleton_self _))
  | @within _ inner _ _ hat _ _ _ =>
      have hmem : typed '<' ∈ l :=
        hat.pieces.subset (List.mem_append_right _ List.mem_cons_self)
      exact hopen (mem_writtenOf hmem (List.mem_singleton_self _))
  | @orphan _ written _ _ hat _ _ =>
      have hmem : made written Flag.closeTag ∈ l :=
        hat.pieces.subset (List.mem_append_right _ List.mem_cons_self)
      exact hopen (mem_writtenOf hmem (hmade _ _ hmem).bracket_mem_of_closeTag)

/-- Where nothing is left over, nothing is said that was not typed. -/
theorem said_sublist {l : List Source} (hmade : AllMadeBy Made l)
    (hnone : ∀ written tag i, l[i]? = some (made written tag) → ¬LeftOver l i) :
    ((interpret .restricted (readOf l)).flatMap Run.text).Sublist (writtenOf l) := by
  obtain ⟨shown, hsub, hsaid, hleft, -⟩ := exists_shown hmade
  have htyped : ∀ written tag, made written tag ∉ shown.map Prod.fst := by
    intro written tag hmem
    obtain ⟨⟨_, i⟩, hmem, rfl⟩ := List.mem_map.mp hmem
    have hi := (List.mk_mem_zipIdx_iff_le_and_getElem?_sub.mp (hsub.subset hmem)).2
    exact hnone written tag i hi (hleft written tag i hmem)
  have hpieces := hsub.map Prod.fst
  rw [List.zipIdx_map_fst] at hpieces
  rw [hsaid, readOf_eq_writtenOf htyped]
  exact hpieces.flatMap written

end Source

/-! ## A whole message -/

open Source

/-- The plain text of a message is made up of some of its pieces in their order, each as
it is read.  A tag that a pass put in is among them only where it is left over: behind a
`\`, within a tag that is kept as text, or as the end of a gradient that ends nothing.
What is not among them belongs to a tag that is obeyed or escapes a `<`.

So a message in which no tag is left over shows nothing but what was typed; such are all
without mixing, and all in which neither a `<` nor a `\` was typed. -/
theorem plainText_messageTree (raw : Text) (mixing : Bool) :
    (writtenOf (messageSources raw mixing) = raw
        ∧ readOf (messageSources raw mixing) = preparedMarkup raw mixing
        ∧ AllMadeBy Made (messageSources raw mixing))
      ∧ (∃ shown : List (Source × Nat), shown.Sublist (messageSources raw mixing).zipIdx
          ∧ (messageTree (some raw) mixing).plainText = readOf (shown.map Prod.fst)
          ∧ (∀ written tag i, (made written tag, i) ∈ shown →
              LeftOver (messageSources raw mixing) i)
          ∧ ∀ s i, (messageSources raw mixing)[i]? = some s → (s, i) ∉ shown →
              Dropped (messageSources raw mixing) i)
      ∧ ((∀ written tag i, (messageSources raw mixing)[i]? = some (made written tag) →
            ¬LeftOver (messageSources raw mixing) i) →
          (messageTree (some raw) mixing).plainText.Sublist raw)
      ∧ (mixing = false ∨ '<' ∉ raw ∧ '\\' ∉ raw →
          (messageTree (some raw) mixing).plainText.Sublist raw) := by
  obtain ⟨hwritten, hread, hmade⟩ := messageSources_spec raw mixing
  have hplain : (messageTree (some raw) mixing).plainText
      = (interpret .restricted (readOf (messageSources raw mixing))).flatMap Run.text := by
    rw [hread]
    exact plainText_parse _ _
  have hnone : (∀ written tag i, (messageSources raw mixing)[i]? = some (made written tag) →
      ¬LeftOver (messageSources raw mixing) i) →
        (messageTree (some raw) mixing).plainText.Sublist raw := by
    intro hnone
    have hsub := said_sublist hmade hnone
    rwa [← hplain, hwritten] at hsub
  refine ⟨⟨hwritten, hread, hmade⟩, ?_, hnone, ?_⟩
  · rw [hplain]
    exact exists_shown hmade
  · rintro (rfl | ⟨hopen, hslash⟩)
    · refine hnone fun written tag i hi => ?_
      obtain ⟨_, -, he⟩ := List.mem_map.mp (List.mem_of_getElem? hi)
      cases he
    · refine hnone fun written tag i _ => not_leftOver hmade ?_ ?_ i
      · rwa [hwritten]
      · rwa [hwritten]

/-- Behind a `\`, the tag of a code is shown. -/
theorem code_shown_behind_slash :
    (messageTree (some "\\&c".toList) true).plainText = "<red>".toList
      ∧ ¬(messageTree (some "\\&c".toList) true).plainText.Sublist "\\&c".toList := by
  decide +kernel

example : (messageTree (some "&chi <pride>you</pride>".toList) true).plainText
    = "hi you".toList := by
  decide +kernel

end StyledChat
