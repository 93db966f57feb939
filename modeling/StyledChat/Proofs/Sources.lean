/-
Where the text that is read comes from.

With mixing on, what is read of a message is not what was typed: the passes put tags in
the place of codes and flags.  `messageSources` cuts a message into pieces, each of them
a character that is read as it was typed or a code or flag with the tag that is read in
its place.  The pieces as typed are the message, and as read they are the text that is
read of it (`messageSources_spec`).
-/
import StyledChat.Chat.Render
import StyledChat.Proofs.MadeTags

namespace StyledChat

/-- A piece of a message: a character that is read as it was typed, or a stretch of text
for which a tag is read. -/
inductive Source where
  | typed (c : Char)
  | made (written tag : Text)
deriving DecidableEq

namespace Source

/-- The piece as it was typed. -/
def written : Source → Text
  | typed c => [c]
  | made written _ => written

/-- The piece as it is read. -/
def read : Source → Text
  | typed c => [c]
  | made _ tag => tag

/-- Some pieces as they were typed. -/
def writtenOf (l : List Source) : Text := l.flatMap written

/-- Some pieces as they are read. -/
def readOf (l : List Source) : Text := l.flatMap read

/-- Whatever is not read as it was typed makes its tag in a given way. -/
def AllMadeBy (R : Text → Text → Prop) (l : List Source) : Prop :=
  ∀ written tag, made written tag ∈ l → R written tag

namespace AllMadeBy

variable {R R' : Text → Text → Prop} {l l' : List Source}

theorem mono (h : AllMadeBy R l) (hR : ∀ written tag, R written tag → R' written tag) :
    AllMadeBy R' l := fun written tag hmem => hR written tag (h written tag hmem)

theorem tail {s : Source} (h : AllMadeBy R (s :: l)) : AllMadeBy R l :=
  fun written tag hmem => h written tag (List.mem_cons_of_mem s hmem)

theorem left (h : AllMadeBy R (l ++ l')) : AllMadeBy R l :=
  fun written tag hmem => h written tag (List.mem_append_left l' hmem)

theorem right (h : AllMadeBy R (l ++ l')) : AllMadeBy R l' :=
  fun written tag hmem => h written tag (List.mem_append_right l hmem)

theorem nil : AllMadeBy R [] := fun _ _ hmem => absurd hmem List.not_mem_nil

theorem typed (h : AllMadeBy R l) (c : Char) : AllMadeBy R (.typed c :: l) := by
  intro written tag hmem
  rcases List.mem_cons.mp hmem with he | hmem
  · cases he
  · exact h written tag hmem

theorem made (h : AllMadeBy R l) {written tag : Text} (hmade : R written tag) :
    AllMadeBy R (.made written tag :: l) := by
  intro written' tag' hmem
  rcases List.mem_cons.mp hmem with he | hmem
  · obtain ⟨rfl, rfl⟩ := Source.made.inj he
    exact hmade
  · exact h written' tag' hmem

theorem map_typed : ∀ t : Text, AllMadeBy R (t.map .typed)
  | [] => nil
  | c :: rest => (map_typed rest).typed c

end AllMadeBy

theorem readOf_append (l l' : List Source) : readOf (l ++ l') = readOf l ++ readOf l' :=
  List.flatMap_append

theorem writtenOf_take_append_drop (l : List Source) (n : Nat) :
    writtenOf (l.take n) ++ writtenOf (l.drop n) = writtenOf l := by
  rw [writtenOf, writtenOf, ← List.flatMap_append, List.take_append_drop, writtenOf]

theorem writtenOf_typed (t : Text) : writtenOf (t.map typed) = t := by
  induction t with
  | nil => rfl
  | cons c rest ih => exact congrArg (List.cons c) ih

theorem readOf_typed (t : Text) : readOf (t.map typed) = t := by
  induction t with
  | nil => rfl
  | cons c rest ih => exact congrArg (List.cons c) ih

/-- What is read before the first `<` is read as it was typed. -/
theorem eq_of_readOf_append {p u : Text} (hp : '<' ∉ p) : ∀ {l : List Source}, AllMadeBy Made l →
    readOf l = p ++ u → ∃ l', l = p.map typed ++ l' ∧ readOf l' = u := by
  induction p with
  | nil => exact fun {l} _ h => ⟨l, rfl, h⟩
  | cons c rest ih =>
      intro l hmade h
      cases l with
      | nil => cases h
      | cons s l' =>
          cases s with
          | typed d =>
              obtain ⟨rfl, hrest⟩ := List.cons.inj h
              obtain ⟨l'', rfl, hl''⟩ := ih (fun hmem => hp (List.mem_cons_of_mem _ hmem))
                hmade.tail hrest
              exact ⟨l'', rfl, hl''⟩
          | made written tag =>
              obtain ⟨⟨content, rfl, -⟩, -⟩ := (hmade written tag List.mem_cons_self).bracketed
              have hc : '<' = c := (List.cons.inj h).1
              exact absurd (hc ▸ List.mem_cons_self) hp

end Source

/-! ## Codes -/

namespace LegacyCode

open Source

/-- The tag that a text with a code in front makes, and how many characters of the text
behind its first are a part of the code. -/
def made? (c : Char) (rest : Text) : Option (Text × Nat) :=
  if c ≠ '&' then none
  else if startsWithHex rest then some ('<' :: (rest.take 7 ++ ['>']), 7)
  else (rest.head?.bind tag?).map fun tag => (tag, 1)

/-- The pieces of a text in which codes are looked for. -/
def sources : Text → List Source
  | [] => []
  | c :: rest =>
    match made? c rest with
    | some (tag, taken) => made (c :: rest.take taken) tag :: sources (rest.drop taken)
    | none => typed c :: sources rest
termination_by t => t.length
decreasing_by
  · rw [List.length_drop, List.length_cons]
    omega
  · exact Nat.lt_succ_self _

theorem sources_made {c : Char} {rest tag : Text} {taken : Nat}
    (h : made? c rest = some (tag, taken)) : sources (c :: rest)
      = made (c :: rest.take taken) tag :: sources (rest.drop taken) := by
  rw [sources, h]

theorem sources_typed {c : Char} {rest : Text} (h : made? c rest = none) :
    sources (c :: rest) = typed c :: sources rest := by
  rw [sources, h]

theorem made?_other {c : Char} (h : c ≠ '&') (rest : Text) : made? c rest = none := if_pos h

theorem made?_hex {digits : Text} (h : IsHexCode digits) (behind : Text) :
    made? '&' ('#' :: (digits ++ behind)) = some ('<' :: '#' :: (digits ++ ['>']), 7) := by
  rw [made?, if_neg (not_not_intro rfl), if_pos (h.startsWithHex behind), h.take]
  rfl

theorem made?_code {code : Char} {tag : Text} (h : tag? code = some tag) (behind : Text) :
    made? '&' (code :: behind) = some (tag, 1) := by
  rw [made?, if_neg (not_not_intro rfl), if_neg (not_startsWithHex h behind), List.head?_cons,
    Option.bind_some, h]
  rfl

theorem made?_kept {rest : Text} (h : KeepsAmp rest) : made? '&' rest = none := by
  have hnone : rest.head?.bind tag? = none := Option.bind_eq_none_iff.mpr h.2
  rw [made?, if_neg (not_not_intro rfl), if_neg h.1, hnone]
  rfl

theorem writtenOf_sources (t : Text) : writtenOf (sources t) = t := by
  induction t using sources.induct with
  | case1 => rw [sources]; rfl
  | case2 c rest tag taken hmade ih =>
      rw [sources_made hmade]
      show (c :: rest.take taken) ++ writtenOf (sources (rest.drop taken)) = _
      rw [ih, List.cons_append, List.take_append_drop]
  | case3 c rest hmade ih =>
      rw [sources_typed hmade]
      exact congrArg (List.cons c) ih

theorem readOf_sources (t : Text) : readOf (sources t) = toTags t := by
  induction t using LegacyCode.induction with
  | nil => rw [sources, toTags_nil]; rfl
  | other c rest hc ih =>
      rw [sources_typed (made?_other hc rest), toTags_other hc]
      exact congrArg (List.cons c) ih
  | hex digits behind hhex ih =>
      rw [sources_made (made?_hex hhex behind), hhex.drop, toTags_hex hhex, ← ih]
      show '<' :: '#' :: (digits ++ ['>'] ++ readOf (sources behind)) = _
      rw [List.append_assoc]
      rfl
  | code code tag behind htag ih =>
      rw [sources_made (made?_code htag behind), toTags_code htag]
      exact congrArg (tag ++ ·) ih
  | kept rest hkeeps ih =>
      rw [sources_typed (made?_kept hkeeps), toTags_kept hkeeps]
      exact congrArg (List.cons '&') ih

theorem allMadeBy_sources (t : Text) : AllMadeBy MadeOfCode (sources t) := by
  induction t using LegacyCode.induction with
  | nil =>
      rw [sources]
      exact .nil
  | other c rest hc ih =>
      rw [sources_typed (made?_other hc rest)]
      exact ih.typed c
  | hex digits behind hhex ih =>
      rw [sources_made (made?_hex hhex behind), hhex.take, hhex.drop]
      exact ih.made (.hex hhex)
  | code code tag behind htag ih =>
      rw [sources_made (made?_code htag behind)]
      exact ih.made (.named htag)
  | kept rest hkeeps ih =>
      rw [sources_typed (made?_kept hkeeps)]
      exact ih.typed '&'

end LegacyCode

/-! ## Flags -/

namespace Flag

open Source

/-- The tag that some pieces with a shorthand tag in front make, how many flags are
pending behind it, and how many pieces behind the first are a part of it. -/
def made? (pending : Nat) (s : Source) (rest : List Source) : Option (Text × Nat × Nat) :=
  if s ≠ typed '<' then none
  else (bracketed? (readOf rest)).bind fun (inner, _) =>
    (expansion? pending inner).map fun (tag, later) => (tag, later, inner.length + 1)

/-- The pieces of a text in which flags are looked for. -/
def sources (pending : Nat) : List Source → List Source
  | [] => []
  | s :: rest =>
    match made? pending s rest with
    | some (tag, later, taken) =>
      made (writtenOf (s :: rest.take taken)) tag :: sources later (rest.drop taken)
    | none => s :: sources pending rest
termination_by l => l.length
decreasing_by
  · rw [List.length_drop, List.length_cons]
    omega
  · exact Nat.lt_succ_self _

theorem sources_made {pending later taken : Nat} {s : Source} {rest : List Source} {tag : Text}
    (h : made? pending s rest = some (tag, later, taken)) : sources pending (s :: rest)
      = made (writtenOf (s :: rest.take taken)) tag :: sources later (rest.drop taken) := by
  rw [sources, h]

theorem sources_kept {pending : Nat} {s : Source} {rest : List Source}
    (h : made? pending s rest = none) :
    sources pending (s :: rest) = s :: sources pending rest := by
  rw [sources, h]

/-- What is expanded was typed, from its `<` to its `>`. -/
theorem eq_of_made? {pending later taken : Nat} {s : Source} {rest : List Source} {tag : Text}
    (hrest : AllMadeBy Made rest) (h : made? pending s rest = some (tag, later, taken)) :
    ∃ inner behind, s = typed '<' ∧ NoBracket inner
      ∧ rest = (inner ++ ['>']).map typed ++ behind ∧ taken = (inner ++ ['>']).length
      ∧ expansion? pending inner = some (tag, later) := by
  unfold made? at h
  split at h
  · cases h
  · next hs =>
      obtain ⟨⟨inner, behind⟩, hbracketed, h⟩ := Option.bind_eq_some_iff.mp h
      obtain ⟨⟨tag', later'⟩, hexpansion, he⟩ := Option.map_eq_some_iff.mp h
      obtain ⟨rfl, hlater⟩ := Prod.mk.inj he
      obtain ⟨rfl, rfl⟩ := Prod.mk.inj hlater
      obtain ⟨hfree, hread⟩ := eq_of_bracketed? hbracketed
      rw [List.append_cons] at hread
      obtain ⟨l', hl', -⟩ := eq_of_readOf_append hfree.not_mem_concat hrest hread
      exact ⟨inner, l', not_not.mp hs, hfree, hl', by rw [List.length_append]; rfl, hexpansion⟩

theorem takes_typed (t : Text) (l : List Source) :
    (t.map typed ++ l).take t.length = t.map typed ∧ (t.map typed ++ l).drop t.length = l :=
  ⟨List.take_left' (List.length_map _), List.drop_left' (List.length_map _)⟩

theorem keepsBracket_of_made? {pending : Nat} {rest : List Source}
    (h : made? pending (typed '<') rest = none) : KeepsBracket pending (readOf rest) := by
  intro inner behind hbracketed
  rw [made?, if_neg (not_not_intro rfl), hbracketed] at h
  exact Option.map_eq_none_iff.mp h

theorem writtenOf_sources (pending : Nat) (l : List Source) :
    writtenOf (sources pending l) = writtenOf l := by
  induction pending, l using sources.induct with
  | case1 pending => rw [sources]
  | case2 pending s rest tag later taken hmade ih =>
      rw [sources_made hmade]
      show s.written ++ writtenOf (rest.take taken) ++ writtenOf (sources later _) = _
      rw [ih, List.append_assoc, writtenOf_take_append_drop]
      rfl
  | case3 pending s rest hmade ih =>
      rw [sources_kept hmade]
      exact congrArg (s.written ++ ·) ih

theorem readOf_sources (pending : Nat) (l : List Source) (h : AllMadeBy MadeOfCode l) :
    readOf (sources pending l) = expandFrom pending (readOf l) := by
  induction pending, l using sources.induct with
  | case1 pending => rw [sources]; exact (expandFrom_nil pending).symm
  | case2 pending s rest tag later taken hmade ih =>
      rw [sources_made hmade]
      have hrest : AllMadeBy Made rest := h.tail.mono fun _ _ => .code
      obtain ⟨inner, behind, rfl, hfree, rfl, rfl, hexpansion⟩ := eq_of_made? hrest hmade
      rw [(takes_typed (inner ++ ['>']) behind).2] at ih ⊢
      have hread : readOf (typed '<' :: ((inner ++ ['>']).map typed ++ behind))
          = '<' :: (inner ++ '>' :: readOf behind) := by
        show '<' :: readOf (_ ++ _) = _
        rw [readOf_append, readOf_typed, List.append_assoc]
        rfl
      rw [hread, expandFrom_expanded hfree hexpansion, ← ih h.tail.right]
      rfl
  | case3 pending s rest hmade ih =>
      rw [sources_kept hmade]
      show s.read ++ readOf (sources pending rest) = expandFrom pending (s.read ++ readOf rest)
      rw [ih h.tail]
      cases s with
      | typed c =>
          by_cases hc : c = '<'
          · subst hc
            exact (expandFrom_kept (keepsBracket_of_made? hmade)).symm
          · exact (expandFrom_other hc pending _).symm
      | made written tag =>
          exact ((h written tag List.mem_cons_self).expandFrom_append pending _).symm

theorem allMadeBy_sources (pending : Nat) (l : List Source) (h : AllMadeBy Made l) :
    AllMadeBy Made (sources pending l) := by
  induction pending, l using sources.induct with
  | case1 pending =>
      rw [sources]
      exact .nil
  | case2 pending s rest tag later taken hmade ih =>
      rw [sources_made hmade]
      obtain ⟨inner, behind, rfl, hfree, rfl, rfl, hexpansion⟩ := eq_of_made? h.tail hmade
      have htake := takes_typed (inner ++ ['>']) behind
      have hwritten : writtenOf (typed '<' :: (inner ++ ['>']).map typed)
          = '<' :: (inner ++ ['>']) := congrArg (List.cons '<') (writtenOf_typed _)
      rw [htake.2] at ih
      rw [htake.1, htake.2, hwritten]
      exact (ih h.tail.right).made (.flag hfree hexpansion)
  | case3 pending s rest hmade ih =>
      rw [sources_kept hmade]
      cases s with
      | typed c => exact (ih h.tail).typed c
      | made written tag => exact (ih h.tail).made (h written tag List.mem_cons_self)

end Flag

/-! ## A whole message -/

/-- The pieces of a message. -/
def messageSources (raw : Text) (mixing : Bool) : List Source :=
  if mixing then Flag.sources 0 (LegacyCode.sources raw) else raw.map Source.typed

/-- The pieces as they were typed are the message, as they are read they are the text
that is read of it, and every tag among them is that of its code or flag. -/
theorem messageSources_spec (raw : Text) (mixing : Bool) :
    Source.writtenOf (messageSources raw mixing) = raw
      ∧ Source.readOf (messageSources raw mixing) = preparedMarkup raw mixing
      ∧ Source.AllMadeBy Made (messageSources raw mixing) := by
  cases mixing with
  | false => exact ⟨Source.writtenOf_typed raw, Source.readOf_typed raw, .map_typed raw⟩
  | true =>
      have hcodes := LegacyCode.allMadeBy_sources raw
      refine ⟨?_, ?_, Flag.allMadeBy_sources 0 _ (hcodes.mono fun _ _ => .code)⟩
      · exact (Flag.writtenOf_sources 0 _).trans (LegacyCode.writtenOf_sources raw)
      · refine (Flag.readOf_sources 0 _ hcodes).trans ?_
        rw [LegacyCode.readOf_sources]
        rfl

end StyledChat
