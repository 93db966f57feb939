/-
Tags as they are written.

A tag is written as its name and its arguments, each argument behind a colon and
either bare or between quotes (`TagForm`).  Two scanners read it, one for the end of
the tag and one for its arguments, and each of them passes over an argument on its
own: from outside the quotes to outside (`Passes.written`), and from a fresh argument
to its value (`splitAtColons_written`).  Together they find the tag as written,
whatever text follows (`TagForm.tag?_opening`, `TagForm.tag?_closing`).
-/
import StyledChat.Proofs.Tokens

namespace StyledChat

/-! ## Written forms -/

/-- The text with a `\` before every `\` and before every quote of this kind. -/
def Quote.escape (q : Quote) (t : Text) : Text :=
  t.flatMap fun c => if c = '\\' ∨ c = q.char then ['\\', c] else [c]

theorem Quote.escape_cons (q : Quote) (c : Char) (rest : Text) : q.escape (c :: rest)
    = (if c = '\\' ∨ c = q.char then ['\\', c] else [c]) ++ q.escape rest :=
  List.flatMap_cons

/-- What is checked of one character after the other holds of each. -/
theorem Text.forall_mem_of_all {p : Char → Prop} [DecidablePred p] {t : Text}
    (h : t.all fun c => p c) : ∀ c ∈ t, p c :=
  fun c hc => of_decide_eq_true (List.all_eq_true.mp h c hc)

/-- Neither a quote nor a `\`. -/
def Token.IsUnquoted (c : Char) : Prop := c ≠ '\\' ∧ ∀ q : Quote, c ≠ q.char

instance (c : Char) : Decidable (Token.IsUnquoted c) :=
  decidable_of_iff (c ≠ '\\' ∧ c ≠ Quote.single.char ∧ c ≠ Quote.double.char)
    ⟨fun h => ⟨h.1, fun q => match q with | .single => h.2.1 | .double => h.2.2⟩,
      fun h => ⟨h.1, h.2 .single, h.2 .double⟩⟩

namespace Quote

variable {q : Quote}

/-- Whether a character is escaped between quotes. -/
def Escapes (q : Quote) (c : Char) : Prop := c = '\\' ∨ c = q.char

theorem not_escapes {c : Char} (h : Token.IsUnquoted c) : ¬q.Escapes c := by
  rintro (hslash | hquote)
  · exact h.1 hslash
  · exact h.2 q hquote

theorem escape_append (t u : Text) : q.escape (t ++ u) = q.escape t ++ q.escape u :=
  List.flatMap_append

theorem escape_of_escapes {c : Char} (h : q.Escapes c) (rest : Text) :
    q.escape (c :: rest) = '\\' :: c :: q.escape rest := by
  rw [escape_cons]
  exact congrArg (· ++ q.escape rest) (if_pos h)

theorem escape_of_not_escapes {c : Char} (h : ¬q.Escapes c) (rest : Text) :
    q.escape (c :: rest) = c :: q.escape rest := by
  rw [escape_cons]
  exact congrArg (· ++ q.escape rest) (if_neg h)

theorem escape_eq_self {t : Text} (h : ∀ c ∈ t, Token.IsUnquoted c) : q.escape t = t := by
  induction t with
  | nil => rfl
  | cons c rest ih =>
      rw [escape_of_not_escapes (not_escapes (h c List.mem_cons_self)),
        ih fun d hd => h d (List.mem_cons_of_mem c hd)]

end Quote

/-- Whether a character means nothing to the scanners of a tag. -/
def Token.isBareChar (c : Char) : Bool :=
  c != ':' && c != '<' && c != '>' && (Quote.ofChar? c).isNone

theorem Token.isBareChar_iff {c : Char} :
    isBareChar c ↔ c ≠ ':' ∧ c ≠ '<' ∧ c ≠ '>' ∧ Quote.ofChar? c = none := by
  simp [isBareChar, and_assoc]

/-- An argument as it is written. -/
inductive Argument where
  | bare (word : Text) (h : word.all Token.isBareChar)
  | quoted (q : Quote) (t : Text)

namespace Argument

/-- What the argument says. -/
def value : Argument → Text
  | bare word _ => word
  | quoted _ t => t

def written : Argument → Text
  | bare word _ => word
  | quoted q t => q.char :: (q.escape t ++ [q.char])

/-- Arguments one after the other, each behind a colon. -/
def writtenAll (args : List Argument) : Text := args.flatMap fun a => ':' :: a.written

theorem writtenAll_cons (a : Argument) (rest : List Argument) :
    writtenAll (a :: rest) = ':' :: (a.written ++ writtenAll rest) :=
  List.flatMap_cons

end Argument

/-- A tag as it is written, with a name that a tag can have. -/
structure TagForm where
  name : Text
  args : List Argument
  named : Token.isName name

namespace TagForm

/-- What stands between the brackets of an opening tag. -/
def content (f : TagForm) : Text := f.name ++ Argument.writtenAll f.args

def opening (f : TagForm) : Text := '<' :: (f.content ++ ['>'])

def closing (f : TagForm) : Text := '<' :: '/' :: (f.content ++ ['>'])

def values (f : TagForm) : List Text := f.args.map Argument.value

end TagForm

/-! ## The end of a tag -/

namespace Token

/-- The search for the end of a tag passes over `p`, and stands at `after` behind it. -/
def Passes (place : Quoting) (p : Text) (after : Quoting) : Prop :=
  ∀ u : Text, cutTag? place (p ++ u) = (cutTag? after u).map fun a => (p ++ a.1, a.2)

namespace Passes

theorem nil (place : Quoting) : Passes place [] place := fun u =>
  (Option.map_id' (x := cutTag? place u)).symm

theorem append {place between after : Quoting} {p p' : Text} (h : Passes place p between)
    (h' : Passes between p' after) : Passes place (p ++ p') after := by
  intro u
  rw [List.append_assoc, h, h', Option.map_map]
  refine congrArg (Option.map · _) (funext fun a => ?_)
  exact congrArg (·, a.2) (List.append_assoc p p' a.1).symm

theorem inside (q : Quote) (c : Char) :
    Passes (.inside q) [c] ((Quoting.inside q).step c) :=
  cutTag?_quoted Quoting.noConfusion c

theorem escaped (q : Quote) (c : Char) : Passes (.escaped q) [c] (.inside q) :=
  cutTag?_quoted Quoting.noConfusion c

theorem outside {c : Char} (hclose : c ≠ '>') (hopen : c ≠ '<') :
    Passes .outside [c] (Quoting.outside.step c) :=
  cutTag?_outside hclose hopen

theorem bare {word : Text} (h : word.all isBareChar) : Passes .outside word .outside := by
  induction word with
  | nil => exact nil .outside
  | cons c rest ih =>
      rw [List.all_cons, Bool.and_eq_true] at h
      obtain ⟨-, hopen, hclose, hquote⟩ := isBareChar_iff.mp h.1
      have hstep : Quoting.outside.step c = .outside := by
        rw [Quoting.step, hquote]
        rfl
      exact (hstep ▸ outside hclose hopen).append (ih h.2)

/-- Between quotes an escaped text is passed over, whatever characters it has. -/
theorem escape (q : Quote) (t : Text) : Passes (.inside q) (q.escape t) (.inside q) := by
  induction t with
  | nil => exact nil (.inside q)
  | cons c rest ih =>
      rw [Quote.escape_cons]
      refine append ?_ ih
      by_cases h : c = '\\' ∨ c = q.char
      · rw [if_pos h]
        have hescape : Passes (.inside q) ['\\'] (.escaped q) := inside q '\\'
        exact hescape.append (escaped q c)
      · rw [if_neg h]
        have hstep : (Quoting.inside q).step c = .inside q := by
          rw [Quoting.step, if_neg fun e => h (Or.inl e), if_neg fun e => h (Or.inr e)]
        have hpass := inside q c
        rwa [hstep] at hpass

/-- So is a text in which there is nothing to escape. -/
theorem unquoted {t : Text} (h : ∀ c ∈ t, IsUnquoted c) (q : Quote) :
    Passes (.inside q) t (.inside q) := by
  have hpass := escape q t
  rwa [Quote.escape_eq_self h] at hpass

theorem written (a : Argument) : Passes .outside a.written .outside := by
  cases a with
  | bare word h => exact bare h
  | quoted q t =>
      have hopen : Passes .outside [q.char] (.inside q) := by
        cases q <;> exact outside (by decide) (by decide)
      have hclose : Passes (.inside q) [q.char] .outside := by
        cases q <;> exact inside _ _
      exact hopen.append ((escape q t).append hclose)

theorem writtenAll (args : List Argument) :
    Passes .outside (Argument.writtenAll args) .outside := by
  induction args with
  | nil => exact nil .outside
  | cons a rest ih =>
      rw [Argument.writtenAll_cons]
      have hcolon : Passes .outside [':'] .outside := outside (by decide) (by decide)
      exact hcolon.append ((written a).append ih)

/-- A `>` behind what is passed over ends the tag. -/
theorem cutTag?_eq {p : Text} (h : Passes .outside p .outside) (u : Text) :
    cutTag? .outside (p ++ '>' :: u) = some (p, u) := by
  rw [h]
  exact congrArg (fun p => some (p, u)) (List.append_nil p)

end Passes

/-! ## The arguments of a tag -/

section Split

/-! What stands behind an argument begins with a colon or is nothing: its first part is
empty, and the other parts do not depend on whether the argument is still fresh. -/

variable {tail : Text} {parts : List Text}
  (htail : ∀ fresh, splitAtColons .outside fresh tail = [] :: parts)

include htail

theorem splitAtColons_bare {word : Text} (h : word.all isBareChar) (fresh : Bool) :
    splitAtColons .outside fresh (word ++ tail) = word :: parts := by
  induction word generalizing fresh with
  | nil => exact htail fresh
  | cons c rest ih =>
      rw [List.all_cons, Bool.and_eq_true] at h
      obtain ⟨hcolon, -, -, hquote⟩ := isBareChar_iff.mp h.1
      simp only [List.cons_append, splitAtColons, hquote, if_neg hcolon, ih h.2 false, consArg]

/-- Behind an opening quote, the argument reaches to its match. -/
theorem splitAtColons_escape (q : Quote) (t : Text) (fresh : Bool) :
    splitAtColons (.inside q) fresh (q.escape t ++ q.char :: tail) = t :: parts := by
  have hchar : q.char ≠ '\\' := by cases q <;> decide
  induction t generalizing fresh with
  | nil =>
      show splitAtColons (.inside q) fresh (q.char :: tail) = _
      rw [splitAtColons, if_neg hchar, if_pos rfl, htail]
  | cons c rest ih =>
      rw [Quote.escape_cons, List.append_assoc]
      by_cases h : c = '\\' ∨ c = q.char
      · rw [if_pos h]
        show splitAtColons (.inside q) fresh ('\\' :: c :: (q.escape rest ++ q.char :: tail)) = _
        rw [splitAtColons, if_pos rfl, splitAtColons, if_pos h.symm, ih, consArg]
      · rw [if_neg h]
        show splitAtColons (.inside q) fresh (c :: (q.escape rest ++ q.char :: tail)) = _
        rw [splitAtColons, if_neg fun e => h (Or.inl e), if_neg fun e => h (Or.inr e), ih, consArg]

theorem splitAtColons_written (a : Argument) :
    splitAtColons .outside true (a.written ++ tail) = a.value :: parts := by
  cases a with
  | bare word h => exact splitAtColons_bare htail h true
  | quoted q t =>
      have hquote : Quote.ofChar? q.char = some q := by cases q <;> decide
      rw [Argument.written, List.cons_append, List.append_assoc, List.singleton_append]
      simp only [splitAtColons, hquote]
      exact splitAtColons_escape htail q t true

end Split

theorem splitAtColons_writtenAll (args : List Argument) (fresh : Bool) :
    splitAtColons .outside fresh (Argument.writtenAll args)
      = [] :: args.map Argument.value := by
  induction args generalizing fresh with
  | nil => rfl
  | cons a rest ih =>
      have hcolon : Quote.ofChar? ':' = none := by decide
      rw [Argument.writtenAll_cons]
      simp only [splitAtColons, hcolon, if_pos]
      rw [splitAtColons_written ih, List.map_cons]

/-! ## The whole tag -/

theorem isBareChar_of_isNameRest {c : Char} (h : isNameRest c) : isBareChar c := by
  have hne : ∀ d : Char, isNameRest d = false → c ≠ d := by
    rintro d hd rfl
    rw [h] at hd
    cases hd
  have hquote : Quote.ofChar? c = none := by
    rw [Quote.ofChar?, if_neg (hne _ (by decide)), if_neg (hne _ (by decide))]
  exact isBareChar_iff.mpr ⟨hne _ (by decide), hne _ (by decide), hne _ (by decide), hquote⟩

theorem isNameRest_or_of_isNameStart {c : Char} (h : isNameStart c) : isNameRest c ∨ c = '#' := by
  simp only [isNameStart, Bool.or_eq_true, beq_iff_eq] at h
  rcases h with (h | h) | h
  · exact Or.inl (by simp [isNameRest, Char.isAlphanum, h])
  · exact Or.inl (by rw [h]; decide)
  · exact Or.inr h

/-- A name is a bare word. -/
theorem all_isBareChar_of_isName {name : Text} (h : isName name) : name.all isBareChar := by
  cases name with
  | nil => rfl
  | cons c rest =>
      rw [isName, Bool.and_eq_true] at h
      rw [List.all_cons, Bool.and_eq_true]
      refine ⟨?_, List.all_eq_true.mpr fun e he => ?_⟩
      · rcases isNameRest_or_of_isNameStart h.1 with hc | rfl
        · exact isBareChar_of_isNameRest hc
        · decide
      · exact isBareChar_of_isNameRest (List.all_eq_true.mp h.2 e he)

/-- A name neither closes nor negates. -/
theorem lead_of_isName {name : Text} (h : isName name) (rest : Text) :
    lead (name ++ rest) = (false, false, name ++ rest) := by
  cases name with
  | nil => cases h
  | cons c more =>
      rw [isName, Bool.and_eq_true] at h
      have hne : ∀ d : Char, isNameStart d = false → c ≠ d := by
        rintro d hd rfl
        rw [h.1] at hd
        cases hd
      exact lead_cons (hne '/' (by decide)) (hne '!' (by decide)) _

end Token

namespace TagForm

open Token

theorem passes_content (f : TagForm) : Passes .outside f.content .outside :=
  (Passes.bare (all_isBareChar_of_isName f.named)).append (Passes.writtenAll f.args)

theorem splitAtColons_content (f : TagForm) :
    splitAtColons .outside true f.content = f.name :: f.values :=
  splitAtColons_bare (splitAtColons_writtenAll f.args) (all_isBareChar_of_isName f.named) true

/-- The opening tag as it is read. -/
def opened (f : TagForm) : Tagged := ⟨f.opening, Text.lower f.name, f.values, false⟩

/-- The closing tag as it is read. -/
def closed (f : TagForm) : Tagged := ⟨f.closing, Text.lower f.name, f.values, false⟩

theorem tag?_opening (f : TagForm) (u : Text) :
    tag? (f.content ++ '>' :: u) = some (.opening f.opened, u) := by
  have hlead : lead f.content = (false, false, f.content) := lead_of_isName f.named _
  have hmade : ofContent? f.content = some (.opening f.opened) := by
    refine ofContent?_eq_some_iff.mpr ⟨f.name, f.values, ?_, f.named, ?_⟩
    · rw [hlead]
      exact f.splitAtColons_content
    · rw [taggedOf, hlead]
      rfl
  rw [tag?, f.passes_content.cutTag?_eq u]
  exact congrArg (Option.map _) hmade

theorem tag?_closing (f : TagForm) (u : Text) :
    tag? ('/' :: (f.content ++ '>' :: u)) = some (.closing f.closed, u) := by
  have hslash : Passes .outside ['/'] .outside := Passes.outside (by decide) (by decide)
  have hmade : ofContent? ('/' :: f.content) = some (.closing f.closed) :=
    ofContent?_eq_some_iff.mpr ⟨f.name, f.values, f.splitAtColons_content, f.named, rfl⟩
  have hcut := (hslash.append f.passes_content).cutTag?_eq u
  rw [List.singleton_append, List.cons_append] at hcut
  rw [tag?, hcut]
  exact congrArg (Option.map _) hmade

end TagForm

end StyledChat
