/-
What one token does to the tree under construction.

Each token has one of a handful of effects on a draft: it adds text to what the
innermost open tag holds, opens a tag, ends some, or ends all.  The equations
below say which, by what the token means, so that a property of reading is proved
once per effect.
-/
import Mathlib.Data.List.Basic
import StyledChat.Markup.Parse
import StyledChat.Proofs.Tags
import StyledChat.Proofs.Tokens

namespace StyledChat
namespace Draft

/-! ## Adding text -/

theorem isLeaf_iff {c : Component} : c.isLeaf ↔ c = Component.leaf c.text := by
  obtain ⟨text, style, children⟩ := c
  simp [Component.isLeaf, Component.leaf, Style.isEmpty]

theorem addText_leaf (before : List Component) (text : Text) {t : Text} (ht : t ≠ []) :
    addText (before ++ [Component.leaf text]) t = before ++ [Component.leaf (text ++ t)] := by
  have hleaf : (Component.leaf text).isLeaf := isLeaf_iff.mpr rfl
  rw [addText, if_neg (by simpa using ht), List.getLast?_concat]
  show (if (Component.leaf text).isLeaf then _ else _) = _
  rw [if_pos hleaf, List.dropLast_concat]
  rfl

theorem addText_other (before : List Component) {last : Component} (hlast : ¬last.isLeaf)
    {t : Text} (ht : t ≠ []) :
    addText (before ++ [last]) t = before ++ [last] ++ [Component.leaf t] := by
  simp [addText, ht, hlast]

/-- Text is added to a leaf that stands last, or as a leaf of its own behind something
else. -/
theorem addText_cases (children : List Component) {t : Text} (ht : t ≠ []) :
    (∃ before text, children = before ++ [Component.leaf text]
        ∧ addText children t = before ++ [Component.leaf (text ++ t)])
      ∨ (∀ c ∈ children.getLast?, ¬c.isLeaf)
        ∧ addText children t = children ++ [Component.leaf t] := by
  cases hlast : children.getLast? with
  | none =>
      obtain rfl := List.getLast?_eq_none_iff.mp hlast
      exact Or.inr ⟨fun _ hc => (by cases hc), if_neg (by simpa using ht)⟩
  | some last =>
      obtain ⟨before, rfl⟩ := List.getLast?_eq_some_iff.mp hlast
      by_cases hleaf : last.isLeaf
      · rw [isLeaf_iff.mp hleaf]
        exact Or.inl ⟨before, last.text, rfl, addText_leaf before last.text ht⟩
      · refine Or.inr ⟨fun c hc => ?_, addText_other before hleaf ht⟩
        exact Option.some.inj hc ▸ hleaf

/-- What is added to nodes that stand behind others is added to them alone. -/
theorem addText_append (cs : List Component) {ds : List Component} (hds : ds ≠ []) (t : Text) :
    addText (cs ++ ds) t = cs ++ addText ds t := by
  by_cases ht : t = []
  · rw [ht]
    rfl
  · rcases addText_cases ds ht with ⟨before, text, rfl, hadd⟩ | ⟨hlast, hadd⟩
    · rw [hadd, ← List.append_assoc, addText_leaf (cs ++ before) text ht, List.append_assoc]
    · obtain ⟨before, last, rfl⟩ := ds.eq_nil_or_concat.resolve_left hds
      rw [List.concat_eq_append] at hadd hlast ⊢
      have hnot : ¬last.isLeaf := hlast last List.getLast?_concat
      rw [hadd, ← List.append_assoc, addText_other (cs ++ before) hnot ht, List.append_assoc,
        List.append_assoc, List.append_assoc]

/-! ## One token -/

theorem allowedTag?_eq_some_iff {v : Vocabulary} {tag : Tagged} {meaning : Tag} :
    allowedTag? v tag = some meaning ↔
      Tag.resolve? tag = some meaning ∧ v.allows meaning.group :=
  Option.filter_eq_some_iff

section Step

variable {v : Vocabulary} {read : Text → Component} {d : Draft} {tag : Tagged}

theorem step_refused (h : allowedTag? v tag = none) :
    d.step v read (.opening tag) = d.text tag.raw := by
  simp only [step, h]

theorem step_opened {meaning : Tag} (h : allowedTag? v tag = some meaning) :
    d.step v read (.opening tag) = d.opened read tag.name meaning := by
  simp only [step, h]

/-- A tag that stays open is put before those that are open. -/
theorem opened_of_staysOpen {meaning : Tag} (h : meaning.StaysOpen) (d : Draft) (name : Text) :
    d.opened read name meaning = d.openTag name meaning.closeKey (meaning.style read) := by
  cases meaning with
  | reset => exact absurd rfl h.1
  | newline => exact absurd rfl h.2
  | color | decoration | fill | click | hover | insertion | font => rfl

theorem step_orphan (h : endThrough? tag.name d.here d.openTags = none) :
    d.step v read (.closing tag) = d.text tag.raw := by
  simp only [step, h]

theorem step_closed {closed : Draft} (h : endThrough? tag.name d.here d.openTags = some closed) :
    d.step v read (.closing tag) = closed := by
  simp only [step, h]

end Step

end Draft

/-! ## Hover markup

The reader of hover markup can be any that agrees on the hover markup of the text.
That markup is an argument of its tag, hence shorter than the text the tag stands in,
and the bound in `parse` is never met. -/

/-- The tag has the same style whoever reads its hover markup. -/
theorem Tag.style_congr {read read' : Text → Component} {meaning : Tag}
    (h : ∀ markup, meaning = .hover markup → read markup = read' markup) :
    meaning.style read = meaning.style read' := by
  cases meaning with
  | hover markup => rw [Tag.style, Tag.style, h markup rfl]
  | color | decoration | fill | reset | click | insertion | font | newline => rfl

theorem Draft.opened_congr {read read' : Text → Component} {meaning : Tag}
    (h : meaning.style read = meaning.style read') (d : Draft) (name : Text) :
    d.opened read name meaning = d.opened read' name meaning := by
  cases meaning with
  | reset => rfl
  | newline => rfl
  | color | decoration | fill | click | hover | insertion | font =>
      exact congrArg (d.openTag name _) h

theorem Draft.step_congr {v : Vocabulary} {read read' : Text → Component} {tok : Token}
    (h : ∀ tag markup, tok = .opening tag → allowedTag? v tag = some (.hover markup) →
      read markup = read' markup)
    (d : Draft) : d.step v read tok = d.step v read' tok := by
  cases tok with
  | text raw => rfl
  | closing tag => rfl
  | opening tag =>
      cases hm : allowedTag? v tag with
      | none => rw [step_refused hm, step_refused hm]
      | some meaning =>
          rw [step_opened hm, step_opened hm]
          refine opened_congr (Tag.style_congr fun markup hhover => ?_) d tag.name
          exact h tag markup rfl (hhover ▸ hm)

theorem parseWith_congr {v : Vocabulary} {read read' : Text → Component} {t : Text}
    (h : ∀ tag markup, .opening tag ∈ Token.ofText t →
      Draft.allowedTag? v tag = some (.hover markup) → read markup = read' markup) :
    parseWith v read t = parseWith v read' t := by
  have hfold : (Token.ofText t).foldl (Draft.step v read) {}
      = (Token.ofText t).foldl (Draft.step v read') {} := by
    refine List.foldl_ext _ _ _ fun d tok htok => ?_
    exact Draft.step_congr (fun tag markup htag => h tag markup (htag ▸ htok)) d
  rw [parseWith, parseWith, hfold]

/-- Hover markup is read like any other text. -/
theorem parse_eq (v : Vocabulary) (t : Text) : parse v t = parseWith v (parse v) t := by
  rw [parse]
  refine parseWith_congr fun tag markup htag hhover => dif_pos ?_
  have hresolve := (Draft.allowedTag?_eq_some_iff.mp hhover).1
  exact Token.length_arg_lt_of_opening htag (Tag.mem_args_of_hover hresolve)

end StyledChat
