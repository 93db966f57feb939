/-
Putting trees in the place of literal text.

All needles are looked for in one pass over each node's text, and what has been
put in is never searched again: a replacement that contains a needle keeps it.
A needle that is split over two nodes is not found.  Hover text belongs to the
tree and is searched like the rest.
-/
import StyledChat.Component

namespace StyledChat

/-- A literal text and the tree that takes its place. -/
structure Replacement where
  needle : Text
  content : Component

/-- A needle found in a text: what stands before it, what takes its place, and
what stands behind it. -/
structure Found where
  before : Text
  content : Component
  after : Text

namespace Replacement

/-- The first occurrence of one needle.  An empty needle is never found. -/
def find? (r : Replacement) (text : Text) : Option Found :=
  if r.needle.isEmpty then none
  else (Text.cutAround? r.needle text).map fun (before, after) => ⟨before, r.content, after⟩

/-- The leftmost occurrence of any needle; of several at one place, the needle
listed first. -/
def leftmost? (text : Text) : List Replacement → Option Found
  | [] => none
  | r :: rest =>
    match r.find? text, leftmost? text rest with
    | none, other => other
    | some f, none => some f
    | some f, some g => if f.before.length ≤ g.before.length then some f else some g

end Replacement

/-! ## What is found leaves less to search

This is what makes the search through one text end. -/

theorem Replacement.length_find? {r : Replacement} {text : Text} {f : Found}
    (h : r.find? text = some f) : f.before.length + f.after.length < text.length := by
  unfold Replacement.find? at h
  split at h
  · simp at h
  · next hn =>
    simp only [Option.map_eq_some_iff, Prod.exists] at h
    obtain ⟨b, a, hcut, rfl⟩ := h
    have hlen := congrArg List.length (Text.eq_of_cutAround? hcut)
    simp only [List.length_append] at hlen
    have : 0 < r.needle.length := by
      cases hr : r.needle with
      | nil => simp [hr] at hn
      | cons _ _ => simp
    show b.length + a.length < text.length
    omega

theorem Replacement.length_leftmost? {text : Text} {f : Found} :
    ∀ {rs : List Replacement}, Replacement.leftmost? text rs = some f →
      f.before.length + f.after.length < text.length
  | [], h => by simp [Replacement.leftmost?] at h
  | r :: rest, h => by
    unfold Replacement.leftmost? at h
    split at h
    · exact length_leftmost? h
    · next hf _ => exact Option.some.inj h ▸ length_find? hf
    · next hf hg =>
      split at h
      · exact Option.some.inj h ▸ length_find? hf
      · exact Option.some.inj h ▸ length_leftmost? hg

/-! ## Splicing -/

/-- A leaf of this text, or nothing when there is none. -/
def Component.leafOf (t : Text) : List Component :=
  if t.isEmpty then [] else [Component.leaf t]

/-- Splits a text at every needle: the text before the first one, and the
replacements with leaves of the text between and behind them. -/
def spliceText (rs : List Replacement) (text : Text) : Text × List Component :=
  match _h : Replacement.leftmost? text rs with
  | none => (text, [])
  | some found =>
    let (between, rest) := spliceText rs found.after
    (found.before, found.content :: (Component.leafOf between ++ rest))
termination_by text.length
decreasing_by
  have := Replacement.length_leftmost? ‹_›
  omega

mutual

/-- The tree with every needle in a node's text replaced by its content. -/
def Component.splice (rs : List Replacement) : Component → Component
  | ⟨text, ⟨color, fill, decorations, click, hover, insertion, font⟩, children⟩ =>
    let (head, pieces) := spliceText rs text
    ⟨head, ⟨color, fill, decorations, click, spliceHover rs hover, insertion, font⟩,
      pieces ++ spliceAll rs children⟩

def spliceHover (rs : List Replacement) : Option Component → Option Component
  | none => none
  | some c => some (c.splice rs)

def spliceAll (rs : List Replacement) : List Component → List Component
  | [] => []
  | c :: rest => c.splice rs :: spliceAll rs rest

end

end StyledChat
