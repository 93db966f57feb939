/-
What a text falls into when its needles are replaced.

The two equations of `spliceText` say what happens without and with a needle in
the text.  Everything that is put in comes from the list of replacements, and
what lies between is plain text (`mem_spliceText`).
-/
import StyledChat.Component.Splice

namespace StyledChat

/-- What is found belongs to one of the needles: it stands where that needle
does, and brings its content. -/
theorem Replacement.mem_of_leftmost? {text : Text} {f : Found} :
    ∀ {rs : List Replacement}, Replacement.leftmost? text rs = some f →
      ∃ r ∈ rs, r.find? text = some f
  | r :: rest, h => by
      unfold leftmost? at h
      have hrest : ∀ g, leftmost? text rest = some g → ∃ q ∈ r :: rest, q.find? text = some g := by
        intro g hg
        obtain ⟨q, hq, hfind⟩ := mem_of_leftmost? hg
        exact ⟨q, List.mem_cons_of_mem _ hq, hfind⟩
      split at h
      · exact hrest f h
      · next hfind _ => exact ⟨r, List.mem_cons_self, hfind.trans h⟩
      · next hfind hleft =>
          split at h
          · exact ⟨r, List.mem_cons_self, hfind.trans h⟩
          · exact hrest f (hleft.trans h)

theorem Replacement.content_of_find? {r : Replacement} {text : Text} {f : Found}
    (h : r.find? text = some f) : f.content = r.content := by
  unfold find? at h
  split at h
  · cases h
  · obtain ⟨_, -, rfl⟩ := Option.map_eq_some_iff.mp h
    rfl

theorem spliceText_of_none {rs : List Replacement} {text : Text}
    (h : Replacement.leftmost? text rs = none) : spliceText rs text = (text, []) := by
  rw [spliceText]
  split
  · rfl
  · next found hfound => rw [h] at hfound; cases hfound

theorem spliceText_of_some {rs : List Replacement} {text : Text} {found : Found}
    (h : Replacement.leftmost? text rs = some found) : spliceText rs text =
      (found.before, found.content ::
        (Component.leafOf (spliceText rs found.after).1 ++ (spliceText rs found.after).2)) := by
  rw [spliceText]
  split
  · next hnone => rw [h] at hnone; cases hnone
  · next other hother =>
      obtain rfl := Option.some.inj (h.symm.trans hother)
      rfl

/-- The pieces that a text falls into are contents of needles and plain leaves. -/
theorem mem_spliceText (rs : List Replacement) (text : Text) :
    ∀ p ∈ (spliceText rs text).2, (∃ r ∈ rs, p = r.content) ∨ ∃ t, p = Component.leaf t := by
  induction text using spliceText.induct rs with
  | case1 text h =>
      intro p hp
      rw [spliceText_of_none h] at hp
      cases hp
  | case2 text found h _ _ _ ih =>
      intro p hp
      rw [spliceText_of_some h] at hp
      rcases List.mem_cons.mp hp with rfl | hp
      · obtain ⟨r, hr, hfind⟩ := Replacement.mem_of_leftmost? h
        exact Or.inl ⟨r, hr, Replacement.content_of_find? hfind⟩
      · rcases List.mem_append.mp hp with hp | hp
        · unfold Component.leafOf at hp
          split at hp
          · cases hp
          · exact Or.inr ⟨_, List.mem_singleton.mp hp⟩
        · exact ih p hp

end StyledChat
