/-
Runs: stretches of text under one key each.

A listing of a text by runs says the same as the list of its characters, each
with its key, except where the cuts between runs of one key lie.  The cuts
disappear when every run is as long as it can be: such a listing is determined
by its characters (`Run.group_listing`), and `Run.group` computes it from them.
What a tree shows is therefore compared one character at a time, and only the
last step speaks of runs.
-/
import Mathlib.Data.List.Chain
import StyledChat.Component.Spans

namespace StyledChat

/-- A stretch of text under one key. -/
structure Run (α : Type) where
  key : α
  text : Text
deriving DecidableEq

namespace Run

variable {α : Type}

/-- The characters of a run, each with its key. -/
def chars (r : Run α) : List (Char × α) := r.text.map fun c => (c, r.key)

/-- The characters of some runs in order, each with its key. -/
def listing (l : List (Run α)) : List (Char × α) := l.flatMap chars

/-- No run is empty, and neighbours differ in their keys. -/
structure Maximal (l : List (Run α)) : Prop where
  nonempty : ∀ r ∈ l, r.text ≠ []
  distinct : l.IsChain fun r s => r.key ≠ s.key

@[simp] theorem listing_nil : listing ([] : List (Run α)) = [] := rfl

@[simp] theorem listing_cons (r : Run α) (l : List (Run α)) :
    listing (r :: l) = r.chars ++ listing l := rfl

@[simp] theorem listing_append (l l' : List (Run α)) :
    listing (l ++ l') = listing l ++ listing l' := by
  simp [listing]

theorem Maximal.tail {r : Run α} {l : List (Run α)} (h : Maximal (r :: l)) : Maximal l :=
  ⟨fun s hs => h.nonempty s (List.mem_cons_of_mem _ hs), h.distinct.tail⟩

variable [DecidableEq α]

/-- Puts a character in front of some runs: it joins the first of them when that
has its key. -/
def put (c : Char) (k : α) : List (Run α) → List (Run α)
  | [] => [⟨k, [c]⟩]
  | r :: rest => if r.key = k then ⟨k, c :: r.text⟩ :: rest else ⟨k, [c]⟩ :: r :: rest

/-- The maximal runs of one key in a list of characters. -/
def group : List (Char × α) → List (Run α)
  | [] => []
  | (c, k) :: rest => put c k (group rest)

/-- The same runs with neighbours of one key joined. -/
def join (l : List (Run α)) : List (Run α) := group (listing l)

/-! ## Grouping loses nothing and leaves nothing to join -/

theorem put_same {c : Char} {k : α} {r : Run α} {rest : List (Run α)} (h : r.key = k) :
    put c k (r :: rest) = ⟨k, c :: r.text⟩ :: rest := if_pos h

theorem put_other {c : Char} {k : α} {r : Run α} {rest : List (Run α)} (h : r.key ≠ k) :
    put c k (r :: rest) = ⟨k, [c]⟩ :: r :: rest := if_neg h

theorem listing_put (c : Char) (k : α) (l : List (Run α)) :
    listing (put c k l) = (c, k) :: listing l := by
  cases l with
  | nil => rfl
  | cons r rest =>
      by_cases hk : r.key = k
      · rw [put_same hk, ← hk]; rfl
      · rw [put_other hk]; rfl

theorem listing_group (l : List (Char × α)) : listing (group l) = l := by
  induction l with
  | nil => rfl
  | cons a rest ih =>
      show listing (put a.1 a.2 (group rest)) = a :: rest
      rw [listing_put, ih]

theorem Maximal.put {l : List (Run α)} (h : Maximal l) (c : Char) (k : α) :
    Maximal (put c k l) := by
  cases l with
  | nil => exact ⟨by simp [Run.put], by simp [Run.put]⟩
  | cons r rest =>
      by_cases hk : r.key = k
      · rw [put_same hk]
        refine ⟨fun s hs => ?_, ?_⟩
        · rcases List.mem_cons.mp hs with rfl | hs
          · exact List.cons_ne_nil _ _
          · exact h.nonempty s (List.mem_cons_of_mem _ hs)
        · have hd := h.distinct
          cases rest with
          | nil => exact List.isChain_singleton _
          | cons t more =>
              rw [List.isChain_cons_cons] at hd ⊢
              exact ⟨hk ▸ hd.1, hd.2⟩
      · rw [put_other hk]
        refine ⟨fun s hs => ?_, ?_⟩
        · rcases List.mem_cons.mp hs with rfl | hs
          · exact List.cons_ne_nil _ _
          · exact h.nonempty s hs
        · exact List.isChain_cons_cons.mpr ⟨fun e => hk e.symm, h.distinct⟩

theorem maximal_group (l : List (Char × α)) : Maximal (group l) := by
  induction l with
  | nil => exact ⟨fun _ h => absurd h List.not_mem_nil, List.isChain_nil⟩
  | cons a rest ih => exact ih.put a.1 a.2

/-! ## Maximal runs are determined by their characters -/

/-- Grouping the characters of one run in front of runs that do not begin with
its key. -/
theorem group_chars_append {k : α} {rest : List (Char × α)}
    (hrest : ∀ r ∈ (group rest).head?, r.key ≠ k) :
    ∀ {t : Text}, t ≠ [] → group (chars ⟨k, t⟩ ++ rest) = ⟨k, t⟩ :: group rest
  | [], h => absurd rfl h
  | [c], _ => by
      show put c k (group rest) = _
      cases hg : group rest with
      | nil => rfl
      | cons r more =>
          have hk : r.key ≠ k := hrest r (by rw [hg]; rfl)
          rw [put_other hk]
  | c :: d :: t, _ => by
      have ih := group_chars_append hrest (List.cons_ne_nil d t)
      show put c k (group (chars ⟨k, d :: t⟩ ++ rest)) = _
      rw [ih]
      exact put_same rfl

theorem group_listing {l : List (Run α)} (h : Maximal l) : group (listing l) = l := by
  induction l with
  | nil => rfl
  | cons r rest ih =>
      have ihr := ih h.tail
      have hhead : ∀ s ∈ (group (listing rest)).head?, s.key ≠ r.key := by
        rw [ihr]
        intro s hs e
        cases rest with
        | nil => cases hs
        | cons t more =>
            obtain rfl : t = s := Option.some.inj hs
            exact (List.isChain_cons_cons.mp h.distinct).1 e.symm
      rw [listing_cons, group_chars_append hhead (h.nonempty r List.mem_cons_self), ihr]

end Run

/-! ## The runs of a tree as runs of styles -/

namespace Span

/-- A run of text under its style. -/
def toRun (s : Span) : Run Style := ⟨s.style, s.text⟩

def ofRun (r : Run Style) : Span := ⟨r.text, r.key⟩

/-- The characters of some runs in order, each with its style. -/
def listing (l : List Span) : List (Char × Style) := Run.listing (l.map toRun)

@[simp] theorem listing_nil : listing [] = [] := rfl

@[simp] theorem listing_cons (s : Span) (l : List Span) :
    listing (s :: l) = s.toRun.chars ++ listing l := rfl

@[simp] theorem listing_append (l l' : List Span) :
    listing (l ++ l') = listing l ++ listing l' := by
  simp [listing]

theorem listing_merge (l : List Span) : listing (merge l) = listing l := by
  induction l with
  | nil => rfl
  | cons s rest ih =>
      rw [merge, listing_cons, ← ih]
      cases merge rest with
      | nil => rfl
      | cons t more =>
          by_cases h : s.style = t.style
          · simp [h, toRun, Run.chars]
          · simp [h]

theorem maximal_merge {l : List Span} (hl : ∀ s ∈ l, s.text ≠ []) :
    Run.Maximal ((merge l).map toRun) := by
  induction l with
  | nil => exact ⟨fun _ h => absurd h List.not_mem_nil, List.isChain_nil⟩
  | cons s rest ih =>
      have hs : s.text ≠ [] := hl s List.mem_cons_self
      have hrest := ih fun t ht => hl t (List.mem_cons_of_mem _ ht)
      rw [merge]
      cases hm : merge rest with
      | nil => exact ⟨by simpa [toRun] using hs, by simp⟩
      | cons t more =>
          rw [hm] at hrest
          by_cases h : s.style = t.style
          · -- the joined run stands where `t` stood, under the same key
            refine ⟨?_, ?_⟩
            · intro r hr
              simp only [h, if_true, List.map_cons, List.mem_cons] at hr
              rcases hr with rfl | hr
              · simp [toRun, hs]
              · exact hrest.nonempty r (List.mem_cons_of_mem _ hr)
            · have hd := hrest.distinct
              cases more with
              | nil => simp [h]
              | cons u more =>
                  simp only [h, if_true, List.map_cons, List.isChain_cons_cons] at hd ⊢
                  exact hd
          · refine ⟨?_, ?_⟩
            · intro r hr
              simp only [h, if_false, List.map_cons, List.mem_cons] at hr
              rcases hr with rfl | hr
              · exact hs
              · exact hrest.nonempty r (List.mem_cons.mpr hr)
            · have hd := hrest.distinct
              simp only [h, if_false, List.map_cons, List.isChain_cons_cons] at hd ⊢
              exact ⟨h, hd⟩

/-- Joining runs that hold text groups their characters. -/
theorem merge_eq_group {l : List Span} (hl : ∀ s ∈ l, s.text ≠ []) :
    merge l = (Run.group (listing l)).map ofRun := by
  have hg := Run.group_listing (maximal_merge hl)
  have hlist : Run.listing ((merge l).map toRun) = listing l := listing_merge l
  rw [hlist] at hg
  rw [hg, List.map_map]
  exact (List.map_id _).symm

end Span

end StyledChat
