/-
How long a message is remembered.

A store drops its oldest entries when it grows too large, so a message goes only after
enough others have come.  How many are enough is counted in senders, since a sender who
sends twice takes one place: read in the order of its puts, a store holds behind a message
no more entries than there are senders who put something since (`ByLastPut.Holds`).  An
eviction takes a batch from the front of more entries than the capacity, and stops short of
the message as long as those behind it leave room for the batch.

`Formatter.latest_is_remembered` states this for a formatter, and `ByLastPut.forgotten_at_bound`
that one sender more can be too many.
-/
import Mathlib.Data.Finset.Card
import Mathlib.Data.List.Range
import StyledChat.Proofs.Requests

namespace StyledChat

/-! ## Requests that leave a message in place -/

namespace StoreRequest

variable {K : Type} [DecidableEq K]

/-- Whether a request leaves the message of a sender in place, evictions apart. -/
def spares (sender : K) : StoreRequest K → Bool
  | put k _ => k ≠ sender
  | get _ => true
  | remove k => k ≠ sender
  | clear => false

def putBy? : StoreRequest K → Option K
  | put k _ => some k
  | _ => none

/-- Those who put something. -/
def senders (requests : List (StoreRequest K)) : Finset K := (requests.filterMap putBy?).toFinset

/-- The same message put by some senders, one after the other. -/
def putEach (text : Text) (ks : List K) : List (StoreRequest K) := ks.map fun k => put k text

theorem mem_senders {requests : List (StoreRequest K)} {k : K} :
    k ∈ senders requests ↔ ∃ request ∈ requests, request.putBy? = some k := by
  rw [senders, List.mem_toFinset, List.mem_filterMap]

end StoreRequest

/-! ## A message and the entries behind it -/

namespace ByLastPut

variable {K : Type} [DecidableEq K] {capacity batch : Nat} {sender : K} {text : Text}
  {others : Finset K} {l : ByLastPut K}

/-- The list holds a message of a sender, and what stands behind it was put by some others,
one entry for each. -/
def Holds (sender : K) (text : Text) (others : Finset K) (l : ByLastPut K) : Prop :=
  ∃ older newer : ByLastPut K, l = older ++ (sender, text) :: newer
    ∧ sender ∉ older.map Prod.fst ∧ (newer.map Prod.fst).Nodup
    ∧ ∀ k ∈ newer.map Prod.fst, k ∈ others

theorem not_mem_without (l : ByLastPut K) (k : K) : k ∉ (l.without k).map Prod.fst := by
  intro h
  obtain ⟨e, he, hk⟩ := List.mem_map.mp h
  exact of_decide_eq_true (List.mem_filter.mp he).2 hk

theorem map_fst_without_sublist (l : ByLastPut K) (k : K) :
    ((l.without k).map Prod.fst).Sublist (l.map Prod.fst) :=
  List.filter_sublist.map Prod.fst

theorem without_append (l l' : ByLastPut K) (k : K) :
    (l ++ l').without k = l.without k ++ l'.without k := List.filter_append l l'

theorem without_cons {k : K} (h : sender ≠ k) (l : ByLastPut K) :
    without ((sender, text) :: l) k = (sender, text) :: l.without k :=
  List.filter_cons_of_pos (decide_eq_true h)

theorem Holds.lookup_eq (h : Holds sender text others l) : l.lookup sender = some text := by
  obtain ⟨older, newer, rfl, habsent, -, -⟩ := h
  induction older with
  | nil => rw [List.nil_append, List.lookup_cons, beq_self_eq_true]
  | cons e rest ih =>
      rw [List.map_cons, List.mem_cons, not_or] at habsent
      rw [List.cons_append, List.lookup_cons, beq_eq_false_iff_ne.mpr habsent.1]
      exact ih habsent.2

omit [DecidableEq K] in
theorem holds_last (h : sender ∉ l.map Prod.fst) (text : Text) (others : Finset K) :
    Holds sender text others (l ++ [(sender, text)]) :=
  ⟨l, [], rfl, h, List.nodup_nil, fun _ hk => absurd hk List.not_mem_nil⟩

/-- The message just put is held, with nothing behind it. -/
theorem holds_put (capacity batch : Nat) (l : ByLastPut K) (sender : K) (text : Text)
    (others : Finset K) : Holds sender text others (l.put capacity batch sender text) := by
  have habsent := not_mem_without l sender
  rw [put]
  split
  · rw [List.drop_append_of_le_length
      (by rw [List.length_append, List.length_singleton]; omega)]
    exact holds_last (fun h => habsent (((List.drop_sublist _ _).map Prod.fst).subset h)) _ _
  · exact holds_last habsent _ _

theorem Holds.without (h : Holds sender text others l) {k : K} (hk : k ≠ sender) :
    Holds sender text others (l.without k) := by
  obtain ⟨older, newer, rfl, habsent, hnodup, hothers⟩ := h
  refine ⟨older.without k, newer.without k, ?_, ?_, ?_, ?_⟩
  · rw [without_append, without_cons hk.symm]
  · exact fun h => habsent ((map_fst_without_sublist older k).subset h)
  · exact hnodup.sublist (map_fst_without_sublist newer k)
  · exact fun k' hk' => hothers k' ((map_fst_without_sublist newer k).subset hk')

omit [DecidableEq K] in
theorem Holds.append (h : Holds sender text others l) {k : K} (hk : k ∉ l.map Prod.fst)
    (hother : k ∈ others) (other : Text) : Holds sender text others (l ++ [(k, other)]) := by
  obtain ⟨older, newer, rfl, habsent, hnodup, hothers⟩ := h
  rw [List.map_append, List.map_cons, List.mem_append, List.mem_cons, not_or, not_or] at hk
  refine ⟨older, newer ++ [(k, other)], ?_, habsent, ?_, ?_⟩
  · rw [List.append_assoc, List.cons_append]
  · rw [List.map_append]
    exact hnodup.append (List.nodup_singleton k) (List.disjoint_singleton.mpr hk.2.2)
  · intro k' hk'
    rw [List.map_append] at hk'
    rcases List.mem_append.mp hk' with hnewer | hlast
    · exact hothers k' hnewer
    · exact List.mem_singleton.mp hlast ▸ hother

/-- Entries go from the front, and those behind the message are too few to be reached. -/
theorem Holds.drop (h : Holds sender text others l) {n : Nat}
    (hroom : n + others.card < l.length) : Holds sender text others (l.drop n) := by
  obtain ⟨older, newer, rfl, habsent, hnodup, hothers⟩ := h
  have hnewer : newer.length ≤ others.card := by
    have hcard := Finset.card_le_card fun k hk => hothers k (List.mem_toFinset.mp hk)
    rwa [List.toFinset_card_of_nodup hnodup, List.length_map] at hcard
  have holder : n ≤ older.length := by
    rw [List.length_append, List.length_cons] at hroom
    omega
  refine ⟨older.drop n, newer, List.drop_append_of_le_length holder, ?_, hnodup, hothers⟩
  exact fun h => habsent (((List.drop_sublist n older).map Prod.fst).subset h)

/-- A message stays when another sender puts one, as long as there are few enough others for
a batch to be taken before it. -/
theorem Holds.put (h : Holds sender text others l) {k : K} (hk : k ≠ sender)
    (hother : k ∈ others) (hroom : others.card < max (capacity + 1 - max batch 1) 1)
    (other : Text) : Holds sender text others (l.put capacity batch k other) := by
  have happended := (h.without hk).append (not_mem_without l k) hother other
  have hsome : 0 < others.card := Finset.card_pos.mpr ⟨k, hother⟩
  rw [ByLastPut.put]
  split
  · -- there are more entries than the capacity, so a batch and the others are not all of them
    exact happended.drop (by omega)
  · exact happended

/-- One request that spares the message. -/
theorem Holds.answer (h : Holds sender text others l) {request : StoreRequest K}
    (hspares : request.spares sender = true)
    (hothers : ∀ k, request.putBy? = some k → k ∈ others)
    (hroom : others.card < max (capacity + 1 - max batch 1) 1) :
    Holds sender text others (ByLastPut.answer capacity batch l request).2 := by
  cases request with
  | put k other => exact h.put (of_decide_eq_true hspares) (hothers k rfl) hroom other
  | get k => exact h
  | remove k => exact h.without (of_decide_eq_true hspares)
  | clear => exact absurd hspares Bool.false_ne_true

open StoreRequest in
theorem Holds.run (requests : List (StoreRequest K)) (h : Holds sender text others l)
    (hspares : ∀ request ∈ requests, request.spares sender = true)
    (hothers : senders requests ⊆ others)
    (hroom : others.card < max (capacity + 1 - max batch 1) 1) :
    Holds sender text others (run (ByLastPut.answer capacity batch) l requests).2 := by
  induction requests generalizing l with
  | nil => exact h
  | cons request rest ih =>
      have hfirst := h.answer (hspares request List.mem_cons_self)
        (fun k hk => hothers (mem_senders.mpr ⟨request, List.mem_cons_self, hk⟩)) hroom
      refine ih hfirst (fun r hr => hspares r (List.mem_cons_of_mem _ hr)) fun k hk => ?_
      obtain ⟨r, hr, hput⟩ := mem_senders.mp hk
      exact hothers (mem_senders.mpr ⟨r, List.mem_cons_of_mem _ hr, hput⟩)

/-! ### The bound -/

theorem without_eq_self {l : ByLastPut K} {k : K} (h : k ∉ l.map Prod.fst) : l.without k = l :=
  List.filter_eq_self.mpr fun _ he => decide_eq_true fun hk => h (hk ▸ List.mem_map_of_mem he)

theorem put_of_room {l : ByLastPut K} {k : K} (h : k ∉ l.map Prod.fst)
    (hroom : l.length < capacity) (batch : Nat) (text : Text) :
    l.put capacity batch k text = l ++ [(k, text)] := by
  rw [put, without_eq_self h]
  refine if_neg (Nat.not_lt.mpr ?_)
  rw [List.length_append, List.length_singleton]
  exact hroom

theorem put_of_full {l : ByLastPut K} {k : K} (h : k ∉ l.map Prod.fst)
    (hfull : l.length = capacity) (batch : Nat) (text : Text) :
    l.put capacity batch k text
      = (l ++ [(k, text)]).drop (min (max batch 1) capacity) := by
  have hlength : (l ++ [(k, text)]).length = capacity + 1 := by
    rw [List.length_append, List.length_singleton, hfull]
  rw [put, without_eq_self h]
  simp only [hlength]
  exact if_pos (Nat.lt_succ_self capacity)

/-- The same message of each of some senders. -/
def ofSenders (text : Text) (ks : List K) : ByLastPut K := ks.map fun k => (k, text)

omit [DecidableEq K] in
theorem map_fst_ofSenders (text : Text) (ks : List K) :
    (ofSenders text ks).map Prod.fst = ks := by
  rw [ofSenders, List.map_map]
  exact List.map_id ks

open StoreRequest in
/-- While there is room, the messages of new senders are appended. -/
theorem run_putEach_of_room (batch : Nat) (text : Text) : ∀ (ks : List K) {l : ByLastPut K},
    (l.map Prod.fst ++ ks).Nodup → l.length + ks.length ≤ capacity →
    (run (answer capacity batch) l (putEach text ks)).2 = l ++ ofSenders text ks
  | [], l, _, _ => (List.append_nil l).symm
  | k :: rest, l, hnew, hroom => by
      rw [List.length_cons] at hroom
      have hk : k ∉ l.map Prod.fst := fun h =>
        (List.nodup_append.mp hnew).2.2 k h k List.mem_cons_self rfl
      show (run (answer capacity batch) (l.put capacity batch k text) (putEach text rest)).2 = _
      rw [put_of_room hk (by omega), run_putEach_of_room batch text rest, List.append_assoc]
      · rfl
      · rwa [List.map_append, List.append_assoc]
      · rw [List.length_append, List.length_singleton]
        omega

open StoreRequest in
/-- Of new senders, one more than there is room for, the first ones go, a batch of them. -/
theorem run_putEach_of_full (batch : Nat) (text : Text) {ks : List K} {k : K}
    (hnew : (ks ++ [k]).Nodup) (hfull : ks.length = capacity) :
    (run (answer capacity batch) [] (putEach text (ks ++ [k]))).2
      = ofSenders text ((ks ++ [k]).drop (min (max batch 1) capacity)) := by
  obtain ⟨hks, -, hdisjoint⟩ := List.nodup_append.mp hnew
  have hfilled : (run (answer capacity batch) [] (putEach text ks)).2 = ofSenders text ks :=
    run_putEach_of_room batch text ks hks (by rw [List.length_nil, Nat.zero_add, hfull])
  have hk : k ∉ (ofSenders text ks).map Prod.fst := by
    intro h
    rw [map_fst_ofSenders] at h
    exact hdisjoint k h k List.mem_cons_self rfl
  rw [putEach, List.map_append, run_append]
  show ByLastPut.put capacity batch (run (answer capacity batch) [] (putEach text ks)).2 k text = _
  rw [hfilled, put_of_full hk (by rw [ofSenders, List.length_map, hfull]), ofSenders,
    ofSenders, List.map_drop, List.map_append, List.map_singleton]

open StoreRequest in
/-- The bound is sharp: when new senders send one after the other, one more than there is room
for, a message with as many of them behind it as the bound says is gone. -/
theorem forgotten_at_bound (batch : Nat) (text : Text) {before after : List K} {sender : K}
    (hnew : (before ++ sender :: after).Nodup)
    (hfull : (before ++ sender :: after).length = capacity + 1)
    (hmany : max (capacity + 1 - max batch 1) 1 ≤ after.length) :
    (run (answer capacity batch) [] (putEach text (before ++ sender :: after))).2.lookup sender
      = none := by
  rw [List.length_append, List.length_cons] at hfull
  obtain ⟨others, last, rfl⟩ : ∃ others last, after = others ++ [last] :=
    List.eq_nil_or_concat' after |>.resolve_left (by rintro rfl; simp at hmany)
  have hsender : sender ∉ others ++ [last] :=
    (List.nodup_cons.mp (List.nodup_append.mp hnew).2.1).1
  have hks : before ++ sender :: (others ++ [last]) = (before ++ sender :: others) ++ [last] := by
    rw [List.append_assoc, List.cons_append]
  have hgone : sender ∉ (before ++ sender :: (others ++ [last])).drop
      (min (max batch 1) capacity) := by
    -- what is dropped reaches over the sender
    intro h
    rw [List.append_cons, List.drop_append, List.drop_eq_nil_of_le] at h
    · exact hsender (List.mem_of_mem_drop h)
    · rw [List.length_append, List.length_singleton]
      omega
  rw [hks] at hnew hgone
  rw [hks, run_putEach_of_full batch text hnew (by
    rw [List.length_append, List.length_cons]
    rw [List.length_append, List.length_singleton] at hfull
    omega), List.lookup_eq_none_iff]
  intro e he
  obtain ⟨k, hk, rfl⟩ := List.mem_map.mp he
  exact bne_iff_ne.mpr fun hsame => hgone (hsame ▸ hk)

end ByLastPut

/-! ## Stores and formatters -/

open StoreRequest in
/-- A store remembers a message while too few others put one. -/
theorem RecentMessages.get?_of_few_others {K : Type} [DecidableEq K] (capacity batch : Nat)
    {earlier later : List (StoreRequest K)} {sender : K} {text : Text}
    (hputs : puts (earlier ++ .put sender text :: later) < UInt64.size)
    (hspares : ∀ request ∈ later, request.spares sender = true)
    (hfew : (senders later).card < max (capacity + 1 - max batch 1) 1) :
    (run answer (bounded capacity batch)
        (earlier ++ .put sender text :: later)).2.get? sender = some text := by
  obtain ⟨-, -, l, hl, hmessages⟩ := inOrder_run capacity batch hputs
  rw [hl.get?_eq, hmessages, run_append]
  exact ((ByLastPut.holds_put capacity batch _ sender text _).run later hspares
    (Finset.Subset.refl _) hfew).lookup_eq

namespace Formatter

variable {K : Type} [DecidableEq K]

theorem value_renderLatest {f : Formatter K} {sender : K} {raw : Text}
    (h : f.recent.get? sender = some raw) (name : Option Text) (perms : Permissions) :
    (f.renderLatest sender name perms).value = (f.format name (some raw) perms).value := by
  show (f.format name (some ((f.recent.get? sender).getD [])) perms).value = _
  rw [h, Option.getD_some]

/-- A message is rendered as it was sent as long as its sender neither sends again nor leaves,
the store is not cleared, and fewer than `max (capacity + 1 - max batch 1) 1` others send
something. -/
theorem latest_is_remembered (capacity batch : Nat) (config : Config)
    (expander : Option Expander) (earlier later : List (ChatRequest K)) (sender : K) (raw : Text)
    (hmessages : StoreRequest.puts ((earlier ++ .send sender raw :: later).flatMap
      ChatRequest.stored) < UInt64.size)
    (hspares : ∀ request ∈ later.flatMap ChatRequest.stored, request.spares sender = true)
    (hfew : (StoreRequest.senders (later.flatMap ChatRequest.stored)).card
      < max (capacity + 1 - max batch 1) 1) :
    let start := (ofConfig config expander (RecentMessages.bounded capacity batch)).value
    let f := start.afterAll (earlier ++ .send sender raw :: later)
    ∀ name perms,
      (f.renderLatest sender name perms).value = (f.format name (some raw) perms).value := by
  intro start f
  rw [List.flatMap_append, List.flatMap_cons] at hmessages
  refine value_renderLatest ?_
  rw [recent_afterAll, List.flatMap_append, List.flatMap_cons]
  exact RecentMessages.get?_of_few_others capacity batch hmessages hspares hfew

/-- Four senders, and a store for three that evicts two at a time. -/
theorem latest_is_remembered_of_sample :
    let earlier : List (ChatRequest Nat) := [.send 1 "a".toList, .send 2 "b".toList]
    let later : List (ChatRequest Nat) :=
      [.flipDebug, .send 4 "d".toList, .leave 1, .reload {}, .send 4 "e".toList]
    let requests := earlier ++ .send 7 "x".toList :: later
    let f := (ofConfig {} none (RecentMessages.bounded 3 2)).value.afterAll requests
    StoreRequest.puts (requests.flatMap ChatRequest.stored) < UInt64.size
      ∧ (∀ request ∈ later.flatMap ChatRequest.stored, request.spares 7 = true)
      ∧ (StoreRequest.senders (later.flatMap ChatRequest.stored)).card < max (3 + 1 - max 2 1) 1
      ∧ (StoreRequest.run (ByLastPut.answer 3 2) [] (requests.flatMap ChatRequest.stored)).2
        = [(7, "x".toList), (4, "e".toList)]
      ∧ ∀ name perms,
        (f.renderLatest 7 name perms).value = (f.format name (some "x".toList) perms).value := by
  intro earlier later requests f
  have hmessages : StoreRequest.puts (requests.flatMap ChatRequest.stored) < UInt64.size := by
    decide
  have hspares : ∀ request ∈ later.flatMap ChatRequest.stored, request.spares 7 = true := by
    decide
  have hfew : (StoreRequest.senders (later.flatMap ChatRequest.stored)).card
      < max (3 + 1 - max 2 1) 1 := by decide
  exact ⟨hmessages, hspares, hfew, by decide,
    latest_is_remembered 3 2 {} none earlier later 7 "x".toList hmessages hspares hfew⟩

end Formatter

end StyledChat
