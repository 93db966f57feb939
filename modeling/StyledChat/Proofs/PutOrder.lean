/-
The store by the order of its puts.

A store keeps its entries in no order that means anything: what is old is told by the
stamps alone.  Read by its stamps it is a list in the order of last puts, and everything
a store answers can be told from that list, which drops entries from its front
(`ByLastPut`).

The invariant is `InOrder`: the entries are a rearrangement of a list with increasing
stamps, all of them below the stamp of the next put, and with one entry for each sender.
A put gives the largest stamp, so it moves its sender to the end of the list; an eviction
keeps what lies above a stamp of the list, and so drops a front of it
(`filter_above_eq_drop`).  Both need that the stamps do not start over, which they do
after 2 ^ 64 puts and not before.
-/
import Mathlib.Data.List.Nodup
import StyledChat.Chat.RecentMessages

namespace StyledChat

/-! ## Messages in the order of their puts -/

/-- Senders and their messages, the latest put last. -/
abbrev ByLastPut (K : Type) := List (K × Text)

namespace ByLastPut

variable {K : Type} [DecidableEq K]

def without (l : ByLastPut K) (sender : K) : ByLastPut K := l.filter fun e => e.1 ≠ sender

/-- The sender moves to the end with its new message.  When the list is then longer than
the capacity, a batch goes from its front, but never the last one. -/
def put (capacity batch : Nat) (l : ByLastPut K) (sender : K) (text : Text) : ByLastPut K :=
  let l := l.without sender ++ [(sender, text)]
  if l.length > capacity then l.drop (min (max batch 1) (l.length - 1)) else l

end ByLastPut

/-! ## Requests -/

/-- What a store is asked to do. -/
inductive StoreRequest (K : Type) where
  | put (sender : K) (text : Text)
  | get (sender : K)
  | remove (sender : K)
  | clear

namespace StoreRequest

variable {K : Type}

def isPut : StoreRequest K → Bool
  | put _ _ => true
  | _ => false

/-- How many of some requests are puts. -/
def puts (requests : List (StoreRequest K)) : Nat := requests.countP isPut

/-- The answers to some requests one after the other, and the last state. -/
def run {S : Type} (answer : S → StoreRequest K → Option Text × S) (s : S) :
    List (StoreRequest K) → List (Option Text) × S
  | [] => ([], s)
  | request :: rest =>
    let later := run answer (answer s request).2 rest
    ((answer s request).1 :: later.1, later.2)

end StoreRequest

variable {K : Type} [DecidableEq K]

/-- What a store answers, and the store afterwards. -/
def RecentMessages.answer (m : RecentMessages K) : StoreRequest K → Option Text × RecentMessages K
  | .put sender text => (none, m.put sender text)
  | .get sender => (m.get? sender, m)
  | .remove sender => m.remove sender
  | .clear => (none, m.clear)

/-- What a list in the order of puts answers, and the list afterwards. -/
def ByLastPut.answer (capacity batch : Nat) (l : ByLastPut K) :
    StoreRequest K → Option Text × ByLastPut K
  | .put sender text => (none, l.put capacity batch sender text)
  | .get sender => (l.lookup sender, l)
  | .remove sender => (l.lookup sender, l.without sender)
  | .clear => (none, [])

/-! ## Lists with increasing stamps -/

namespace RecentMessage

section Stamps

variable {K : Type}

/-- What is stored, without its stamp. -/
def message (e : RecentMessage K) : K × Text := (e.sender, e.text)

/-- In the order of their stamps. -/
def Increasing (l : List (RecentMessage K)) : Prop := l.Pairwise fun e e' => e.stamp < e'.stamp

/-- One entry for each sender. -/
def OnePerSender (l : List (RecentMessage K)) : Prop := (l.map sender).Nodup

/-- What lies above the last of the first entries are the other entries. -/
theorem filter_above_eq_drop : ∀ {l : List (RecentMessage K)}, Increasing l →
    ∀ {n : Nat} {last : UInt64}, (l.map (·.stamp))[n]? = some last →
      l.filter (fun e => e.stamp > last) = l.drop (n + 1)
  | e :: rest, h, 0, last, hlast => by
      obtain ⟨hfirst, -⟩ := List.pairwise_cons.mp h
      obtain rfl : e.stamp = last := Option.some.inj hlast
      rw [List.filter_cons_of_neg (by simp), List.drop_succ_cons, List.drop_zero]
      exact List.filter_eq_self.mpr fun e' he' => decide_eq_true (hfirst e' he')
  | e :: rest, h, n + 1, last, hlast => by
      obtain ⟨hfirst, hrest⟩ := List.pairwise_cons.mp h
      have hmem : last ∈ rest.map (·.stamp) := List.mem_of_getElem? hlast
      obtain ⟨e', he', rfl⟩ := List.mem_map.mp hmem
      have hbelow : ¬e.stamp > e'.stamp := UInt64.not_lt.mpr (UInt64.le_of_lt (hfirst e' he'))
      rw [List.filter_cons_of_neg (by simpa using hbelow), List.drop_succ_cons]
      exact filter_above_eq_drop hrest hlast

/-- Sorting the stamps of a rearranged list gives them in order. -/
theorem mergeSort_stamps {l : List (RecentMessage K)} (h : Increasing l) {stamps : List UInt64}
    (hperm : stamps.Perm (l.map (·.stamp))) : stamps.mergeSort (· ≤ ·) = l.map (·.stamp) := by
  have htrans : ∀ a b c : UInt64, decide (a ≤ b) → decide (b ≤ c) → decide (a ≤ c) := by
    intro a b c hab hbc
    exact decide_eq_true (UInt64.le_trans (of_decide_eq_true hab) (of_decide_eq_true hbc))
  have htotal : ∀ a b : UInt64, decide (a ≤ b) || decide (b ≤ a) := by
    intro a b
    simpa using UInt64.le_total a b
  have hstamps : (l.map (·.stamp)).Pairwise fun a b : UInt64 => decide (a ≤ b) :=
    List.pairwise_map.mpr (h.imp fun hlt => decide_eq_true (UInt64.le_of_lt hlt))
  refine List.Perm.eq_of_pairwise (fun a b _ _ hab hba => ?_)
    (List.pairwise_mergeSort htrans htotal stamps) hstamps ((List.mergeSort_perm _ _).trans hperm)
  exact UInt64.le_antisymm (of_decide_eq_true hab) (of_decide_eq_true hba)

end Stamps

/-! ## Entries by their senders -/

section Senders

variable {K : Type} [DecidableEq K]

theorem find?_eq_some_iff {l : List (RecentMessage K)} (h : OnePerSender l) {k : K}
    {e : RecentMessage K} : l.find? (fun e => e.sender == k) = some e ↔ e ∈ l ∧ e.sender = k := by
  constructor
  · intro hfind
    exact ⟨List.mem_of_find?_eq_some hfind, by simpa using List.find?_some hfind⟩
  · rintro ⟨hmem, hk⟩
    cases hfind : l.find? fun e => e.sender == k with
    | none =>
        have hother := List.find?_eq_none.mp hfind e hmem
        exact absurd (beq_iff_eq.mpr hk) hother
    | some e' =>
        have hsame : e'.sender = e.sender := by
          rw [hk]
          simpa using List.find?_some hfind
        rw [List.inj_on_of_nodup_map h (List.mem_of_find?_eq_some hfind) hmem hsame]

/-- Where every sender has one entry, it does not matter in which order they stand. -/
theorem find?_perm {l l' : List (RecentMessage K)} (hperm : l.Perm l') (h : OnePerSender l')
    (k : K) : l.find? (fun e => e.sender == k) = l'.find? fun e => e.sender == k := by
  have hl : OnePerSender l := (hperm.map sender).nodup_iff.mpr h
  refine Option.ext fun e => ?_
  rw [find?_eq_some_iff hl, find?_eq_some_iff h, hperm.mem_iff]

theorem lookup_message (l : List (RecentMessage K)) (k : K) :
    (l.map message).lookup k = (l.find? fun e => e.sender == k).map (·.text) := by
  induction l with
  | nil => rfl
  | cons e rest ih =>
      rw [List.map_cons, message, List.lookup_cons, List.find?_cons]
      by_cases h : e.sender = k
      · rw [h, beq_self_eq_true]
        rfl
      · rw [beq_eq_false_iff_ne.mpr h, beq_eq_false_iff_ne.mpr (Ne.symm h)]
        exact ih

/-- The entries of everybody else. -/
def others (l : List (RecentMessage K)) (k : K) : List (RecentMessage K) :=
  l.filter fun e => e.sender ≠ k

theorem map_message_others (l : List (RecentMessage K)) (k : K) :
    (others l k).map message = ByLastPut.without (l.map message) k := by
  rw [ByLastPut.without, List.filter_map]
  rfl

theorem sender_ne_of_mem_others {l : List (RecentMessage K)} {k : K} {e : RecentMessage K}
    (h : e ∈ others l k) : e.sender ≠ k :=
  of_decide_eq_true (List.mem_filter.mp h).2

theorem others_eq_self {l : List (RecentMessage K)} {k : K} (h : k ∉ l.map sender) :
    others l k = l := by
  refine List.filter_eq_self.mpr fun e he => decide_eq_true fun hk => h ?_
  exact hk ▸ List.mem_map_of_mem he

/-- What is put in takes the place of its sender's entry, wherever that stood. -/
theorem insert_perm (new : RecentMessage K) : ∀ {l : List (RecentMessage K)}, OnePerSender l →
    (RecentMessages.insert new l).Perm (others l new.sender ++ [new])
  | [], _ => List.Perm.refl _
  | e :: rest, h => by
      obtain ⟨hfirst, hrest⟩ := List.nodup_cons.mp h
      rw [RecentMessages.insert, others]
      by_cases hk : e.sender = new.sender
      · have hothers : others rest new.sender = rest := others_eq_self (hk ▸ hfirst)
        rw [if_pos hk, List.filter_cons_of_neg (by simpa using hk)]
        show (new :: rest).Perm (others rest new.sender ++ [new])
        rw [hothers]
        exact (List.perm_append_singleton new rest).symm
      · rw [if_neg hk, List.filter_cons_of_pos (by simpa using hk)]
        exact (insert_perm new hrest).cons e

end Senders

end RecentMessage

/-! ## The order of a store -/

namespace RecentMessages

open RecentMessage

variable {K : Type}

/-- The entries of a store, rearranged in the order of their puts. -/
structure InOrder (capacity batch : Nat) (m : RecentMessages K) (l : List (RecentMessage K)) :
    Prop where
  capacity_eq : m.capacity = capacity
  batch_eq : m.batch = max batch 1
  perm : m.entries.Perm l
  increasing : Increasing l
  senders : OnePerSender l
  /-- Nothing was put later than the next put. -/
  below : ∀ e ∈ l, e.stamp < m.next

theorem inOrder_bounded (capacity batch : Nat) :
    InOrder capacity batch (bounded capacity batch : RecentMessages K) [] where
  capacity_eq := rfl
  batch_eq := rfl
  perm := List.Perm.refl _
  increasing := List.Pairwise.nil
  senders := List.nodup_nil
  below := fun _ h => absurd h List.not_mem_nil

/-- A part of the list is in order when the store holds that part of its entries. -/
theorem InOrder.of_sublist {capacity batch : Nat} {m : RecentMessages K}
    {l : List (RecentMessage K)} (h : InOrder capacity batch m l)
    {entries l' : List (RecentMessage K)} (hsub : l'.Sublist l)
    (hperm : entries.Perm l') : InOrder capacity batch { m with entries } l' where
  capacity_eq := h.capacity_eq
  batch_eq := h.batch_eq
  perm := hperm
  increasing := h.increasing.sublist hsub
  senders := h.senders.sublist (hsub.map sender)
  below := fun e he => h.below e (hsub.subset he)

theorem InOrder.clear {capacity batch : Nat} {m : RecentMessages K}
    {l : List (RecentMessage K)} (h : InOrder capacity batch m l) :
    InOrder capacity batch m.clear [] :=
  h.of_sublist (List.nil_sublist l) (List.Perm.refl _)

theorem evict_eq (m : RecentMessages K) (keep : UInt64) :
    m.evict keep = { m with entries := (m.evict keep).entries } := by
  rw [evict]
  split <;> rfl

/-- An eviction drops the entries put first. -/
theorem evict_perm {m : RecentMessages K} {kept : List (RecentMessage K)} {new : RecentMessage K}
    (hperm : m.entries.Perm (kept ++ [new])) (hincreasing : Increasing (kept ++ [new]))
    (hbatch : 1 ≤ m.batch) :
    (m.evict new.stamp).entries.Perm (kept.drop (min m.batch kept.length) ++ [new]) := by
  obtain ⟨hkept, -, hlast⟩ := List.pairwise_append.mp hincreasing
  have hne : ∀ e ∈ kept, e.stamp ≠ new.stamp := fun e he =>
    UInt64.ne_of_lt (hlast e he new List.mem_cons_self)
  -- the stamps that may go are those of the entries before the one just put
  have hstamps : ((m.entries.map (·.stamp)).filter (· != new.stamp)).Perm
      (kept.map (·.stamp)) := by
    refine ((hperm.map (·.stamp)).filter (· != new.stamp)).trans (List.Perm.of_eq ?_)
    rw [List.map_append, List.filter_append, List.map_singleton,
      List.filter_cons_of_neg (by simp), List.filter_nil, List.append_nil]
    refine List.filter_eq_self.mpr fun stamp hstamp => ?_
    obtain ⟨e, he, rfl⟩ := List.mem_map.mp hstamp
    exact bne_iff_ne.mpr (hne e he)
  have hcutoff : cutoff? (min m.batch
        ((m.entries.map (·.stamp)).filter (· != new.stamp)).length)
      ((m.entries.map (·.stamp)).filter (· != new.stamp))
      = (kept.map (·.stamp))[min m.batch kept.length - 1]? := by
    rw [cutoff?, mergeSort_stamps hkept hstamps, hstamps.length_eq, List.length_map]
  rw [evict]
  simp only [hcutoff]
  cases hget : (kept.map (·.stamp))[min m.batch kept.length - 1]? with
  | none =>
      have hlength := List.getElem?_eq_none_iff.mp hget
      rw [List.length_map] at hlength
      have hempty : kept = [] := List.eq_nil_of_length_eq_zero (by omega)
      rw [hempty, List.drop_nil]
      rw [hempty] at hperm
      exact hperm
  | some last =>
      have hlt := (List.getElem?_eq_some_iff.mp hget).1
      rw [List.length_map] at hlt
      have hdrop := filter_above_eq_drop hkept hget
      rw [show min m.batch kept.length - 1 + 1 = min m.batch kept.length by omega] at hdrop
      refine (hperm.filter _).trans (List.Perm.of_eq ?_)
      rw [List.filter_append, List.filter_cons_of_pos (by simp), List.filter_nil, ← hdrop]
      refine congrArg (· ++ [new]) (List.filter_congr fun e he => ?_)
      rw [beq_eq_false_iff_ne.mpr (hne e he), Bool.or_false]

variable [DecidableEq K]

/-- The store with a message put in, before anything is evicted. -/
def stored (m : RecentMessages K) (k : K) (text : Text) : RecentMessages K :=
  { m with entries := insert ⟨k, text, m.next⟩ m.entries, next := m.next + 1 }

theorem put_eq (m : RecentMessages K) (k : K) (text : Text) : m.put k text =
    if (m.stored k text).size > (m.stored k text).capacity then (m.stored k text).evict m.next
    else m.stored k text := rfl

namespace InOrder

variable {capacity batch : Nat} {m : RecentMessages K} {l : List (RecentMessage K)}

theorem get?_eq (h : InOrder capacity batch m l) (k : K) :
    m.get? k = (l.map message).lookup k := by
  rw [lookup_message, get?, find?, find?_perm h.perm h.senders]

theorem remove (h : InOrder capacity batch m l) (k : K) :
    InOrder capacity batch (m.remove k).2 (others l k) :=
  h.of_sublist List.filter_sublist (h.perm.filter _)

theorem stored (h : InOrder capacity batch m l) (hnext : m.next.toNat + 1 < UInt64.size) (k : K)
    (text : Text) : InOrder capacity batch (m.stored k text)
      (others l k ++ [⟨k, text, m.next⟩]) where
  capacity_eq := h.capacity_eq
  batch_eq := h.batch_eq
  perm := by
    have hsenders : OnePerSender m.entries := (h.perm.map sender).nodup_iff.mpr h.senders
    exact (insert_perm _ hsenders).trans ((h.perm.filter _).append_right _)
  increasing := by
    refine List.pairwise_append.mpr ⟨h.increasing.filter _, List.pairwise_singleton _ _, ?_⟩
    intro e he new hnew
    obtain rfl := List.mem_singleton.mp hnew
    exact h.below e (List.mem_of_mem_filter he)
  senders := by
    rw [OnePerSender, List.map_append]
    refine List.Nodup.append (h.senders.sublist (List.filter_sublist.map sender))
      (List.nodup_singleton _) fun k' hold hnew => ?_
    obtain ⟨e, he, rfl⟩ := List.mem_map.mp hold
    exact sender_ne_of_mem_others he (List.mem_singleton.mp hnew)
  below := by
    have hstep : m.next < m.next + 1 := by
      rw [UInt64.lt_iff_toNat_lt, UInt64.toNat_add, UInt64.toNat_one, Nat.mod_eq_of_lt hnext]
      exact Nat.lt_succ_self _
    intro e he
    rcases List.mem_append.mp he with he | he
    · exact UInt64.lt_trans (h.below e (List.mem_of_mem_filter he)) hstep
    · obtain rfl := List.mem_singleton.mp he
      exact hstep

end InOrder

/-- The entries in the order of their puts, when one more is put behind `l`. -/
def putBehind (capacity batch : Nat) (l : List (RecentMessage K)) (new : RecentMessage K) :
    List (RecentMessage K) :=
  let l := others l new.sender ++ [new]
  if l.length > capacity then l.drop (min (max batch 1) (l.length - 1)) else l

theorem map_message_putBehind (capacity batch : Nat) (l : List (RecentMessage K))
    (new : RecentMessage K) : (putBehind capacity batch l new).map message
      = ByLastPut.put capacity batch (l.map message) new.sender new.text := by
  have hall : (others l new.sender ++ [new]).map message
      = ByLastPut.without (l.map message) new.sender ++ [(new.sender, new.text)] := by
    rw [List.map_append, map_message_others]
    rfl
  rw [ByLastPut.put, ← hall, putBehind]
  simp only [List.length_map]
  split
  · exact List.map_drop
  · rfl

/-- The entry just put stays, and of the others the ones put last. -/
theorem exists_putBehind_eq (capacity batch : Nat) (l : List (RecentMessage K))
    (new : RecentMessage K) :
    ∃ kept, kept <:+ others l new.sender ∧ putBehind capacity batch l new = kept ++ [new] := by
  rw [putBehind]
  split
  · refine ⟨_, List.drop_suffix _ _, List.drop_append_of_le_length ?_⟩
    rw [List.length_append, List.length_singleton]
    omega
  · exact ⟨_, List.suffix_refl _, rfl⟩

/-- A put keeps the store in order. -/
theorem InOrder.put {capacity batch : Nat} {m : RecentMessages K} {l : List (RecentMessage K)}
    (h : InOrder capacity batch m l) (hnext : m.next.toNat + 1 < UInt64.size) (k : K) (text : Text) :
    InOrder capacity batch (m.put k text) (putBehind capacity batch l ⟨k, text, m.next⟩) := by
  have hstored := h.stored hnext k text
  have hlarge : (m.stored k text).size > (m.stored k text).capacity
      ↔ (others l k ++ [RecentMessage.mk k text m.next]).length > capacity := by
    rw [size, hstored.perm.length_eq, hstored.capacity_eq]
  rw [put_eq, putBehind]
  by_cases hsize : (others l k ++ [RecentMessage.mk k text m.next]).length > capacity
  · rw [if_pos (hlarge.mpr hsize), if_pos hsize, evict_eq]
    refine hstored.of_sublist (List.drop_sublist _ _) ?_
    have hevicted := evict_perm hstored.perm hstored.increasing
      (hstored.batch_eq ▸ Nat.le_max_right batch 1)
    rw [List.length_append, List.length_singleton, Nat.add_sub_cancel, ← hstored.batch_eq,
      List.drop_append_of_le_length (Nat.min_le_right _ _)]
    exact hevicted
  · rw [if_neg (mt hlarge.mp hsize), if_neg hsize]
    exact hstored

/-- The message just put is there. -/
theorem InOrder.get?_put {capacity batch : Nat} {m : RecentMessages K}
    {l : List (RecentMessage K)} (h : InOrder capacity batch m l)
    (hnext : m.next.toNat + 1 < UInt64.size) (k : K) (text : Text) :
    (m.put k text).get? k = some text := by
  have hput := h.put hnext k text
  obtain ⟨kept, -, hbehind⟩ := exists_putBehind_eq capacity batch l ⟨k, text, m.next⟩
  have hnew : ⟨k, text, m.next⟩ ∈ (m.put k text).entries := by
    rw [hput.perm.mem_iff, hbehind]
    exact List.mem_append_right _ List.mem_cons_self
  have hsenders : OnePerSender (m.put k text).entries :=
    (hput.perm.map sender).nodup_iff.mpr hput.senders
  rw [get?, find?, (find?_eq_some_iff hsenders).mpr ⟨hnew, rfl⟩]
  rfl

/-- Of two entries of other senders, a put does not evict the later one alone. -/
theorem InOrder.mem_put_of_later {capacity batch : Nat} {m : RecentMessages K}
    {l : List (RecentMessage K)} (h : InOrder capacity batch m l)
    (hnext : m.next.toNat + 1 < UInt64.size) (k : K) (text : Text) {older newer : RecentMessage K}
    (hnewer : newer ∈ m.entries) (hlater : older.stamp < newer.stamp) (hother : newer.sender ≠ k)
    (hkept : older ∈ (m.put k text).entries) : newer ∈ (m.put k text).entries := by
  have hput := h.put hnext k text
  obtain ⟨kept, ⟨dropped, hsplit⟩, hbehind⟩ :=
    exists_putBehind_eq capacity batch l ⟨k, text, m.next⟩
  rw [hput.perm.mem_iff, hbehind] at hkept ⊢
  have hmem := h.perm.mem_iff.mp hnewer
  rcases List.mem_append.mp hkept with hkept | hnew
  · have hincreasing : Increasing (dropped ++ kept) := hsplit ▸ h.increasing.filter _
    have hin : newer ∈ dropped ++ kept :=
      hsplit ▸ List.mem_filter.mpr ⟨hmem, decide_eq_true hother⟩
    rcases List.mem_append.mp hin with hdropped | hin
    · have hearlier := (List.pairwise_append.mp hincreasing).2.2 newer hdropped older hkept
      exact absurd hlater (UInt64.lt_asymm hearlier)
    · exact List.mem_append_left _ hin
  · obtain rfl := List.mem_singleton.mp hnew
    exact absurd hlater (UInt64.lt_asymm (h.below newer hmem))

end RecentMessages

/-! ## Runs -/

namespace StoreRequest

variable {K S : Type}

theorem run_append (answer : S → StoreRequest K → Option Text × S) (s : S)
    (earlier later : List (StoreRequest K)) : run answer s (earlier ++ later)
      = ((run answer s earlier).1 ++ (run answer (run answer s earlier).2 later).1,
          (run answer (run answer s earlier).2 later).2) := by
  induction earlier generalizing s with
  | nil => rfl
  | cons request rest ih =>
      rw [List.cons_append, run, run, ih]
      rfl

end StoreRequest

namespace ByLastPut

variable {K : Type} [DecidableEq K] {capacity batch : Nat}

theorem length_put_le {l : ByLastPut K} (h : l.length ≤ max capacity 1) (sender : K)
    (text : Text) : (l.put capacity batch sender text).length ≤ max capacity 1 := by
  have hwithout : (l.without sender).length ≤ l.length := List.length_filter_le _ _
  rw [put]
  simp only [List.length_append, List.length_singleton]
  split
  · rw [List.length_drop, List.length_append, List.length_singleton]
    omega
  · rw [List.length_append, List.length_singleton]
    omega

theorem length_answer_le {l : ByLastPut K} (h : l.length ≤ max capacity 1)
    (request : StoreRequest K) : (answer capacity batch l request).2.length ≤ max capacity 1 := by
  cases request with
  | put sender text => exact length_put_le h sender text
  | get sender => exact h
  | remove sender => exact Nat.le_trans (List.length_filter_le _ _) h
  | clear => exact Nat.zero_le _

theorem length_run_le (requests : List (StoreRequest K)) {l : ByLastPut K}
    (h : l.length ≤ max capacity 1) :
    (StoreRequest.run (answer capacity batch) l requests).2.length ≤ max capacity 1 := by
  induction requests generalizing l with
  | nil => exact h
  | cons request rest ih => exact ih (length_answer_le h request)

end ByLastPut

namespace RecentMessages

open RecentMessage StoreRequest

variable {K : Type} [DecidableEq K] {capacity batch : Nat}

theorem next_put (m : RecentMessages K) (k : K) (text : Text) :
    (m.put k text).next = m.next + 1 := by
  rw [put_eq]
  split
  · rw [evict_eq]
    rfl
  · rfl

/-- One request: the store and the list give the same answer, and the store stays in the
order of the list. -/
theorem InOrder.answer {m : RecentMessages K} {l : List (RecentMessage K)}
    (h : InOrder capacity batch m l) (request : StoreRequest K)
    (hnext : m.next.toNat + puts [request] < UInt64.size) :
    (m.answer request).1 = (ByLastPut.answer capacity batch (l.map message) request).1
      ∧ (m.answer request).2.next.toNat = m.next.toNat + puts [request]
      ∧ ∃ l', InOrder capacity batch (m.answer request).2 l'
        ∧ l'.map message = (ByLastPut.answer capacity batch (l.map message) request).2 := by
  cases request with
  | put k text =>
      have hone : m.next.toNat + 1 < UInt64.size := hnext
      refine ⟨rfl, ?_, _, h.put hone k text, map_message_putBehind _ _ _ _⟩
      show (m.put k text).next.toNat = m.next.toNat + 1
      rw [next_put, UInt64.toNat_add, UInt64.toNat_one, Nat.mod_eq_of_lt hone]
  | get k => exact ⟨h.get?_eq k, rfl, l, h, rfl⟩
  | remove k => exact ⟨h.get?_eq k, rfl, _, h.remove k, map_message_others l k⟩
  | clear => exact ⟨rfl, rfl, [], h.clear, rfl⟩

theorem InOrder.run (requests : List (StoreRequest K)) {m : RecentMessages K}
    {l : List (RecentMessage K)} (h : InOrder capacity batch m l)
    (hnext : m.next.toNat + puts requests < UInt64.size) :
    (StoreRequest.run RecentMessages.answer m requests).1
        = (StoreRequest.run (ByLastPut.answer capacity batch) (l.map message) requests).1
      ∧ (StoreRequest.run RecentMessages.answer m requests).2.next.toNat
        = m.next.toNat + puts requests
      ∧ ∃ l', InOrder capacity batch (StoreRequest.run RecentMessages.answer m requests).2 l'
        ∧ l'.map message
          = (StoreRequest.run (ByLastPut.answer capacity batch) (l.map message) requests).2 := by
  induction requests generalizing m l with
  | nil => exact ⟨rfl, rfl, l, h, rfl⟩
  | cons request rest ih =>
      have hputs : puts ([request] ++ rest) = puts [request] + puts rest := List.countP_append
      rw [List.singleton_append] at hputs
      obtain ⟨hanswer, hcount, l', hl', hmessages⟩ := h.answer request (by omega)
      obtain ⟨hlater, hlast, l'', hl'', hmessages'⟩ := ih hl' (by omega)
      rw [hmessages] at hlater hmessages'
      refine ⟨congrArg₂ List.cons hanswer hlater, ?_, l'', hl'', hmessages'⟩
      show (StoreRequest.run RecentMessages.answer (m.answer request).2 rest).2.next.toNat = _
      omega

theorem inOrder_run (capacity batch : Nat) {requests : List (StoreRequest K)}
    (hputs : puts requests < UInt64.size) :
    let last := StoreRequest.run RecentMessages.answer (bounded capacity batch) requests
    let list := StoreRequest.run (ByLastPut.answer capacity batch) ([] : ByLastPut K) requests
    last.1 = list.1 ∧ last.2.next.toNat = puts requests
      ∧ ∃ l, InOrder capacity batch last.2 l ∧ l.map message = list.2 := by
  have hzero : (bounded capacity batch : RecentMessages K).next.toNat + puts requests
      = puts requests := Nat.zero_add _
  have hrun := (inOrder_bounded capacity batch).run requests (by rwa [hzero])
  rwa [hzero] at hrun

/-- As long as stamps do not start over, a store is a list in the order of last puts: it
gives the same answers and holds as many messages, and the same ones.  So it never holds
more than its capacity, or one; the message just put is there; and of the entries of
other senders a put evicts no later one before an earlier one. -/
theorem run_eq_by_last_put (capacity batch : Nat) (requests : List (StoreRequest K))
    (hputs : puts requests < UInt64.size) :
    let store := StoreRequest.run RecentMessages.answer (bounded capacity batch)
    let list := StoreRequest.run (ByLastPut.answer capacity batch) ([] : ByLastPut K)
    (store requests).1 = (list requests).1
      ∧ (store requests).2.size = (list requests).2.length
      ∧ ((store requests).2.entries.map message).Perm (list requests).2
      ∧ (∀ k, (store requests).2.get? k = (list requests).2.lookup k)
      ∧ (store requests).2.size ≤ max capacity 1
      ∧ ∀ earlier k text, requests = earlier ++ [.put k text] →
        (store requests).2.get? k = some text
          ∧ ∀ older ∈ (store earlier).2.entries, ∀ newer ∈ (store earlier).2.entries,
            older.stamp < newer.stamp → newer.sender ≠ k →
              older ∈ (store requests).2.entries → newer ∈ (store requests).2.entries := by
  intro store list
  obtain ⟨hanswers, -, l, hl, hmessages⟩ := inOrder_run capacity batch hputs
  have hperm : ((store requests).2.entries.map message).Perm (list requests).2 :=
    hmessages ▸ hl.perm.map message
  have hsize : (store requests).2.size = (list requests).2.length := by
    rw [size, ← hperm.length_eq, List.length_map]
  refine ⟨hanswers, hsize, hperm, fun k => ?_, ?_, ?_⟩
  · exact (hl.get?_eq k).trans (congrArg (List.lookup k) hmessages)
  · rw [hsize]
    exact ByLastPut.length_run_le requests (Nat.zero_le _)
  · rintro earlier k text rfl
    have hearlier : puts earlier + 1 < UInt64.size := by
      rwa [puts, List.countP_append] at hputs
    obtain ⟨-, hnext, l₀, hl₀, -⟩ := inOrder_run capacity batch (Nat.lt_of_succ_lt hearlier)
    have hone : (store earlier).2.next.toNat + 1 < UInt64.size := hnext ▸ hearlier
    have hlast : (store (earlier ++ [.put k text])).2 = (store earlier).2.put k text :=
      congrArg Prod.snd (run_append _ _ earlier [.put k text])
    rw [hlast]
    exact ⟨hl₀.get?_put hone k text, fun older _ newer hnewer hlater hother hkept =>
      hl₀.mem_put_of_later hone k text hnewer hlater hother hkept⟩

/-- Three senders in a store for two, one of whom sends again before the third does. -/
def requestSample : List (StoreRequest Nat) :=
  [.put 1 "a".toList, .put 2 "b".toList, .put 1 "c".toList, .put 3 "d".toList, .get 1, .get 2,
    .remove 3, .put 2 "e".toList]

theorem run_eq_by_last_put_of_sample :
    let store := StoreRequest.run RecentMessages.answer (bounded 2 1)
    let list := StoreRequest.run (ByLastPut.answer 2 1) ([] : ByLastPut Nat)
    puts requestSample < UInt64.size
      ∧ (store requestSample).1 = (list requestSample).1
      ∧ (list requestSample).1
        = [none, none, none, none, some "c".toList, none, some "d".toList, none]
      ∧ ((store requestSample).2.entries.map message).Perm (list requestSample).2
      ∧ (list requestSample).2 = [(1, "c".toList), (2, "e".toList)]
      ∧ (store requestSample).2.get? 2 = some "e".toList := by
  intro store list
  have hputs : puts requestSample < UInt64.size := by decide
  obtain ⟨hanswers, -, hperm, -, -, hlast⟩ := run_eq_by_last_put 2 1 requestSample hputs
  exact ⟨hputs, hanswers, by decide, hperm, by decide, (hlast (requestSample.take 7) 2 _ rfl).1⟩

end RecentMessages

end StyledChat
