/-
What a permission set grants.

A set is the outcome of a history: nodes are granted and revoked, and what counts of a
node is the last thing that happened to it (`GrantedBy`).  Every change keeps the nodes of
a set those that its history grants, without repetition (`PermissionSet.LeftBy.apply`), so
that a set can be read off its history, however long that is.

Asked for a node, a set walks up the dots of it and looks for a wildcard at each stop.  The
stops are the node itself and what stands before one of its dots
(`PermissionSet.holdsWildcard_iff`), whatever lies between two dots: the parts of a node may
be empty, and a `*` among them is no more than a part.
-/
import Mathlib.Data.Set.Card
import StyledChat.Chat.Permission

namespace StyledChat

/-! ## Histories -/

/-- What happens to a permission set. -/
inductive PermissionChange where
  /-- A node is added, to a set in use or to one that is being built up. -/
  | grant (node : Text)
  | revoke (node : Text)

/-- The node is granted by the history and not revoked since.  A history names nodes in any
case of letters. -/
def GrantedBy (history : List PermissionChange) (g : Text) : Prop :=
  ∃ before node after, history = before ++ .grant node :: after ∧ Text.lower node = g
    ∧ ∀ other, .revoke other ∈ after → Text.lower other ≠ g

namespace GrantedBy

variable {history : List PermissionChange} {g : Text}

theorem not_nil (g : Text) : ¬GrantedBy [] g := by
  rintro ⟨before, node, after, h, -⟩
  exact absurd h.symm (List.append_ne_nil_of_right_ne_nil before (List.cons_ne_nil _ _))

theorem concat {change : PermissionChange} (h : GrantedBy history g)
    (hkeeps : ∀ other, change = .revoke other → Text.lower other ≠ g) :
    GrantedBy (history ++ [change]) g := by
  obtain ⟨before, node, after, rfl, hnode, hafter⟩ := h
  refine ⟨before, node, after ++ [change], by rw [List.append_assoc, List.cons_append], hnode,
    fun other hother => ?_⟩
  rcases List.mem_append.mp hother with hother | hother
  · exact hafter other hother
  · exact hkeeps other (List.mem_singleton.mp hother).symm

/-- What a longer history grants is what it has just granted, or what it granted before and
has not just revoked. -/
theorem of_concat {change : PermissionChange} (h : GrantedBy (history ++ [change]) g) :
    (∃ node, change = .grant node ∧ Text.lower node = g)
      ∨ GrantedBy history g ∧ ∀ other, change = .revoke other → Text.lower other ≠ g := by
  obtain ⟨before, node, after, he, hnode, hafter⟩ := h
  rcases after.eq_nil_or_concat with rfl | ⟨middle, last, rfl⟩
  · exact Or.inl ⟨node, List.singleton_inj.mp (List.append_inj' he rfl).2, hnode⟩
  · rw [List.concat_eq_append, ← List.cons_append, ← List.append_assoc] at he
    obtain ⟨rfl, hlast⟩ := List.append_inj' he rfl
    obtain rfl := List.singleton_inj.mp hlast
    refine Or.inr ⟨⟨before, node, middle, rfl, hnode, fun other hother => ?_⟩, ?_⟩
    · exact hafter other (List.concat_eq_append .. ▸ List.mem_append_left _ hother)
    · rintro other rfl
      exact hafter other (List.concat_eq_append .. ▸ List.mem_append_right _ List.mem_cons_self)

theorem concat_grant_iff {node : Text} :
    GrantedBy (history ++ [.grant node]) g ↔ Text.lower node = g ∨ GrantedBy history g := by
  constructor
  · intro h
    rcases h.of_concat with ⟨_, he, hnode⟩ | ⟨h, -⟩
    · exact Or.inl (PermissionChange.grant.inj he ▸ hnode)
    · exact Or.inr h
  · rintro (hnode | h)
    · exact ⟨history, node, [], rfl, hnode, fun _ hother => absurd hother List.not_mem_nil⟩
    · exact h.concat fun _ he => nomatch he

theorem concat_revoke_iff {node : Text} :
    GrantedBy (history ++ [.revoke node]) g ↔ GrantedBy history g ∧ Text.lower node ≠ g := by
  constructor
  · intro h
    rcases h.of_concat with ⟨_, he, -⟩ | ⟨h, hkept⟩
    · cases he
    · exact ⟨h, hkept node rfl⟩
  · rintro ⟨h, hkept⟩
    exact h.concat fun _ he => PermissionChange.revoke.inj he ▸ hkept

end GrantedBy

/-! ## The nodes of a set -/

namespace PermissionSet

/-- The set after one change. -/
def apply (s : PermissionSet) : PermissionChange → PermissionSet
  | .grant node => s.grant node
  | .revoke node => (s.revoke node).2

/-- The set after some changes. -/
def after (s : PermissionSet) (changes : List PermissionChange) : PermissionSet :=
  changes.foldl apply s

theorem ofList_eq_after (nodes : List Text) :
    ofList nodes = after {} (nodes.map .grant) := by
  rw [ofList, after, List.foldl_map]
  rfl

/-- The set that a history leaves has the nodes that are granted by it, each once. -/
structure LeftBy (s : PermissionSet) (history : List PermissionChange) : Prop where
  nodup : s.nodes.Nodup
  mem_iff : ∀ g, g ∈ s.nodes ↔ GrantedBy history g

variable {s : PermissionSet} {history : List PermissionChange}

theorem leftBy_nil : LeftBy {} [] where
  nodup := List.nodup_nil
  mem_iff g := iff_of_false List.not_mem_nil (GrantedBy.not_nil g)

theorem grant_of_mem {node : Text} (h : Text.lower node ∈ s.nodes) : s.grant node = s :=
  if_pos (List.contains_iff_mem.mpr h)

theorem grant_of_not_mem {node : Text} (h : Text.lower node ∉ s.nodes) :
    s.grant node = ⟨Text.lower node :: s.nodes⟩ :=
  if_neg (mt List.contains_iff_mem.mp h)

theorem LeftBy.grant (h : LeftBy s history) (node : Text) :
    LeftBy (s.grant node) (history ++ [.grant node]) := by
  by_cases hmem : Text.lower node ∈ s.nodes
  · rw [grant_of_mem hmem]
    refine ⟨h.nodup, fun g => ?_⟩
    rw [GrantedBy.concat_grant_iff, ← h.mem_iff]
    exact ⟨Or.inr, fun hg => hg.elim (fun e => e ▸ hmem) id⟩
  · rw [grant_of_not_mem hmem]
    refine ⟨List.nodup_cons.mpr ⟨hmem, h.nodup⟩, fun g => ?_⟩
    rw [GrantedBy.concat_grant_iff, ← h.mem_iff, List.mem_cons, eq_comm]

theorem LeftBy.revoke (h : LeftBy s history) (node : Text) :
    LeftBy (s.revoke node).2 (history ++ [.revoke node]) where
  nodup := h.nodup.erase _
  mem_iff g := by
    show g ∈ s.nodes.erase _ ↔ _
    rw [h.nodup.mem_erase_iff, h.mem_iff, GrantedBy.concat_revoke_iff, and_comm, ne_comm]

theorem LeftBy.apply (h : LeftBy s history) (change : PermissionChange) :
    LeftBy (s.apply change) (history ++ [change]) := by
  cases change with
  | grant node => exact h.grant node
  | revoke node => exact h.revoke node

theorem LeftBy.after (h : LeftBy s history) (changes : List PermissionChange) :
    LeftBy (s.after changes) (history ++ changes) := by
  induction changes generalizing s history with
  | nil =>
      rw [List.append_nil]
      exact h
  | cons change rest ih =>
      have hrest := ih (h.apply change)
      rwa [List.append_assoc] at hrest

theorem leftBy_after (nodes : List Text) (changes : List PermissionChange) :
    LeftBy ((ofList nodes).after changes) (nodes.map .grant ++ changes) := by
  rw [ofList_eq_after]
  exact (leftBy_nil.after _).after changes

/-! ## The walk up the dots -/

/-- The node stands at or above another: it is that node, or what stands before one of its
dots. -/
def IsAbove (above n : Text) : Prop := n = above ∨ above ++ ['.'] <+: n

theorem parent?_of_not_mem {n : Text} (h : '.' ∉ n) : parent? n = none := by
  rw [parent?, Text.cutAt?_of_not_mem fun hmem => h (List.mem_reverse.mp hmem), Option.map_none]

theorem parent?_append {last : Text} (h : '.' ∉ last) (above : Text) :
    parent? (above ++ '.' :: last) = some above := by
  have hrev : (above ++ '.' :: last).reverse = last.reverse ++ '.' :: above.reverse := by
    rw [List.reverse_append, List.reverse_cons, List.append_assoc, List.singleton_append]
  rw [parent?, hrev, Text.cutAt?_eq fun hmem => h (List.mem_reverse.mp hmem)]
  exact congrArg some above.reverse_reverse

/-- A node without a dot, or one cut at its last dot. -/
theorem no_dot_or_last_dot (n : Text) :
    '.' ∉ n ∨ ∃ above last, n = above ++ '.' :: last ∧ '.' ∉ last := by
  induction n with
  | nil => exact Or.inl List.not_mem_nil
  | cons c rest ih =>
      rcases ih with hrest | ⟨above, last, rfl, hlast⟩
      · by_cases hc : c = '.'
        · exact Or.inr ⟨[], rest, by rw [hc]; rfl, hrest⟩
        · exact Or.inl fun h => (List.mem_cons.mp h).elim (fun e => hc e.symm) hrest
      · exact Or.inr ⟨c :: above, last, rfl, hlast⟩

theorem isAbove_of_not_mem {n : Text} (h : '.' ∉ n) {above : Text} :
    IsAbove above n ↔ n = above := by
  refine ⟨fun ha => ha.resolve_right ?_, Or.inl⟩
  rintro ⟨rest, rfl⟩
  exact h (List.mem_append_left _ (List.mem_append_right _ List.mem_cons_self))

/-- The stops above a node are those at or above what stands before its last dot. -/
theorem isAbove_append_iff {last : Text} (h : '.' ∉ last) {above upper : Text} :
    IsAbove above (upper ++ '.' :: last) ↔ upper ++ '.' :: last = above ∨ IsAbove above upper := by
  refine or_congr_right ⟨?_, ?_⟩
  · rintro ⟨rest, he⟩
    rw [List.append_assoc, List.append_eq_append_iff] at he
    rcases he with ⟨more, rfl, hmore⟩ | ⟨more, rfl, hmore⟩
    · -- the dot behind `above` lies at or before the last one
      cases more with
      | nil => exact Or.inl (List.append_nil above)
      | cons c more =>
          obtain rfl : '.' = c := (List.cons.inj hmore).1
          exact Or.inr ⟨more, by rw [List.append_assoc]; rfl⟩
    · -- `above` itself has the last dot, and another one would follow
      cases more with
      | nil => exact Or.inl (List.append_nil upper).symm
      | cons c more =>
          refine absurd ?_ h
          rw [(List.cons.inj hmore).2]
          exact List.mem_append_right _ List.mem_cons_self
  · rintro (rfl | ⟨rest, rfl⟩)
    · exact ⟨last, by rw [List.append_assoc]; rfl⟩
    · exact ⟨rest ++ '.' :: last, by rw [List.append_assoc, List.append_assoc, List.append_assoc]⟩

/-- The walk finds the wildcards that are granted for the node or for what stands above it. -/
theorem holdsWildcard_iff (s : PermissionSet) (n : Text) :
    s.holdsWildcard n = true ↔ ∃ above, IsAbove above n ∧ wildcard above ∈ s.nodes := by
  rcases no_dot_or_last_dot n with hdot | ⟨upper, last, hn, hlast⟩
  · have hwalk : s.holdsWildcard n = s.nodes.contains (wildcard n) := by
      rw [holdsWildcard, parent?_of_not_mem hdot, Bool.or_false]
    rw [hwalk, List.contains_iff_mem]
    simp only [isAbove_of_not_mem hdot, exists_eq_left']
  · have hshorter : upper.length < n.length := by
      rw [hn, List.length_append, List.length_cons]
      omega
    have hwalk : s.holdsWildcard n
        = (s.nodes.contains (wildcard n) || s.holdsWildcard upper) := by
      rw [holdsWildcard, hn, parent?_append hlast]
    rw [hwalk, Bool.or_eq_true, List.contains_iff_mem, holdsWildcard_iff s upper, hn]
    simp only [isAbove_append_iff hlast, or_and_right, exists_or, exists_eq_left']
termination_by n.length
decreasing_by exact hshorter

/-! ## What is granted -/

/-- The granted node covers the one that is asked for: it is `*` or that node, or the wildcard
of that node or of one above it. -/
def Covers (g n : Text) : Prop :=
  g = "*".toList ∨ g = n
    ∨ ∃ above, g = above ++ ".*".toList ∧ IsAbove above n

theorem holds_iff (s : PermissionSet) (node : Text) :
    s.holds node = true ↔ node ≠ [] ∧ ∃ g ∈ s.nodes, Covers g (Text.lower node) := by
  have hcovers : (∃ g ∈ s.nodes, Covers g (Text.lower node)) ↔ ['*'] ∈ s.nodes
      ∨ Text.lower node ∈ s.nodes ∨ s.holdsWildcard (Text.lower node) = true := by
    rw [holdsWildcard_iff]
    constructor
    · rintro ⟨g, hg, rfl | rfl | ⟨above, rfl, habove⟩⟩
      · exact Or.inl hg
      · exact Or.inr (Or.inl hg)
      · exact Or.inr (Or.inr ⟨above, habove, hg⟩)
    · rintro (hg | hg | ⟨above, habove, hg⟩)
      · exact ⟨_, hg, Or.inl rfl⟩
      · exact ⟨_, hg, Or.inr (Or.inl rfl)⟩
      · exact ⟨_, hg, Or.inr (Or.inr ⟨above, rfl, habove⟩)⟩
  rw [hcovers]
  simp only [holds, Bool.and_eq_true, Bool.or_eq_true, List.contains_iff_mem, Bool.not_eq_true',
    List.isEmpty_eq_false_iff, or_assoc]

theorem LeftBy.size_eq (h : LeftBy s history) : s.size = Set.ncard {g | GrantedBy history g} := by
  have hset : {g | GrantedBy history g} = (s.nodes.toFinset : Set Text) := by
    ext g
    rw [Finset.mem_coe, List.mem_toFinset, h.mem_iff]
    rfl
  rw [hset, Set.ncard_coe_finset, List.toFinset_card_of_nodup h.nodup, size]

/-- A set that some nodes were collected in, whatever was granted and revoked since.

It allows a node exactly when the node is not empty and is covered by one that the history
grants; it says of a node that is revoked whether the history granted that very node; and its
size is the number of nodes that the history grants.  The case of letters makes no difference
to any of this. -/
theorem allows_iff_covered (nodes : List Text) (changes : List PermissionChange) :
    let s := (ofList nodes).after changes
    let history := nodes.map .grant ++ changes
    (∀ node, (s.toPermissions.allows node).value = true
        ↔ node ≠ [] ∧ ∃ g, GrantedBy history g ∧ Covers g (Text.lower node))
      ∧ (∀ node, (s.revoke node).1 = true ↔ GrantedBy history (Text.lower node))
      ∧ s.size = Set.ncard {g | GrantedBy history g} := by
  intro s history
  have hleft : s.LeftBy history := leftBy_after nodes changes
  refine ⟨fun node => ?_, fun node => ?_, hleft.size_eq⟩
  · show s.holds node = true ↔ _
    simp only [holds_iff, hleft.mem_iff]
  · show s.nodes.contains (Text.lower node) = true ↔ _
    rw [List.contains_iff_mem, hleft.mem_iff]

end PermissionSet

end StyledChat
