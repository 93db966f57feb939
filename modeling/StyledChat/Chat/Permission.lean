/-
Permissions: how it is found out whether somebody holds a node.

A backend answers one node at a time and may fail; a failed check counts as a
refusal.  `PermissionSet` is the backend that holds its nodes itself: `*` grants
everything, and `a.b.*` grants `a.b` and every node below it.
-/
import StyledChat.Chat.Diagnostic

namespace StyledChat

/-- A backend: the answer for each node, or why there is none. -/
abbrev Permissions := Text → Except CheckFailure Bool

namespace Permissions

/-- Nobody holds anything. -/
def refuseAll : Permissions := fun _ => .ok false

/-- A backend that never fails. -/
def ofPredicate (holds : Text → Bool) : Permissions := fun node => .ok (holds node)

/-- Whether a node is granted; a failed check is reported and counts as a
refusal. -/
def allows (perms : Permissions) (node : Text) : Logged Diagnostic Bool :=
  match perms node with
  | .ok granted => Logged.pure granted
  | .error e => do
    Logged.report (.checkFailed node e)
    return false

end Permissions

/-- Granted nodes, lowered, without repetition. -/
structure PermissionSet where
  nodes : List Text := []

namespace PermissionSet

/-- Adds a node. -/
def grant (s : PermissionSet) (node : Text) : PermissionSet :=
  let node := Text.lower node
  if s.nodes.contains node then s else ⟨node :: s.nodes⟩

/-- Takes a node away, and says whether it was there. -/
def revoke (s : PermissionSet) (node : Text) : Bool × PermissionSet :=
  let node := Text.lower node
  (s.nodes.contains node, ⟨s.nodes.erase node⟩)

def ofList (nodes : List Text) : PermissionSet := nodes.foldl grant {}

def size (s : PermissionSet) : Nat := s.nodes.length

def isEmpty (s : PermissionSet) : Bool := s.nodes.isEmpty

/-- The wildcard that grants a node and everything below it. -/
def wildcard (node : Text) : Text := node ++ ['.', '*']

/-- The node above: what stands before the last dot. -/
def parent? (node : Text) : Option Text :=
  (Text.cutAt? '.' node.reverse).map fun (_, above) => above.reverse

theorem length_cutAt? {c : Char} : ∀ {t before behind : Text},
    Text.cutAt? c t = some (before, behind) → behind.length < t.length
  | [], _, _, h => by simp [Text.cutAt?] at h
  | d :: rest, before, behind, h => by
    simp only [Text.cutAt?] at h
    split at h
    · simp only [Option.some.injEq, Prod.mk.injEq] at h
      obtain ⟨_, rfl⟩ := h
      simp
    · simp only [Option.map_eq_some_iff, Prod.mk.injEq, Prod.exists] at h
      obtain ⟨b, a, hcut, _, rfl⟩ := h
      have := length_cutAt? hcut
      simp only [List.length_cons]
      omega

theorem length_parent? {node above : Text} (h : parent? node = some above) :
    above.length < node.length := by
  simp only [parent?, Option.map_eq_some_iff, Prod.exists] at h
  obtain ⟨b, a, hcut, rfl⟩ := h
  have := length_cutAt? hcut
  simpa using this

/-- Whether the wildcard of the node, or of one above it, is granted. -/
def holdsWildcard (s : PermissionSet) (node : Text) : Bool :=
  s.nodes.contains (wildcard node)
    || match _h : parent? node with
      | none => false
      | some above => s.holdsWildcard above
termination_by node.length
decreasing_by exact length_parent? ‹_›

/-- Whether a node is granted, by itself or by a wildcard.  The empty node never
is. -/
def holds (s : PermissionSet) (node : Text) : Bool :=
  let lowered := Text.lower node
  !node.isEmpty
    && (s.nodes.contains ['*'] || s.nodes.contains lowered || s.holdsWildcard lowered)

/-- The set as a backend. -/
def toPermissions (s : PermissionSet) : Permissions := Permissions.ofPredicate s.holds

end PermissionSet

end StyledChat
