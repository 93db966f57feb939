/-
Snapshots: a complete set of templates, and the choice of one by permission.

A snapshot never changes.  Reloading builds a new one, so whoever holds an old
one keeps a consistent view.
-/
import StyledChat.Chat.Template
import StyledChat.Chat.Permission

namespace StyledChat

/-- Templates in the order they are tried, and the default among them. -/
structure Snapshot where
  templates : List Template
  default : Template

namespace Snapshot

/-- The templates with an id not met before, in order; `seen` holds the ids met
so far.  Reported are the templates dropped, and those kept that can never be
chosen. -/
def keepFirst (seen : List Text) : List Template → Logged Diagnostic (List Template)
  | [] => Logged.pure []
  | t :: rest =>
    if seen.contains t.id then do
      Logged.report (.duplicateTemplate t.id)
      keepFirst seen rest
    else do
      Logged.reportIf (!t.isGated && !t.isDefault) (.neverSelected t.id)
      let kept ← keepFirst (t.id :: seen) rest
      return t :: kept

/-- The snapshot of some templates.  Of several with one id the first is kept; a
missing default is supplied. -/
def build (templates : List Template) : Logged Diagnostic Snapshot := do
  let kept ← keepFirst [] templates
  match kept.find? Template.isDefault with
  | some t => return ⟨kept, t⟩
  | none =>
    Logged.report .noDefaultTemplate
    return ⟨kept, Template.builtin⟩

/-- The first gated template whose node `ask` grants.  Nodes are asked in order,
and none after the one granted. -/
def firstGranted {m : Type → Type} [Monad m] (ask : Text → m Bool) :
    List Template → m (Option Template)
  | [] => pure none
  | t :: rest =>
    match t.permission with
    | none => firstGranted ask rest
    | some node => do
      if ← ask node then return some t else firstGranted ask rest

/-- The first gated template whose node `ask` grants, else the default.  What is
recorded of the nodes that are asked is up to `ask`. -/
def resolveBy {m : Type → Type} [Monad m] (ask : Text → m Bool) (s : Snapshot) :
    m Template := do
  return (← firstGranted ask s.templates).getD s.default

/-- The template that a backend chooses, with a report of every check that fails. -/
def resolve (s : Snapshot) (perms : Permissions) : Logged Diagnostic Template :=
  s.resolveBy perms.allows

/-- The template of an id. -/
def get? (s : Snapshot) (id : Text) : Option Template := s.templates.find? fun t => t.id == id

def size (s : Snapshot) : Nat := s.templates.length

def isEmpty (s : Snapshot) : Bool := s.templates.isEmpty

end Snapshot

end StyledChat
