/-
The choice of a template.

A snapshot keeps the first template of each id and supplies a default, and a choice walks
what is kept until a backend grants a node.  The walk is the same in every monad, so it is
told once (`Snapshot.firstGranted_eq`): which template it stops at, and which nodes it asks
on the way there.  Run with a backend that also records what it is asked
(`Permissions.consulted`), the walk says which nodes a choice asks for; run with the reports
alone, what it reports.
-/
import Mathlib.Data.List.Basic
import StyledChat.Chat.Snapshot

namespace StyledChat

/-! ## Templates as they are given -/

namespace Template

/-- The gate that a configured node makes: a blank one makes none. -/
def gateOf (permission : Option Text) : Option Text :=
  permission.filter fun node => !Text.isBlank node

/-- The templates whose id no earlier one has. -/
def firstOfEachId : List Template → List Template
  | [] => []
  | t :: rest => t :: (firstOfEachId rest).filter fun later => later.id ≠ t.id

/-- The template for everybody: the first of the default id, else the built-in one. -/
def defaultOf (templates : List Template) : Template :=
  (templates.find? isDefault).getD builtin

/-- A template is behind the node it is configured with, unless that is blank. -/
theorem made_eq (id text : Text) (permission : Option Text) :
    made id text permission = ⟨id, text, gateOf permission⟩ := by
  cases permission with
  | none => rfl
  | some node =>
      cases hblank : Text.isBlank node <;> simp [made, gate, gateOf, Option.filter, hblank]

theorem not_blank_of_gateOf {permission : Option Text} {node : Text}
    (h : gateOf permission = some node) : permission = some node ∧ ¬Text.isBlank node := by
  obtain ⟨hgiven, hblank⟩ := Option.filter_eq_some_iff.mp h
  exact ⟨hgiven, by simpa using hblank⟩

theorem firstOfEachId_sublist (templates : List Template) :
    (firstOfEachId templates).Sublist templates := by
  induction templates with
  | nil => exact List.Sublist.refl _
  | cons t rest ih => exact (List.filter_sublist.trans ih).cons_cons t

/-- Dropping repetitions loses nothing that is looked for by its id. -/
theorem find?_firstOfEachId {p : Template → Bool} (hp : ∀ t u : Template, t.id = u.id → p t = p u)
    (templates : List Template) : (firstOfEachId templates).find? p = templates.find? p := by
  induction templates with
  | nil => rfl
  | cons t rest ih =>
      rw [firstOfEachId, List.find?_cons, List.find?_cons, List.find?_filter]
      cases ht : p t with
      | true => rfl
      | false =>
          -- what the filter takes away has the id of `t`, which is not looked for
          rw [← ih]
          refine congrArg (fun q => (firstOfEachId rest).find? q) (funext fun later => ?_)
          by_cases hid : later.id = t.id
          · simp [hid, (hp later t hid).trans ht]
          · simp [hid]

theorem find?_isDefault_firstOfEachId (templates : List Template) :
    (firstOfEachId templates).find? isDefault = templates.find? isDefault :=
  find?_firstOfEachId (fun _ _ h => congrArg (· == defaultId) h) templates

end Template

/-! ## What a snapshot holds -/

namespace Snapshot

theorem value_keepFirst : ∀ (templates : List Template) (seen : List Text),
    (keepFirst seen templates).value
      = (Template.firstOfEachId templates).filter fun t => t.id ∉ seen
  | [], _ => rfl
  | t :: rest, seen => by
      rw [keepFirst, Template.firstOfEachId]
      by_cases hseen : t.id ∈ seen
      · rw [if_pos (List.contains_iff_mem.mpr hseen)]
        show (keepFirst seen rest).value = _
        rw [value_keepFirst rest seen, List.filter_cons_of_neg (by simpa using hseen),
          List.filter_filter]
        refine List.filter_congr fun later _ => ?_
        by_cases hid : later.id = t.id
        · simp [hid, hseen]
        · simp [hid]
      · rw [if_neg (mt List.contains_iff_mem.mp hseen)]
        show t :: (keepFirst (t.id :: seen) rest).value = _
        rw [value_keepFirst rest (t.id :: seen), List.filter_cons_of_pos (by simpa using hseen),
          List.filter_filter]
        refine congrArg (t :: ·) (List.filter_congr fun later _ => ?_)
        by_cases hid : later.id = t.id <;> simp [hid]

theorem value_keepFirst_nil (templates : List Template) :
    (keepFirst [] templates).value = Template.firstOfEachId templates := by
  rw [value_keepFirst]
  exact List.filter_eq_self.mpr fun _ _ => decide_eq_true List.not_mem_nil

/-- A snapshot is its templates without repetitions, and their default. -/
theorem value_build (templates : List Template) : (build templates).value
    = ⟨Template.firstOfEachId templates, Template.defaultOf templates⟩ := by
  simp only [build, bind, Logged.bind, value_keepFirst_nil,
    Template.find?_isDefault_firstOfEachId]
  rw [Template.defaultOf]
  cases templates.find? Template.isDefault <;> rfl

end Snapshot

/-! ## Backends -/

/-- What is seen of a choice: the nodes a backend is asked for, and what is reported. -/
inductive Consultation where
  | asked (node : Text)
  | reported (d : Diagnostic)

namespace Permissions

/-- Whether a backend grants a node; one that fails does not. -/
def grants (perms : Permissions) (node : Text) : Bool :=
  match perms node with
  | .ok granted => granted
  | .error _ => false

/-- What is reported of the check of a node. -/
def failure? (perms : Permissions) (node : Text) : Option Diagnostic :=
  match perms node with
  | .ok _ => none
  | .error e => some (.checkFailed node e)

/-- The backend that refuses where this one fails. -/
def refusing (perms : Permissions) : Permissions := fun node =>
  match perms node with
  | .ok granted => .ok granted
  | .error _ => .ok false

/-- A check that also records that it is made. -/
def consulted (perms : Permissions) (node : Text) : Logged Consultation Bool := do
  Logged.report (.asked node)
  (perms.allows node).mapLog .reported

theorem grants_eq_true_iff {perms : Permissions} {node : Text} :
    perms.grants node = true ↔ perms node = .ok true := by
  rw [grants]
  cases perms node with
  | ok granted => simp
  | error e => simp

theorem allows_eq (perms : Permissions) (node : Text) :
    perms.allows node = ⟨perms.grants node, (perms.failure? node).toList⟩ := by
  rw [allows, grants, failure?]
  cases perms node <;> rfl

theorem consulted_eq (perms : Permissions) (node : Text) : perms.consulted node
    = ⟨perms.grants node, .asked node :: (perms.failure? node).toList.map .reported⟩ := by
  rw [consulted, allows_eq]
  rfl

theorem grants_refusing (perms : Permissions) : perms.refusing.grants = perms.grants := by
  funext node
  rw [grants, grants, refusing]
  cases perms node <;> rfl

theorem failure?_refusing (perms : Permissions) (node : Text) :
    perms.refusing.failure? node = none := by
  rw [failure?, refusing]
  cases perms node <;> rfl

end Permissions

/-! ## The walk -/

namespace Template

/-- Whether a template is gated by a granted node. -/
def isGranted (grants : Text → Bool) (t : Template) : Bool := t.permission.any grants

theorem isGranted_ungated {t : Template} (h : t.permission = none) (grants : Text → Bool) :
    t.isGranted grants = false := by
  rw [isGranted, h]
  rfl

theorem isGranted_gated {t : Template} {node : Text} (h : t.permission = some node)
    (grants : Text → Bool) : t.isGranted grants = grants node := by
  rw [isGranted, h]
  rfl

theorem exists_granted_node {t : Template} {perms : Permissions}
    (h : t.isGranted perms.grants = true) :
    ∃ node, t.permission = some node ∧ perms node = .ok true := by
  cases hgate : t.permission with
  | none => exact absurd h (by simp [isGranted_ungated hgate])
  | some node =>
      rw [isGranted_gated hgate] at h
      exact ⟨node, rfl, Permissions.grants_eq_true_iff.mp h⟩

end Template

namespace Snapshot

/-- The nodes of the gated templates up to and including the first one that is granted. -/
def asked (grants : Text → Bool) (templates : List Template) : List Text :=
  (templates.take (templates.findIdx (Template.isGranted grants) + 1)).filterMap (·.permission)

theorem asked_ungated {t : Template} (h : t.permission = none) (grants : Text → Bool)
    (rest : List Template) : asked grants (t :: rest) = asked grants rest := by
  rw [asked, List.findIdx_cons, Template.isGranted_ungated h, cond_false, List.take_succ_cons,
    List.filterMap_cons_none h, asked]

theorem asked_granted {t : Template} {node : Text} (h : t.permission = some node)
    {grants : Text → Bool} (hgrants : grants node = true) (rest : List Template) :
    asked grants (t :: rest) = [node] := by
  rw [asked, List.findIdx_cons, Template.isGranted_gated h, hgrants, cond_true,
    List.take_succ_cons, List.take_zero, List.filterMap_cons_some h, List.filterMap_nil]

theorem asked_refused {t : Template} {node : Text} (h : t.permission = some node)
    {grants : Text → Bool} (hgrants : grants node = false) (rest : List Template) :
    asked grants (t :: rest) = node :: asked grants rest := by
  rw [asked, List.findIdx_cons, Template.isGranted_gated h, hgrants, cond_false,
    List.take_succ_cons, List.filterMap_cons_some h, asked]

/-- A walk stops at the first template that is granted, and makes the check of every node on
the way there, in order. -/
theorem firstGranted_eq {ε : Type} {ask : Text → Logged ε Bool} {grants : Text → Bool}
    {log : Text → List ε} (hask : ∀ node, ask node = ⟨grants node, log node⟩) :
    ∀ templates : List Template, firstGranted ask templates
      = ⟨templates.find? (Template.isGranted grants), (asked grants templates).flatMap log⟩
  | [] => rfl
  | t :: rest => by
      have ih := firstGranted_eq hask rest
      rw [firstGranted, List.find?_cons]
      cases hgate : t.permission with
      | none =>
          rw [asked_ungated hgate, Template.isGranted_ungated hgate]
          exact ih
      | some node =>
          show Logged.bind (ask node) (fun granted => if granted then _ else _) = _
          rw [hask, ih, Template.isGranted_gated hgate]
          cases hgrants : grants node with
          | true =>
              rw [asked_granted hgate hgrants]
              rfl
          | false =>
              rw [asked_refused hgate hgrants]
              rfl

theorem resolveBy_eq {ε : Type} {ask : Text → Logged ε Bool} {grants : Text → Bool}
    {log : Text → List ε} (hask : ∀ node, ask node = ⟨grants node, log node⟩) (s : Snapshot) :
    s.resolveBy ask = ⟨(s.templates.find? (Template.isGranted grants)).getD s.default,
      (asked grants s.templates).flatMap log⟩ := by
  rw [resolveBy, firstGranted_eq hask]
  exact congrArg (Logged.mk _) (List.append_nil _)

theorem resolve_eq (s : Snapshot) (perms : Permissions) : s.resolve perms
    = ⟨(s.templates.find? (Template.isGranted perms.grants)).getD s.default,
        (asked perms.grants s.templates).filterMap perms.failure?⟩ := by
  rw [resolve, resolveBy_eq perms.allows_eq, List.filterMap_eq_flatMap_toList]

theorem severity_of_failure? {perms : Permissions} {node : Text} {d : Diagnostic}
    (h : perms.failure? node = some d) : d.report.severity = .debug := by
  rw [Permissions.failure?] at h
  cases hcheck : perms node with
  | ok granted => exact absurd h (by simp [hcheck])
  | error e =>
      rw [hcheck] at h
      obtain rfl := Option.some.inj h
      rfl

theorem exists_of_mem_asked {grants : Text → Bool} {templates : List Template} {node : Text}
    (h : node ∈ asked grants templates) : ∃ t ∈ templates, t.permission = some node := by
  obtain ⟨t, ht, hgate⟩ := List.mem_filterMap.mp h
  exact ⟨t, List.mem_of_mem_take ht, hgate⟩

/-- The choice of a template, for every list of templates and every backend.

The template chosen is the first one kept that is gated and whose node is granted, else the
default; a template is gated by the node it was given, unless that is blank.  The backend is
asked for the nodes of the gated templates up to and including the one it grants, or of all of
them, in order and once for each; every check that fails is reported on the spot, at the lowest
severity, and nothing else is.  A failure counts as a refusal.  A template that is chosen
without being the default is gated by a granted node, and no blank node is ever asked for. -/
theorem resolve_build (given : List (Text × Text × Option Text)) (perms : Permissions) :
    let templates : List Template :=
      given.map fun (id, text, node) => ⟨id, text, Template.gateOf node⟩
    let kept := Template.firstOfEachId templates
    let snapshot := (build (given.map fun (id, text, node) => Template.made id text node)).value
    let chosen := (kept.find? (Template.isGranted perms.grants)).getD
      (Template.defaultOf templates)
    let nodes := asked perms.grants kept
    snapshot.resolve perms = ⟨chosen, nodes.filterMap perms.failure?⟩
      ∧ snapshot.resolveBy perms.consulted = ⟨chosen, nodes.flatMap fun node =>
          .asked node :: (perms.failure? node).toList.map .reported⟩
      ∧ (∀ d ∈ (snapshot.resolve perms).log, d.report.severity = .debug)
      ∧ snapshot.resolve perms.refusing = ⟨chosen, []⟩
      ∧ (chosen = Template.defaultOf templates
          ∨ chosen ∈ kept ∧ ∃ node, chosen.permission = some node ∧ perms node = .ok true)
      ∧ ∀ node ∈ nodes, Text.isBlank node = false := by
  intro templates kept snapshot chosen nodes
  have hgiven : given.map (fun (id, text, node) => Template.made id text node) = templates :=
    List.map_congr_left fun (id, text, node) _ => Template.made_eq id text node
  have hsnapshot : snapshot = ⟨kept, Template.defaultOf templates⟩ :=
    (congrArg (fun l => (build l).value) hgiven).trans (value_build templates)
  have hresolve : snapshot.resolve perms = ⟨chosen, nodes.filterMap perms.failure?⟩ := by
    rw [hsnapshot, resolve_eq]
  have hconsult := resolveBy_eq perms.consulted_eq snapshot
  rw [hsnapshot] at hconsult
  refine ⟨hresolve, hsnapshot ▸ hconsult, fun d hd => ?_, ?_, ?_, fun node hnode => ?_⟩
  · rw [hresolve] at hd
    obtain ⟨node, -, hfailure⟩ := List.mem_filterMap.mp hd
    exact severity_of_failure? hfailure
  · rw [hsnapshot, resolve_eq, Permissions.grants_refusing]
    exact congrArg (Logged.mk _) (List.filterMap_eq_nil_iff.mpr fun node _ =>
      perms.failure?_refusing node)
  · cases hfind : kept.find? (Template.isGranted perms.grants) with
    | none => exact .inl (by simp only [chosen, hfind, Option.getD_none])
    | some t =>
        have hchosen : chosen = t := by simp only [chosen, hfind, Option.getD_some]
        rw [hchosen]
        exact .inr ⟨List.mem_of_find?_eq_some hfind,
          Template.exists_granted_node (List.find?_some hfind)⟩
  · obtain ⟨t, ht, hgate⟩ := exists_of_mem_asked hnode
    obtain ⟨⟨id, text, configured⟩, -, rfl⟩ :=
      List.mem_map.mp ((Template.firstOfEachId_sublist templates).subset ht)
    exact Bool.eq_false_iff.mpr (Template.not_blank_of_gateOf hgate).2

end Snapshot

end StyledChat
