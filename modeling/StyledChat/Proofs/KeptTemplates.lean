/-
What is kept of some templates, and what is said of the others.

A snapshot is built in one pass, which knows the ids it has met.  Whether it keeps a template
and what it reports depends on nothing but the ids in front of that template, so both are
read off the list of templates, each with the ids that are taken before it
(`Template.withTaken`).  The pass is compared with that list for any ids met so far
(`Snapshot.log_keepFirst`).

A template that is reported as never selected is neither gated nor the default, while a
choice ends at one that is gated or at the default (`Snapshot.resolve_eq`).
-/
import Mathlib.Data.List.Nodup
import StyledChat.Proofs.Choice

namespace StyledChat

namespace Template

/-- Every template of a list, with the ids of those in front of it. -/
def withTaken (templates : List Template) : List (List Text × Template) :=
  templates.mapIdx fun i t => ((templates.take i).map id, t)

/-- What is reported of a template when some ids are taken. -/
def remark? (taken : List Text) (t : Template) : Option Diagnostic :=
  if t.id ∈ taken then some (.duplicateTemplate t.id)
  else if t.permission = none ∧ t.id ≠ defaultId then some (.neverSelected t.id)
  else none

theorem withTaken_cons (t : Template) (rest : List Template) : withTaken (t :: rest)
    = ([], t) :: (withTaken rest).map fun a => (t.id :: a.1, a.2) := by
  rw [withTaken, List.mapIdx_cons, withTaken]
  refine congrArg (([], t) :: ·) (List.ext_getElem (by simp) fun i _ _ => ?_)
  simp

/-- Only whether the id is taken counts. -/
theorem remark?_congr {taken taken' : List Text} {t : Template}
    (h : t.id ∈ taken ↔ t.id ∈ taken') : remark? taken t = remark? taken' t := by
  rw [remark?, remark?]
  exact if_congr h rfl rfl

theorem remark?_of_mem {taken : List Text} {t : Template} (h : t.id ∈ taken) :
    remark? taken t = some (.duplicateTemplate t.id) := if_pos h

theorem remark?_of_not_mem {taken : List Text} {t : Template} (h : t.id ∉ taken) :
    remark? taken t
      = if t.permission = none ∧ t.id ≠ defaultId then some (.neverSelected t.id) else none :=
  if_neg h

theorem remark?_eq_neverSelected {taken : List Text} {t : Template} {name : Text}
    (h : remark? taken t = some (.neverSelected name)) :
    t.id ∉ taken ∧ t.permission = none ∧ t.id ≠ defaultId ∧ t.id = name := by
  by_cases htaken : t.id ∈ taken
  · rw [remark?_of_mem htaken] at h
    cases h
  · rw [remark?_of_not_mem htaken] at h
    split at h
    · next hopen =>
        have hname := Diagnostic.neverSelected.inj (Option.some.inj h)
        exact ⟨htaken, hopen.1, hopen.2, hname⟩
    · cases h

theorem severity_of_remark? {taken : List Text} {t : Template} {d : Diagnostic}
    (h : remark? taken t = some d) : d.report.severity = .warn := by
  by_cases htaken : t.id ∈ taken
  · rw [remark?_of_mem htaken] at h
    obtain rfl := Option.some.inj h
    rfl
  · rw [remark?_of_not_mem htaken] at h
    split at h
    · obtain rfl := Option.some.inj h
      rfl
    · cases h

theorem not_gated_nor_default_iff (t : Template) :
    (!t.isGated && !t.isDefault) = true ↔ t.permission = none ∧ t.id ≠ defaultId := by
  simp [isGated, isDefault]

/-! ## The templates that are kept -/

/-- The first templates of their ids are those whose id is not taken before them. -/
theorem firstOfEachId_eq (templates : List Template) : firstOfEachId templates
    = ((withTaken templates).filter fun a => a.2.id ∉ a.1).map Prod.snd := by
  induction templates with
  | nil => rfl
  | cons t rest ih =>
      rw [firstOfEachId, withTaken_cons, List.filter_cons,
        if_pos (decide_eq_true List.not_mem_nil), List.map_cons, ih, List.filter_map,
        List.filter_map, List.map_map, List.filter_filter]
      refine congrArg (fun l => t :: List.map Prod.snd l) (List.filter_congr fun a _ => ?_)
      simp

theorem mem_firstOfEachId {templates : List Template} {taken : List Text} {t : Template}
    (h : (taken, t) ∈ withTaken templates) (hfree : t.id ∉ taken) :
    t ∈ firstOfEachId templates := by
  rw [firstOfEachId_eq]
  exact List.mem_map_of_mem (List.mem_filter.mpr ⟨h, decide_eq_true hfree⟩)

theorem nodup_ids_firstOfEachId (templates : List Template) :
    ((firstOfEachId templates).map id).Nodup := by
  induction templates with
  | nil => exact List.nodup_nil
  | cons t rest ih =>
      rw [firstOfEachId, List.map_cons, List.nodup_cons]
      refine ⟨fun h => ?_, ih.sublist (List.filter_sublist.map id)⟩
      obtain ⟨later, hlater, hid⟩ := List.mem_map.mp h
      exact of_decide_eq_true (List.mem_filter.mp hlater).2 hid

theorem id_defaultOf (templates : List Template) : (defaultOf templates).id = defaultId := by
  rw [defaultOf]
  cases h : templates.find? isDefault with
  | none => rfl
  | some t =>
      have ht : t.isDefault = true := List.find?_some h
      exact eq_of_beq ht

end Template

namespace Snapshot

open Template (withTaken remark? remark?_congr remark?_of_mem remark?_of_not_mem)

/-! ## The reports of the pass -/

/-- The pass reports each template by the ids it has met, and it has met those in front. -/
theorem log_keepFirst : ∀ (templates : List Template) (seen : List Text),
    (keepFirst seen templates).log
      = (withTaken templates).filterMap fun a => remark? (seen ++ a.1) a.2
  | [], _ => rfl
  | t :: rest, seen => by
      have hbehind : ∀ met : List Text, (∀ i, i ∈ met ↔ i = t.id ∨ i ∈ seen) →
          (keepFirst met rest).log
            = (withTaken rest).filterMap fun a => remark? (seen ++ t.id :: a.1) a.2 := by
        intro met hmet
        rw [log_keepFirst rest met]
        refine List.filterMap_congr fun a _ => remark?_congr ?_
        rw [List.mem_append, List.mem_append, List.mem_cons, hmet, or_left_comm, or_assoc]
      have hcons : (withTaken (t :: rest)).filterMap (fun a => remark? (seen ++ a.1) a.2)
          = (remark? seen t).toList
            ++ (withTaken rest).filterMap fun a => remark? (seen ++ t.id :: a.1) a.2 := by
        rw [Template.withTaken_cons, List.filterMap_cons, List.append_nil, List.filterMap_map]
        cases remark? seen t <;> rfl
      rw [hcons, keepFirst]
      by_cases hseen : t.id ∈ seen
      · rw [if_pos (List.contains_iff_mem.mpr hseen), remark?_of_mem hseen,
          ← hbehind seen fun i => ⟨Or.inr, fun h => h.elim (· ▸ hseen) id⟩]
        rfl
      · rw [if_neg (mt List.contains_iff_mem.mp hseen), remark?_of_not_mem hseen,
          ← hbehind (t.id :: seen) fun i => List.mem_cons]
        show (if (!t.isGated && !t.isDefault) = true then _ else _)
          ++ ((keepFirst (t.id :: seen) rest).log ++ []) = _
        rw [List.append_nil, if_congr (Template.not_gated_nor_default_iff t) rfl rfl]
        split <;> rfl

/-- A snapshot reports its templates one by one, and then the lack of a default. -/
theorem log_build (templates : List Template) : (build templates).log
    = ((withTaken templates).filterMap fun a => remark? a.1 a.2)
      ++ if ∃ t ∈ templates, t.id = Template.defaultId then [] else [.noDefaultTemplate] := by
  simp only [build, bind, Logged.bind, value_keepFirst_nil,
    Template.find?_isDefault_firstOfEachId, log_keepFirst, List.nil_append]
  refine congrArg (_ ++ ·) ?_
  cases hfind : templates.find? Template.isDefault with
  | none =>
      have habsent : ¬∃ t ∈ templates, t.id = Template.defaultId := by
        rintro ⟨t, ht, hid⟩
        exact List.find?_eq_none.mp hfind t ht (beq_iff_eq.mpr hid)
      rw [if_neg habsent]
      rfl
  | some t =>
      have hdefault : t.isDefault = true := List.find?_some hfind
      rw [if_pos ⟨t, List.mem_of_find?_eq_some hfind, eq_of_beq hdefault⟩]
      rfl

theorem severity_of_mem_log_build {templates : List Template} {d : Diagnostic}
    (h : d ∈ (build templates).log) : d.report.severity = .warn := by
  rw [log_build] at h
  rcases List.mem_append.mp h with h | h
  · obtain ⟨_, -, hremark⟩ := List.mem_filterMap.mp h
    exact Template.severity_of_remark? hremark
  · split at h
    · cases h
    · obtain rfl := List.mem_singleton.mp h
      rfl

/-- A template that is reported as never selected is kept, and neither gated nor the default. -/
theorem of_neverSelected_mem_log {templates : List Template} {name : Text}
    (h : .neverSelected name ∈ (build templates).log) : name ≠ Template.defaultId
      ∧ ∃ t ∈ Template.firstOfEachId templates, t.id = name ∧ t.permission = none := by
  rw [log_build] at h
  rcases List.mem_append.mp h with h | h
  · obtain ⟨⟨taken, t⟩, ha, hremark⟩ := List.mem_filterMap.mp h
    obtain ⟨hfree, hopen, hother, rfl⟩ := Template.remark?_eq_neverSelected hremark
    exact ⟨hother, t, Template.mem_firstOfEachId ha hfree, rfl, hopen⟩
  · split at h
    · cases h
    · cases List.mem_singleton.mp h

/-- A choice ends at the default or at a gated template, and no other one has its id. -/
theorem id_resolve_ne {templates : List Template} {name : Text}
    (h : .neverSelected name ∈ (build templates).log) (perms : Permissions) :
    ((build templates).value.resolve perms).value.id ≠ name := by
  obtain ⟨hother, t, ht, rfl, hopen⟩ := of_neverSelected_mem_log h
  rw [value_build, resolve_eq]
  dsimp only
  cases hfind : (Template.firstOfEachId templates).find? (Template.isGranted perms.grants) with
  | none => exact fun e => hother (e.symm.trans (Template.id_defaultOf templates))
  | some u =>
      intro hid
      have hu := List.mem_of_find?_eq_some hfind
      obtain rfl : u = t :=
        List.inj_on_of_nodup_map (Template.nodup_ids_firstOfEachId templates) hu ht hid
      have hgranted := List.find?_some hfind
      rw [Template.isGranted_ungated hopen] at hgranted
      cases hgranted

/-- The snapshot of some templates.

It keeps the templates whose id is not taken before them, in order; so no two of them share an
id, and looking up an id finds the first template that was given with it.  The default is the
one of the default id, and a built-in one only when there is none.  Reported are, as warnings
and in order, every template that is dropped and every one that is kept but neither gated nor
the default, and then the lack of a default.  No backend makes a choice of a template that is
reported as never selected. -/
theorem build_keeps_first (templates : List Template) :
    let built := build templates
    let snapshot := built.value
    snapshot.templates
        = ((Template.withTaken templates).filter fun a => a.2.id ∉ a.1).map Prod.snd
      ∧ (snapshot.templates.map Template.id).Nodup
      ∧ (∀ name, snapshot.get? name = templates.find? fun t => t.id == name)
      ∧ snapshot.default = (snapshot.get? Template.defaultId).getD Template.builtin
      ∧ built.log = ((Template.withTaken templates).filterMap fun a => Template.remark? a.1 a.2)
          ++ (if ∃ t ∈ templates, t.id = Template.defaultId then [] else [.noDefaultTemplate])
      ∧ (∀ d ∈ built.log, d.report.severity = .warn)
      ∧ ∀ name, .neverSelected name ∈ built.log →
          ∀ perms, (snapshot.resolve perms).value.id ≠ name := by
  intro built snapshot
  have hsnapshot : snapshot = ⟨Template.firstOfEachId templates, Template.defaultOf templates⟩ :=
    value_build templates
  have hget : ∀ name, snapshot.get? name = templates.find? fun t => t.id == name := by
    intro name
    rw [hsnapshot]
    exact Template.find?_firstOfEachId (fun _ _ h => congrArg (· == name) h) templates
  refine ⟨?_, ?_, hget, ?_, log_build templates, fun d => severity_of_mem_log_build,
    fun name h perms => id_resolve_ne h perms⟩
  · rw [hsnapshot, ← Template.firstOfEachId_eq]
  · rw [hsnapshot]
    exact Template.nodup_ids_firstOfEachId templates
  · rw [hget, hsnapshot]
    rfl

end Snapshot

end StyledChat
