/-
A configuration that is read from files, while the files change.

Reading works on a configuration in place (`InPlace`), and what it replaces it replaces as
a whole and at the end: where it fails, nothing was replaced (`Config.after_refresh`).
Around it files are written over and deleted, so a run goes from desk to desk, each with
the files and the configuration of that moment.

What a text holds is up to a reader of YAML, and what an event reads is told from the desk
it finds (`Desk.read?`).  A step takes what it reads, or leaves the configuration alone
(`Desk.config_after_step`); so after any run the configuration is the last one that was
read (`Desk.config_is_last_read`).
-/
import Mathlib.Logic.Function.Basic
import StyledChat.Chat.Config.Read

namespace StyledChat

/-! ## Reading in place -/

/-- Work on a configuration in place.  It reports, and it may fail; what it has replaced
until then stays replaced. -/
abbrev InPlace := ExceptT ConfigFault (StateT Config (Logged Diagnostic))

namespace Config

variable (yaml : YamlReader)

/-- The configuration in a file takes the place of the one at hand. -/
def loadInPlace (files : Files) (path : Text) : InPlace Unit :=
  match ofFile yaml files path with
  | .ok loaded => do set (← (loaded : Logged Diagnostic Config))
  | .error fault => throw fault

/-- The configuration at hand is read again from its file. -/
def refreshInPlace (files : Files) : InPlace Unit := do
  match (← get).source with
  | some path => loadInPlace yaml files path
  | none => throw (.entry .noSource)

/-- How work on a configuration went, and the configuration afterwards. -/
def after (c : Config) (work : InPlace Unit) : Except ConfigFault Unit × Config :=
  (StateT.run (ExceptT.run work) c).value

/-- A configuration that was to be read takes the place of another, or there is none and
the other stays. -/
def replacedBy (c : Config) :
    Except ConfigFault (Logged Diagnostic Config) → Except ConfigFault Unit × Config
  | .ok loaded => (.ok (), loaded.value)
  | .error fault => (.error fault, c)

theorem after_load (files : Files) (path : Text) (c : Config) :
    c.after (loadInPlace yaml files path) = c.replacedBy (ofFile yaml files path) := by
  unfold loadInPlace
  cases ofFile yaml files path <;> rfl

theorem after_refresh (files : Files) (c : Config) :
    c.after (refreshInPlace yaml files) = c.replacedBy (c.refresh yaml files) := by
  obtain ⟨settings, templates, source⟩ := c
  cases source with
  | none => rfl
  | some path => exact after_load yaml files path _

/-! ## What a file holds -/

/-- The configuration that a file holds, if it is there and holds one. -/
def heldAt? (files : Files) (path : Text) : Option Config := do
  let octets ← files path
  let text ← String.fromUTF8? octets
  let loaded ← (ofYaml yaml text.toList).toOption
  return { loaded.value with source := some path }

/-- A file is read as what it holds. -/
theorem replacedBy_ofFile (files : Files) (path : Text) (c : Config) :
    (c.replacedBy (ofFile yaml files path)).2 = (heldAt? yaml files path).getD c
      ∧ ((c.replacedBy (ofFile yaml files path)).1 = .ok ()
          ↔ (heldAt? yaml files path).isSome) := by
  unfold ofFile heldAt?
  cases files path with
  | none => exact ⟨rfl, by simp [replacedBy]⟩
  | some octets =>
      simp only [Option.bind_some, Option.bind_eq_bind]
      cases String.fromUTF8? octets with
      | none => exact ⟨rfl, by simp [replacedBy]⟩
      | some text =>
          simp only [Option.bind_some]
          cases ofYaml yaml text.toList with
          | error fault => exact ⟨rfl, by simp [replacedBy, bind, Except.bind, Except.toOption]⟩
          | ok loaded => exact ⟨rfl, iff_of_true rfl rfl⟩

end Config

/-! ## Desks -/

/-- What happens around a configuration. -/
inductive FileEvent where
  /-- A file is written, or written over, with any octets. -/
  | write (path : Text) (octets : ByteArray)
  | delete (path : Text)
  | load (path : Text)
  | refresh

/-- The files and a configuration at some moment. -/
structure Desk where
  files : Config.Files
  config : Config

namespace FileEvent

/-- Whether the event is to read a file. -/
def reads : FileEvent → Bool
  | load _ => true
  | refresh => true
  | _ => false

/-- What is done with the configuration. -/
def work (yaml : YamlReader) (files : Config.Files) : FileEvent → InPlace Unit
  | load path => Config.loadInPlace yaml files path
  | refresh => Config.refreshInPlace yaml files
  | _ => return

/-- The files afterwards. -/
def changed (files : Config.Files) : FileEvent → Config.Files
  | write path octets => Function.update files path (some octets)
  | delete path => Function.update files path none
  | _ => files

end FileEvent

namespace Desk

variable (yaml : YamlReader)

/-- How an event goes, and the desk afterwards. -/
def step (d : Desk) (e : FileEvent) : Except ConfigFault Unit × Desk :=
  let done := d.config.after (e.work yaml d.files)
  (done.1, ⟨e.changed d.files, done.2⟩)

/-- The desk after some events. -/
def run (d : Desk) : List FileEvent → Desk
  | [] => d
  | e :: rest => (d.step yaml e).2.run rest

/-- The events of a run, each with the desk it finds. -/
def steps (d : Desk) : List FileEvent → List (Desk × FileEvent)
  | [] => []
  | e :: rest => (d, e) :: (d.step yaml e).2.steps rest

/-- The file that an event reads. -/
def path? (d : Desk) : FileEvent → Option Text
  | .load path => some path
  | .refresh => d.config.source
  | _ => none

/-- The configuration that an event reads, if it reads one. -/
def read? (d : Desk) (e : FileEvent) : Option Config :=
  (d.path? e).bind (Config.heldAt? yaml d.files)

/-- What the last event that read anything has read. -/
def lastRead? (d : Desk) (events : List FileEvent) : Option Config :=
  (d.steps yaml events).reverse.findSome? fun s => s.1.read? yaml s.2

/-! ## One event -/

variable {yaml}

/-- An event puts what it reads in the place of the configuration, or leaves it alone. -/
theorem config_after_step (d : Desk) (e : FileEvent) :
    (d.step yaml e).2.config = (d.read? yaml e).getD d.config := by
  cases e with
  | write path octets => rfl
  | delete path => rfl
  | load path =>
      show (d.config.after (Config.loadInPlace yaml d.files path)).2 = _
      rw [Config.after_load]
      exact (Config.replacedBy_ofFile yaml d.files path d.config).1
  | refresh =>
      show (d.config.after (Config.refreshInPlace yaml d.files)).2 = _
      rw [Config.after_refresh]
      unfold Config.refresh read? path?
      cases d.config.source with
      | none => rfl
      | some path => exact (Config.replacedBy_ofFile yaml d.files path d.config).1

/-- To read succeeds just where there is something to be read. -/
theorem step_ok_iff (d : Desk) {e : FileEvent} (he : e.reads) :
    (d.step yaml e).1 = .ok () ↔ (d.read? yaml e).isSome := by
  cases e with
  | write path octets => cases he
  | delete path => cases he
  | load path =>
      show (d.config.after (Config.loadInPlace yaml d.files path)).1 = _ ↔ _
      rw [Config.after_load]
      exact (Config.replacedBy_ofFile yaml d.files path d.config).2
  | refresh =>
      show (d.config.after (Config.refreshInPlace yaml d.files)).1 = _ ↔ _
      rw [Config.after_refresh]
      unfold Config.refresh read? path?
      cases d.config.source with
      | none => simp [Config.replacedBy]
      | some path => exact (Config.replacedBy_ofFile yaml d.files path d.config).2

/-- To write or to delete a file always succeeds here. -/
theorem reads_of_step_ne_ok {d : Desk} {e : FileEvent} (h : (d.step yaml e).1 ≠ .ok ()) :
    e.reads := by
  cases e with
  | write path octets => exact absurd rfl h
  | delete path => exact absurd rfl h
  | load path => rfl
  | refresh => rfl

/-- An event that fails changes neither the configuration nor a file. -/
theorem step_of_ne_ok {d : Desk} {e : FileEvent} (h : (d.step yaml e).1 ≠ .ok ()) :
    (d.step yaml e).2 = d := by
  have hreads := reads_of_step_ne_ok h
  have hnone : d.read? yaml e = none := by
    cases hread : d.read? yaml e with
    | none => rfl
    | some c => exact absurd ((d.step_ok_iff hreads).mpr (by simp [hread])) h
  have hconfig : (d.step yaml e).2.config = d.config := by simp [config_after_step, hnone]
  have hfiles : (d.step yaml e).2.files = d.files := by
    cases e with
    | write path octets => cases hreads
    | delete path => cases hreads
    | load path => rfl
    | refresh => rfl
  calc (d.step yaml e).2 = ⟨(d.step yaml e).2.files, (d.step yaml e).2.config⟩ := rfl
    _ = d := by rw [hfiles, hconfig]

/-- What is read remembers the file it was read from. -/
theorem source_of_read? {d : Desk} {e : FileEvent} {c : Config} (h : d.read? yaml e = some c) :
    c.source = d.path? e := by
  obtain ⟨path, hpath, hheld⟩ := Option.bind_eq_some_iff.mp h
  unfold Config.heldAt? at hheld
  simp only [Option.bind_eq_bind, Option.bind_eq_some_iff, Option.pure_def,
    Option.some.injEq] at hheld
  obtain ⟨octets, -, text, -, loaded, -, rfl⟩ := hheld
  exact hpath.symm

/-! ## Runs -/

theorem lastRead?_cons (d : Desk) (e : FileEvent) (rest : List FileEvent) :
    d.lastRead? yaml (e :: rest) = ((d.step yaml e).2.lastRead? yaml rest).or (d.read? yaml e) := by
  simp [lastRead?, steps, List.findSome?_append]

theorem config_run (d : Desk) (events : List FileEvent) :
    (d.run yaml events).config = (d.lastRead? yaml events).getD d.config := by
  induction events generalizing d with
  | nil => rfl
  | cons e rest ih =>
      rw [run, ih, lastRead?_cons, config_after_step]
      cases (d.step yaml e).2.lastRead? yaml rest <;> rfl

/-- Without a file to go back to, nothing is read before a file is loaded. -/
theorem config_run_of_no_load {d : Desk} {events : List FileEvent}
    (hsource : d.config.source = none)
    (h : ∀ s ∈ d.steps yaml events, ∀ path, s.2 = .load path → (s.1.step yaml s.2).1 ≠ .ok ()) :
    (d.run yaml events).config = d.config := by
  induction events generalizing d with
  | nil => rfl
  | cons e rest ih =>
      have hstep : (d.step yaml e).2.config = d.config := by
        by_cases hok : (d.step yaml e).1 = .ok ()
        · cases e with
          | write path octets => rfl
          | delete path => rfl
          | load path => exact absurd hok (h _ List.mem_cons_self path rfl)
          | refresh =>
              have hread : d.read? yaml .refresh = none := by simp [read?, path?, hsource]
              simp [config_after_step, hread]
        · rw [step_of_ne_ok hok]
      rw [run, ih (hstep ▸ hsource) fun s hs => h s (List.mem_cons_of_mem _ hs), hstep]

/-- At every point of a run, the configuration is the last one that was read: what its file
held when the last load or refresh succeeded, with the path of that file.  As long as none
has, it is the one from the beginning, and if that came from no file, it needs a load.

From there on, to load or to refresh succeeds just where the file that is asked for holds a
configuration.  Where it fails, it changes nothing; and a refresh that succeeds leaves the
path as it is. -/
theorem config_is_last_read (yaml : YamlReader) (start : Desk) (events : List FileEvent) :
    let now := start.run yaml events
    now.config = (start.lastRead? yaml events).getD start.config
      ∧ (start.config.source = none →
          (∀ s ∈ start.steps yaml events, ∀ path, s.2 = .load path →
            (s.1.step yaml s.2).1 ≠ .ok ()) →
            now.config = start.config)
      ∧ (∀ e, e.reads → ((now.step yaml e).1 = .ok () ↔ (now.read? yaml e).isSome))
      ∧ (∀ e, (now.step yaml e).1 ≠ .ok () → (now.step yaml e).2 = now)
      ∧ ((now.step yaml .refresh).1 = .ok () →
          (now.step yaml .refresh).2.config.source = now.config.source) := by
  intro now
  refine ⟨config_run start events, config_run_of_no_load, fun e => now.step_ok_iff,
    fun e => step_of_ne_ok, fun hok => ?_⟩
  obtain ⟨c, hread⟩ := Option.isSome_iff_exists.mp ((now.step_ok_iff rfl).mp hok)
  have hconfig : (now.step yaml .refresh).2.config = c := by simp [config_after_step, hread]
  rw [hconfig]
  exact source_of_read? hread

end Desk

end StyledChat
