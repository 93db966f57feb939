/-
The debug switch only adds reports.

A run is compared with the one that has no debugging: the flips of the switch left out, and
the switch off in every configuration (`ChatRequest.quiet?`).  What is observed of a step
beside debugging is then the same in both (`Formatter.observed_steps`), so two runs that
become one when debugging is taken out of them cannot be told apart by what they render,
answer, remember or otherwise report.
-/
import StyledChat.Proofs.Requests

namespace StyledChat

/-! ## Without debugging -/

def Settings.quiet (settings : Settings) : Settings := { settings with debug := false }

def Config.quiet (config : Config) : Config := { config with settings := config.settings.quiet }

/-- A request as it stands in the run without debugging, which has no flips. -/
def ChatRequest.quiet? {K : Type} : ChatRequest K → Option (ChatRequest K)
  | flipDebug => none
  | reload config => some (.reload config.quiet)
  | request => some request

theorem ChatRequest.quiet?_quiet? {K : Type} {request request' : ChatRequest K}
    (h : request.quiet? = some request') : request'.quiet? = some request' := by
  cases request with
  | flipDebug => exact absurd h (by simp [quiet?])
  | _ =>
      obtain rfl := Option.some.inj h
      rfl

theorem ChatRequest.eq_flipDebug {K : Type} {request : ChatRequest K}
    (h : request.quiet? = none) : request = .flipDebug := by
  cases request with
  | flipDebug => rfl
  | _ => exact absurd h (Option.some_ne_none _)

/-- An event without the debug switch that it may show. -/
def ChatEvent.quiet {K : Type} : ChatEvent K → ChatEvent K
  | reloaded templates settings => .reloaded templates settings.quiet
  | e => e

/-- What is reported outside of the debug channel. -/
def ChatEvent.quietLog {K : Type} (log : List (ChatEvent K)) : List (ChatEvent K) :=
  (log.filter fun e => e.channel? ≠ some debugChannel).map ChatEvent.quiet

def Formatter.quiet {K : Type} (f : Formatter K) : Formatter K :=
  { f with settings := f.settings.quiet }

/-- What is observed of a step beside debugging: the request, the answer, what is reported,
and the formatter afterwards. -/
structure ChatObservation (K : Type) where
  request : ChatRequest K
  answer : ChatAnswer
  log : List (ChatEvent K)
  after : Formatter K

def ChatStep.observed? {K : Type} (s : ChatStep K) : Option (ChatObservation K) :=
  s.request.quiet?.map fun request =>
    { request, answer := s.answer, log := ChatEvent.quietLog s.log, after := s.after.quiet }

namespace ChatEvent

variable {K : Type}

theorem quietLog_append (log log' : List (ChatEvent K)) :
    quietLog (log ++ log') = quietLog log ++ quietLog log' := by
  rw [quietLog, List.filter_append, List.map_append]
  rfl

/-- Nothing that depends on the switch is reported elsewhere. -/
theorem quietLog_reportIf (debug : Bool) {e : ChatEvent K}
    (h : e.channel? = some debugChannel) : quietLog (Logged.reportIf debug e).log = [] := by
  cases debug with
  | false => rfl
  | true =>
      show quietLog [e] = []
      rw [quietLog, List.filter_cons_of_neg (by simpa using h)]
      rfl

end ChatEvent

/-! ## Steps and runs -/

namespace Formatter

variable {K : Type} [DecidableEq K]

theorem after_flip_quiet (f : Formatter K) : (f.step .flipDebug).after.quiet = f.quiet := rfl

/-- A flip is not observed. -/
theorem observed_flip (f : Formatter K) : (f.step .flipDebug).observed? = none := rfl

/-- The run without debugging stays beside the other. -/
theorem after_step_quiet (f : Formatter K) {request request' : ChatRequest K}
    (h : request.quiet? = some request') :
    (f.quiet.step request').after = (f.step request).after.quiet := by
  cases request with
  | flipDebug => exact absurd h (by simp [ChatRequest.quiet?])
  | _ =>
      obtain rfl := Option.some.inj h
      rfl

theorem log_send (f : Formatter K) (sender : K) (raw : Text) :
    (f.step (.send sender raw)).log = (Logged.reportIf f.settings.debug
      (.messageReceived sender raw (preparedMarkup raw f.settings.legacyMixing)
        f.settings.legacyMixing)).log :=
  (List.append_nil _).trans (List.append_nil _)

theorem log_renderLatest (f : Formatter K) (sender : K) (name : Option Text)
    (perms : Permissions) : (f.step (.renderLatest sender name perms)).log
      = (Logged.reportIf f.settings.debug (.rendering sender (f.recent.get? sender).isSome)).log
        ++ (f.format name (some ((f.recent.get? sender).getD [])) perms).log :=
  List.append_nil _

theorem log_reload (f : Formatter K) (config : Config) : (f.step (.reload config)).log
    = (Snapshot.build config.templates).log.map .diagnostic
      ++ [.reloaded (Snapshot.build config.templates).value.size config.settings] := by
  show ((_ ++ []) ++ (_ ++ [])) ++ [] = _
  rw [List.append_nil, List.append_nil, List.append_nil]
  rfl

open ChatEvent in
/-- What a step reports outside of the debug channel does not depend on the switch. -/
theorem quietLog_step (f : Formatter K) {request request' : ChatRequest K}
    (h : request.quiet? = some request') :
    quietLog (f.step request).log = quietLog (f.quiet.step request').log := by
  cases request with
  | flipDebug => exact absurd h (by simp [ChatRequest.quiet?])
  | send sender raw =>
      obtain rfl := Option.some.inj h
      rw [log_send, log_send, quietLog_reportIf _ rfl, quietLog_reportIf _ rfl]
  | renderLatest sender name perms =>
      obtain rfl := Option.some.inj h
      rw [log_renderLatest, log_renderLatest, quietLog_append, quietLog_append,
        quietLog_reportIf _ rfl, quietLog_reportIf _ rfl]
      rfl
  | reload config =>
      obtain rfl := Option.some.inj h
      rw [log_reload, log_reload, quietLog_append, quietLog_append]
      rfl
  | _ =>
      obtain rfl := Option.some.inj h
      rfl

theorem answer_step_quiet (f : Formatter K) {request request' : ChatRequest K}
    (h : request.quiet? = some request') :
    (f.step request).answer = (f.quiet.step request').answer := by
  cases request with
  | flipDebug => exact absurd h (by simp [ChatRequest.quiet?])
  | _ =>
      obtain rfl := Option.some.inj h
      rfl

/-- One step is observed alike with and without debugging. -/
theorem observed_step (f : Formatter K) {request request' : ChatRequest K}
    (h : request.quiet? = some request') :
    (f.step request).observed? = (f.quiet.step request').observed? := by
  have hobserved : (f.step request).observed?
      = some ⟨request', (f.step request).answer, ChatEvent.quietLog (f.step request).log,
          (f.step request).after.quiet⟩ :=
    congrArg (Option.map _) h
  have hquiet : (f.quiet.step request').observed?
      = some ⟨request', (f.quiet.step request').answer,
          ChatEvent.quietLog (f.quiet.step request').log, (f.quiet.step request').after.quiet⟩ :=
    congrArg (Option.map _) (ChatRequest.quiet?_quiet? h)
  rw [hobserved, hquiet, answer_step_quiet f h, quietLog_step f h, after_step_quiet f h]
  rfl

/-- A run is observed like the one without debugging. -/
theorem observed_steps (requests : List (ChatRequest K)) (f : Formatter K) :
    (f.steps requests).filterMap ChatStep.observed?
      = (f.quiet.steps (requests.filterMap ChatRequest.quiet?)).filterMap
          ChatStep.observed? := by
  induction requests generalizing f with
  | nil => rfl
  | cons request rest ih =>
      cases hquiet : request.quiet? with
      | none =>
          -- a flip, to which no step of the run without debugging corresponds
          obtain rfl := ChatRequest.eq_flipDebug hquiet
          rw [List.filterMap_cons_none hquiet, steps,
            List.filterMap_cons_none (observed_flip f), ih, after_flip_quiet]
      | some request' =>
          rw [List.filterMap_cons_some hquiet, steps, steps, List.filterMap_cons,
            List.filterMap_cons, observed_step f hquiet, ih, after_step_quiet f hquiet]

/-- With debugging on, a message that arrives is reported once, with the markup it will be read
as. -/
theorem log_eq_of_send {s : ChatStep K} (hstep : s = s.before.step s.request) {sender : K}
    {raw : Text} (hsend : s.request = .send sender raw) :
    ∃ processed,
      parse .restricted processed = messageTree (some raw) s.before.settings.legacyMixing
        ∧ s.log = if s.before.settings.debug then
            [.messageReceived sender raw processed s.before.settings.legacyMixing] else [] := by
  refine ⟨preparedMarkup raw s.before.settings.legacyMixing, rfl, ?_⟩
  have hlog : s.log = (s.before.step (.send sender raw)).log := by rw [← hsend, ← hstep]
  rw [hlog, log_send]
  rfl

theorem flip_unobserved {s : ChatStep K} (hstep : s = s.before.step s.request)
    (hflip : s.request = .flipDebug) : s.log = [] ∧ s.after.quiet = s.before.quiet := by
  rw [hflip] at hstep
  rw [hstep]
  exact ⟨rfl, after_flip_quiet s.before⟩

/-- The debug switch only adds reports.

Two runs from the same store, with the same hook, whose configurations differ in the debug
switch and whose requests differ in flips of it and in the switches of configurations, start
alike and are observed alike at every step: the answers, the stores, the templates and the
switch for mixing are the same, and so are the reports outside of the debug channel.  A flip
reports nothing and changes nothing else.  Each message that arrives while the switch is on is
reported once, with a markup that reads as the message's tree. -/
theorem debug_only_observes (config config' : Config) (expander : Option Expander)
    (recent : RecentMessages K) (requests requests' : List (ChatRequest K))
    (hconfig : config.quiet = config'.quiet)
    (hrequests : requests.filterMap ChatRequest.quiet?
      = requests'.filterMap ChatRequest.quiet?) :
    let start := ofConfig config expander recent
    let start' := ofConfig config' expander recent
    (ChatEvent.quietLog start.log = ChatEvent.quietLog start'.log
        ∧ start.value.quiet = start'.value.quiet)
      ∧ (start.value.steps requests).filterMap ChatStep.observed?
        = (start'.value.steps requests').filterMap ChatStep.observed?
      ∧ (∀ s ∈ start.value.steps requests, s.request = .flipDebug →
          s.log = [] ∧ s.after.quiet = s.before.quiet)
      ∧ ∀ s ∈ start.value.steps requests, ∀ sender raw, s.request = .send sender raw →
          ∃ processed,
            parse .restricted processed = messageTree (some raw) s.before.settings.legacyMixing
              ∧ s.log = if s.before.settings.debug then
                  [.messageReceived sender raw processed s.before.settings.legacyMixing]
                else [] := by
  intro start start'
  have hlog : start.log = start'.log := by
    show (ofConfig config.quiet expander recent).log = (ofConfig config'.quiet expander recent).log
    rw [hconfig]
  have hstart : start.value.quiet = start'.value.quiet := by
    show (ofConfig config.quiet expander recent).value
      = (ofConfig config'.quiet expander recent).value
    rw [hconfig]
  refine ⟨⟨congrArg ChatEvent.quietLog hlog, hstart⟩, ?_, ?_, ?_⟩
  · calc (start.value.steps requests).filterMap ChatStep.observed?
        = (start.value.quiet.steps (requests.filterMap ChatRequest.quiet?)).filterMap
            ChatStep.observed? := observed_steps requests start.value
      _ = (start'.value.quiet.steps (requests'.filterMap ChatRequest.quiet?)).filterMap
            ChatStep.observed? := by rw [hstart, hrequests]
      _ = (start'.value.steps requests').filterMap ChatStep.observed? :=
            (observed_steps requests' start'.value).symm
  · intro s hs hflip
    exact flip_unobserved (eq_step_of_mem_steps hs) hflip
  · intro s hs sender raw hsend
    exact log_eq_of_send (eq_step_of_mem_steps hs) hsend

/-- Two runs that differ in debugging: one starts with it and turns it off, the other has it
from the flip before the message on. -/
theorem debug_only_observes_of_sample :
    let mixed : Config := { settings := { legacyMixing := true } }
    let debugged : Config := { settings := { debug := true, legacyMixing := true } }
    let requests : List (ChatRequest Nat) :=
      [.send 1 "&chi".toList, .flipDebug, .reload mixed,
        .renderLatest 1 (some "Ann".toList) Permissions.refuseAll, .leave 1]
    let requests' : List (ChatRequest Nat) :=
      [.flipDebug, .flipDebug, .flipDebug, .send 1 "&chi".toList, .reload debugged,
        .renderLatest 1 (some "Ann".toList) Permissions.refuseAll, .flipDebug, .leave 1]
    let start := (ofConfig debugged none RecentMessages.empty).value
    let start' := (ofConfig mixed none RecentMessages.empty).value
    debugged.quiet = mixed.quiet
      ∧ requests.filterMap ChatRequest.quiet? = requests'.filterMap ChatRequest.quiet?
      ∧ (start.steps requests).filterMap ChatStep.observed?
        = (start'.steps requests').filterMap ChatStep.observed?
      ∧ ∃ processed, parse .restricted processed = messageTree (some "&chi".toList) true
        ∧ (start.step (.send 1 "&chi".toList)).log
          = [.messageReceived 1 "&chi".toList processed true] := by
  intro mixed debugged requests requests' start start'
  have hconfig : debugged.quiet = mixed.quiet := rfl
  have hrequests : requests.filterMap ChatRequest.quiet?
      = requests'.filterMap ChatRequest.quiet? := rfl
  obtain ⟨-, hobserved, -, hsend⟩ := debug_only_observes debugged mixed none
    RecentMessages.empty requests requests' hconfig hrequests
  exact ⟨hconfig, hrequests, hobserved,
    hsend (start.step (.send 1 "&chi".toList)) List.mem_cons_self 1 "&chi".toList rfl⟩

end Formatter

end StyledChat
