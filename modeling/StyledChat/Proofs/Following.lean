/-
A formatter follows its last configuration.

Its switches and templates are published together, and nothing but a configuration or a flip
of the debug switch replaces them.  Whatever was asked of a formatter, it is therefore the
one that the last configuration and the flips since make, over the store that the messages
have made (`Formatter.afterAll_following`), and what it renders is what a renderer set up for
that configuration alone does.
-/
import StyledChat.Proofs.Interactions
import StyledChat.Proofs.Requests
import StyledChat.Proofs.Spelling

namespace StyledChat

/-! ## Messages that are not there -/

theorem parse_nil (v : Vocabulary) : parse v [] = Component.empty := by
  rw [parse_eq, parseWith, Token.ofText]
  rfl

theorem preparedMarkup_nil (mixing : Bool) : preparedMarkup [] mixing = [] := by
  cases mixing with
  | false => rfl
  | true =>
      show spellOut [] = []
      rw [spellOut, LegacyCode.toTags_nil, Flag.expand, Flag.expandFrom_nil]

/-- No message is read as an empty one. -/
theorem messageTree_none (mixing : Bool) :
    messageTree none mixing = messageTree (some []) mixing := by
  show Component.empty = parse .restricted (preparedMarkup [] mixing)
  rw [preparedMarkup_nil, parse_nil]

theorem Config.rendered_none (config : Config) (expander : Option Expander) (name : Option Text)
    (perms : Permissions) : config.rendered expander name none perms
      = config.rendered expander name (some []) perms := by
  cases name with
  | none =>
      show (Renderer.render _ none none perms _).value = (Renderer.render _ none _ perms _).value
      rw [Renderer.value_render, Renderer.value_render, messageTree_none]
  | some name =>
      show (Renderer.render _ _ none perms _).value = (Renderer.render _ _ _ perms _).value
      rw [Renderer.value_render, Renderer.value_render, messageTree_none]

/-! ## What is published -/

namespace ChatRequest

variable {K : Type}

/-- The last configuration given. -/
def lastConfig (config : Config) : List (ChatRequest K) → Config
  | [] => config
  | reload next :: rest => lastConfig next rest
  | _ :: rest => lastConfig config rest

/-- How often the debug switch was flipped since the last configuration, `n` times before. -/
def flips (n : Nat) : List (ChatRequest K) → Nat
  | [] => n
  | reload _ :: rest => flips 0 rest
  | flipDebug :: rest => flips (n + 1) rest
  | _ :: rest => flips n rest

theorem lastConfig_cons (config : Config) (request : ChatRequest K)
    (rest : List (ChatRequest K)) :
    lastConfig config (request :: rest) = lastConfig (lastConfig config [request]) rest := by
  cases request <;> rfl

theorem flips_cons (n : Nat) (request : ChatRequest K) (rest : List (ChatRequest K)) :
    flips n (request :: rest) = flips (flips n [request]) rest := by
  cases request <;> rfl

end ChatRequest

/-! ## What a formatter follows -/

namespace Formatter

variable {K : Type}

/-- The formatter for a configuration whose debug switch was flipped some times since. -/
def following (config : Config) (flips : Nat) (expander : Option Expander)
    (recent : RecentMessages K) : Formatter K where
  settings := { config.settings with debug := not^[flips] config.settings.debug }
  snapshot := (Snapshot.build config.templates).value
  expander := expander
  recent := recent

theorem value_ofConfig (config : Config) (expander : Option Expander)
    (recent : RecentMessages K) :
    (ofConfig config expander recent).value = following config 0 expander recent := rfl

/-- What is rendered does not depend on the flips. -/
theorem value_format_following (config : Config) (flips : Nat) (expander : Option Expander)
    (recent : RecentMessages K) (name raw : Option Text) (perms : Permissions) :
    ((following config flips expander recent).format name raw perms).value
      = config.rendered expander name raw perms := by
  cases name <;> rfl

variable [DecidableEq K]

open StoreRequest in
theorem after_step_following (config : Config) (flips : Nat) (expander : Option Expander)
    (recent : RecentMessages K) (request : ChatRequest K) :
    ((following config flips expander recent).step request).after
      = following (ChatRequest.lastConfig config [request]) (ChatRequest.flips flips [request])
          expander (run RecentMessages.answer recent request.stored).2 := by
  rw [after_step]
  cases request with
  | flipDebug =>
      refine congrArg (fun debug => Formatter.mk { config.settings with debug } _ _ _) ?_
      exact (Function.iterate_succ_apply' not flips config.settings.debug).symm
  | _ => rfl

open StoreRequest in
/-- Whatever was asked, the formatter is the one of the last configuration. -/
theorem afterAll_following (requests : List (ChatRequest K)) (config : Config) (flips : Nat)
    (expander : Option Expander) (recent : RecentMessages K) :
    (following config flips expander recent).afterAll requests
      = following (ChatRequest.lastConfig config requests) (ChatRequest.flips flips requests)
          expander (run RecentMessages.answer recent (requests.flatMap ChatRequest.stored)).2 := by
  induction requests generalizing config flips recent with
  | nil => rfl
  | cons request rest ih =>
      rw [afterAll, after_step_following, ih, ← ChatRequest.lastConfig_cons,
        ← ChatRequest.flips_cons, List.flatMap_cons, run_append]

/-- At every point of a run a formatter follows the last configuration it was given.

Its templates are the snapshot of that configuration's.  Its switches are that
configuration's, the debug switch flipped once for each flip since, and a flip answers with
where it leaves the switch.  What it renders, be it a message remembered, given or made up,
is what a renderer for that configuration alone renders; a message that is not there counts
as an empty one.  Its store is made by the requests to it alone, so that neither rendering nor
a new configuration changes it. -/
theorem follows_last_configuration (config : Config) (expander : Option Expander)
    (recent : RecentMessages K) (history : List (ChatRequest K)) :
    let f := (ofConfig config expander recent).value.afterAll history
    let current := ChatRequest.lastConfig config history
    f.snapshot = (Snapshot.build current.templates).value
      ∧ f.settings.legacyMixing = current.settings.legacyMixing
      ∧ f.settings.debug = not^[ChatRequest.flips 0 history] current.settings.debug
      ∧ (f.step .flipDebug).answer = .flag (f.step .flipDebug).after.settings.debug
      ∧ (∀ sender name perms, (f.step (.renderLatest sender name perms)).answer
          = .tree (current.rendered expander name (some ((f.recent.get? sender).getD [])) perms))
      ∧ (∀ name raw perms, (f.step (.format name raw perms)).answer
          = .tree (current.rendered expander name raw perms))
      ∧ (∀ name perms sample, (f.step (.preview name perms sample)).answer
          = .tree (current.rendered expander name (some sample) perms))
      ∧ (∀ name perms, current.rendered expander name none perms
          = current.rendered expander name (some []) perms)
      ∧ f.recent = (StoreRequest.run RecentMessages.answer recent
          (history.flatMap ChatRequest.stored)).2
      ∧ ∀ request, (f.step request).after.recent
          = (StoreRequest.run RecentMessages.answer f.recent request.stored).2 := by
  intro f current
  have hf : f = following current (ChatRequest.flips 0 history) expander
      (StoreRequest.run RecentMessages.answer recent (history.flatMap ChatRequest.stored)).2 := by
    show (ofConfig config expander recent).value.afterAll history = _
    rw [value_ofConfig, afterAll_following]
  have hformat : ∀ name raw perms, (f.format name raw perms).value
      = current.rendered expander name raw perms := by
    intro name raw perms
    rw [hf, value_format_following]
  refine ⟨congrArg Formatter.snapshot hf, congrArg (·.settings.legacyMixing) hf,
    congrArg (·.settings.debug) hf, rfl, fun sender name perms => ?_, fun name raw perms => ?_,
    fun name perms sample => ?_, current.rendered_none expander, congrArg Formatter.recent hf,
    f.recent_step⟩
  · exact congrArg ChatAnswer.tree (hformat name _ perms)
  · exact congrArg ChatAnswer.tree (hformat name raw perms)
  · exact congrArg ChatAnswer.tree (hformat name (some sample) perms)

end Formatter

end StyledChat
