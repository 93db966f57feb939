/-
Requests to a formatter, one after the other.

A server uses its formatter from events: messages arrive, are rendered for viewers and are
forgotten, while the debug switch is flipped and configurations are loaded.  The store of
messages is in reach too, so a request may also go straight to it.  `Formatter.steps` is a
run with everything that shows of it: for each request the answer and the reports, and the
formatter before and after.

Most requests change nothing.  What the others change is said once, part by part
(`Formatter.after_step`): every statement about a run is an induction over that equation.
-/
import StyledChat.Chat.Formatter
import StyledChat.Proofs.PutOrder

namespace StyledChat

/-- What a formatter is asked to do. -/
inductive ChatRequest (K : Type) where
  /-- A message arrives. -/
  | send (sender : K) (raw : Text)
  /-- The latest message of a sender is rendered for a viewer. -/
  | renderLatest (sender : K) (name : Option Text) (perms : Permissions)
  | format (name raw : Option Text) (perms : Permissions)
  | preview (name : Option Text) (perms : Permissions) (sample : Text)
  /-- A sender leaves. -/
  | leave (sender : K)
  | flipDebug
  | reload (config : Config)
  /-- The store is used directly. -/
  | store (request : StoreRequest K)

inductive ChatAnswer where
  | done
  | tree (c : Component)
  | flag (b : Bool)
  | text (t : Option Text)

namespace ChatRequest

variable {K : Type}

/-- What a request asks of the store that changes it. -/
def stored : ChatRequest K → List (StoreRequest K)
  | send sender raw => [.put sender raw]
  | leave sender => [.remove sender]
  | store request => [request]
  | _ => []

/-- The switches after a request. -/
def switched (settings : Settings) : ChatRequest K → Settings
  | flipDebug => { settings with debug := !settings.debug }
  | reload config => config.settings
  | _ => settings

/-- The templates after a request. -/
def published (snapshot : Snapshot) : ChatRequest K → Snapshot
  | reload config => (Snapshot.build config.templates).value
  | _ => snapshot

end ChatRequest

/-! ## Runs -/

/-- One request in a run, and what came of it. -/
structure ChatStep (K : Type) where
  request : ChatRequest K
  before : Formatter K
  answer : ChatAnswer
  log : List (ChatEvent K)
  after : Formatter K

namespace Formatter

variable {K : Type} [DecidableEq K]

/-- What a formatter answers, and the formatter afterwards. -/
def answer (f : Formatter K) : ChatRequest K → Logged (ChatEvent K) (ChatAnswer × Formatter K)
  | .send sender raw => do return (.done, ← f.handle sender raw)
  | .renderLatest sender name perms => do return (.tree (← f.renderLatest sender name perms), f)
  | .format name raw perms => do return (.tree (← f.format name raw perms), f)
  | .preview name perms sample => do return (.tree (← f.preview name perms sample), f)
  | .leave sender => return (.flag (f.remove sender).1, (f.remove sender).2)
  | .flipDebug => return (.flag f.flipDebug.1, f.flipDebug.2)
  | .reload config => do return (.done, ← f.reload config)
  | .store request =>
    return (.text (f.recent.answer request).1, { f with recent := (f.recent.answer request).2 })

def step (f : Formatter K) (request : ChatRequest K) : ChatStep K :=
  let answered := f.answer request
  { request, before := f, answer := answered.value.1, log := answered.log,
    after := answered.value.2 }

/-- The formatter after some requests. -/
def afterAll (f : Formatter K) : List (ChatRequest K) → Formatter K
  | [] => f
  | request :: rest => (f.step request).after.afterAll rest

/-- The steps that some requests take. -/
def steps (f : Formatter K) : List (ChatRequest K) → List (ChatStep K)
  | [] => []
  | request :: rest => f.step request :: (f.step request).after.steps rest

/-- What a request changes. -/
theorem after_step (f : Formatter K) (request : ChatRequest K) : (f.step request).after =
    { settings := request.switched f.settings
      snapshot := request.published f.snapshot
      expander := f.expander
      recent := (StoreRequest.run RecentMessages.answer f.recent request.stored).2 } := by
  cases request <;> rfl

theorem recent_step (f : Formatter K) (request : ChatRequest K) : (f.step request).after.recent
    = (StoreRequest.run RecentMessages.answer f.recent request.stored).2 := by
  rw [after_step]

/-- The store after some requests is the one that the requests to it make. -/
theorem recent_afterAll (f : Formatter K) (requests : List (ChatRequest K)) :
    (f.afterAll requests).recent = (StoreRequest.run RecentMessages.answer f.recent
      (requests.flatMap ChatRequest.stored)).2 := by
  induction requests generalizing f with
  | nil => rfl
  | cons request rest ih =>
      rw [afterAll, ih, recent_step, List.flatMap_cons, StoreRequest.run_append]

/-- Every step of a run is one from the formatter before it. -/
theorem eq_step_of_mem_steps {requests : List (ChatRequest K)} {f : Formatter K} {s : ChatStep K}
    (h : s ∈ f.steps requests) : s = s.before.step s.request := by
  induction requests generalizing f with
  | nil => exact absurd h List.not_mem_nil
  | cons request rest ih =>
      rcases List.mem_cons.mp h with rfl | hrest
      · rfl
      · exact ih hrest

end Formatter

end StyledChat
