/-
The formatter: what a server keeps to format its chat.

A message is remembered when it arrives and rendered afterwards, once for each
viewer.  Switches and templates come from one configuration and change together;
the remembered messages belong to the senders and outlive every change of
configuration.  `K` identifies a sender.
-/
import StyledChat.Chat.Config
import StyledChat.Chat.RecentMessages
import StyledChat.Chat.Render

namespace StyledChat

/-! ## What a formatter reports -/

inductive ChatEvent (K : Type) where
  | diagnostic (d : Diagnostic)
  /-- A message arrived; `processed` is the markup it will be read as. -/
  | messageReceived (sender : K) (raw processed : Text) (mixing : Bool)
  /-- A sender's message is about to be rendered; `cached` says whether there is
  one. -/
  | rendering (sender : K) (cached : Bool)
  | reloaded (templates : Nat) (settings : Settings)
deriving DecidableEq, Repr

/-- The written form of an event, given that of a sender. -/
def ChatEvent.report {K : Type} (sender : K → Text) : ChatEvent K → Report
  | diagnostic d => d.report
  | messageReceived k raw processed mixing =>
    ⟨.info, "chat message received".toList,
      [("sender".toList, .text (sender k)), ("original".toList, .text raw),
       ("processed".toList, .text processed), ("legacy_mixing".toList, .flag mixing)]⟩
  | rendering k cached =>
    ⟨.info, "rendering chat message".toList,
      [("sender".toList, .text (sender k)), ("cached".toList, .flag cached)]⟩
  | reloaded templates settings =>
    ⟨.info, "chat configuration reloaded".toList,
      [("formats".toList, .count templates), ("debug".toList, .flag settings.debug),
       ("legacy_mixing".toList, .flag settings.legacyMixing)]⟩

/-- The channel on which messages are reported one by one. -/
def debugChannel : Text := "nebo::debug".toList

/-- The channel of an event, where it has one of its own. -/
def ChatEvent.channel? {K : Type} : ChatEvent K → Option Text
  | messageReceived .. | rendering .. => some debugChannel
  | diagnostic _ | reloaded .. => none

/-! ## The formatter -/

structure Formatter (K : Type) where
  settings : Settings
  snapshot : Snapshot
  /-- The hook run over the templates of players. -/
  expander : Option Expander := none
  recent : RecentMessages K

namespace Formatter

variable {K : Type} [DecidableEq K]

/-- A formatter for a configuration that remembers no message yet. -/
def ofConfig (config : Config) (expander : Option Expander)
    (recent : RecentMessages K) : Logged (ChatEvent K) (Formatter K) := do
  let snapshot ← (Snapshot.build config.templates).mapLog .diagnostic
  return { settings := config.settings, snapshot, expander, recent }

/-- What messages are rendered against at present. -/
def renderer (f : Formatter K) : Renderer := ⟨f.snapshot, f.expander⟩

/-- Remembers a message as the latest of its sender. -/
def handle (f : Formatter K) (sender : K) (raw : Text) : Logged (ChatEvent K) (Formatter K) := do
  let mixing := f.settings.legacyMixing
  Logged.reportIf f.settings.debug
    (.messageReceived sender raw (preparedMarkup raw mixing) mixing)
  return { f with recent := f.recent.put sender raw }

/-- Renders a message that need not be remembered. -/
def format (f : Formatter K) (name : Option Text) (raw : Option Text) (perms : Permissions) :
    Logged (ChatEvent K) Component :=
  (f.renderer.render name raw perms f.settings.legacyMixing).mapLog .diagnostic

/-- Renders the latest message of a sender for one viewer.  Nothing remembered
counts as an empty message. -/
def renderLatest (f : Formatter K) (sender : K) (name : Option Text) (perms : Permissions) :
    Logged (ChatEvent K) Component := do
  let raw := f.recent.get? sender
  Logged.reportIf f.settings.debug (.rendering sender raw.isSome)
  f.format name (some (raw.getD [])) perms

/-- How a sample would look for somebody with these permissions, sent under a
name or by the console. -/
def preview (f : Formatter K) (name : Option Text) (perms : Permissions) (sample : Text) :
    Logged (ChatEvent K) Component :=
  f.format name (some sample) perms

/-- Forgets the message of a sender who left, and says whether there was one. -/
def remove (f : Formatter K) (sender : K) : Bool × Formatter K :=
  let (text, recent) := f.recent.remove sender
  (text.isSome, { f with recent })

/-- Flips the debug switch, and says where it stands now. -/
def flipDebug (f : Formatter K) : Bool × Formatter K :=
  let debug := !f.settings.debug
  (debug, { f with settings := { f.settings with debug } })

/-- Takes over another configuration.  What is remembered stays. -/
def reload (f : Formatter K) (config : Config) : Logged (ChatEvent K) (Formatter K) := do
  let next ← ofConfig config f.expander f.recent
  Logged.report (.reloaded next.snapshot.size next.settings)
  return next

end Formatter

end StyledChat
