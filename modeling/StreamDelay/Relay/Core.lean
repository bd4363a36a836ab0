import Mathlib.Tactic.Common
import StreamDelay.Engine.Run
import StreamDelay.Relay.Lifecycle

/-! # The core of the relay

The task that owns the engine and the lifecycle: it feeds them what happens, tells the lifecycle what
it needs to know about the buffer, and carries out the effects the lifecycle asks for. Encoder
connections other than the publisher's are left out: nothing they send reaches the engine. How much is
queued for the destination is the connection's to say, and comes with the events that depend on it.
-/

namespace StreamDelay

open Flv (Bytes)
open Foundations

/-- `no_replay`: the mode of a dump that must not show anything again. -/
def noReplay : DelayMode := .mask

/-- A dump waiting for the connection to say what the destination has. -/
structure PendingDump where
  mode : DelayMode
  cover : Bool
deriving DecidableEq, Repr

structure Core where
  engine : Engine
  life : Lifecycle
  /-- A destination is set up. -/
  destination : Bool
  /-- An encoder publishes. -/
  publisher : Bool
  dump : Option PendingDump

/-- What happens to the core. -/
inductive CoreEvent where
  /-- An encoder's publish, accepted: one there already has gone silent, and is taken over from. -/
  | ingestPublish (now : ℕ) (backlogEmpty : Bool)
  | ingestMedia (now : ℕ) (kind : Kind) (ts : ℕ) (payload : Bytes)
  | ingestMetadata (now : ℕ) (payload : Bytes)
  | ingestClosed (now : ℕ) (unpublished : Bool)
  | egressConnected (now : ℕ)
  | egressDisconnected (now : ℕ) (lastWritten : Option ℕ)
  | cutDone (now : ℕ) (delivered : Option ℕ)
  | dumpOverdue (now : ℕ)
  | command (now : ℕ) (cmd : Command)
  | setDestination (there : Bool)
  | endStream
  | endAfterAir (now : ℕ) (backlogEmpty : Bool)
  | resume
  | setKeepHistory (keep : Bool)
  | setRestoreAfterReconnect (restore : Bool)
  /-- The engine is polled for `room` bytes, then the connection managed; `settings` are there if one
  can be started. -/
  | pump (now room : ℕ) (backlogEmpty settings : Bool)
deriving DecidableEq, Repr

/-- What the core does outside. -/
inductive CoreOutput where
  | effect (e : Effect)
  | media (s : Sent)

namespace Core

def new (config : EngineConfig) (grace : ℕ) (destination : Bool) : Core :=
  ⟨.new config, .new grace, destination, false, none⟩

/-- What the lifecycle needs to know about the buffer and the destination. -/
def facts (now : ℕ) (backlogEmpty : Bool) (c : Core) : Facts where
  destination := c.destination
  hasMark := c.engine.lastSeq.isSome
  endReached := c.engine.endReached
  backlogEmpty := backlogEmpty
  drained := c.engine.drained
  hasBuffered := c.engine.hasBuffered
  outputWanted := c.engine.outputWanted now
  connected := c.engine.out.connected
  delay := c.engine.effectiveDelay

/-- What an effect does to the engine. -/
def applyEffect (e : Engine) : Effect → Engine
  | .discard => e.discard
  | .markEnd => (e.step .endAfter).1
  | .cancelEnd => e.cancelEnd
  | .restartAfterEnd => e.restartAfterEnd
  | .stopEgress | .abortEgress | .explain _ => e

/-- Carries out what the lifecycle asked for. -/
def apply (decided : Lifecycle × List Effect) (c : Core) : Core × List CoreOutput :=
  ({ c with life := decided.1, engine := decided.2.foldl applyEffect c.engine },
    decided.2.map .effect)

def onEngine (op : Op) (c : Core) : Core × List CoreOutput :=
  ({ c with engine := (c.engine.step op).1 }, (c.engine.step op).2.map .media)

/-- Completes a dump once the connection has answered. -/
def finishDump (now : ℕ) (delivered : Option ℕ) (overdue : Bool) (c : Core) : Core × List CoreOutput :=
  match c.dump with
  | none => (c, [])
  | some pending =>
    let mode := if c.engine.out.connected && !overdue then pending.mode else noReplay
    { c with dump := none }.onEngine (.dumpAfter now delivered mode pending.cover)

/-- A delay command. A dump while a broadcast is on waits for the connection. -/
def control (now : ℕ) (cmd : Command) (c : Core) : Core × List CoreOutput :=
  match cmd with
  | .dump mode cover =>
    if c.engine.canDump && c.life.egressOn then
      ({ c with dump := c.dump.orElse fun _ => some ⟨mode, cover⟩ }, [])
    else
      let mode := if c.engine.out.connected then mode else noReplay
      c.onEngine (.command now (.dump mode cover))
  | cmd => c.onEngine (.command now cmd)

/-- An encoder's publish is accepted. An end mark goes after the previous stream's last message. -/
def accept (now : ℕ) (backlogEmpty : Bool) (c : Core) : Core × List CoreOutput :=
  let (next, out) := c.apply (c.life.publishing now c.publisher (c.facts now backlogEmpty))
  let engine := if c.publisher then next.engine.ingestEnd now else next.engine
  ({ next with engine := engine.ingestStart now, publisher := true }, out)

/-- Runs the engine, forwards due messages and manages the connection. Nothing is queued while a dump
waits for the connection. -/
def pump (now room : ℕ) (backlogEmpty settings : Bool) (c : Core) : Core × List CoreOutput :=
  let (polled, media) := c.onEngine (.pollBudget now (if c.dump.isSome then 0 else room))
  let (next, out) := polled.apply
    (polled.life.manageEgress now (polled.facts now backlogEmpty) settings)
  (next, media ++ out)

def step (c : Core) : CoreEvent → Core × List CoreOutput
  | .ingestPublish now backlogEmpty => c.accept now backlogEmpty
  | .ingestMedia now kind ts payload =>
    if c.publisher then c.onEngine (.ingest now kind ts payload) else (c, [])
  | .ingestMetadata now payload =>
    if c.publisher then c.onEngine (.ingestMetadata now payload) else (c, [])
  | .ingestClosed now unpublished =>
    if c.publisher then
      { c with publisher := false, life := c.life.encoderLeft now unpublished }.onEngine (.ingestEnd now)
    else (c, [])
  | .egressConnected now => c.onEngine (.outputConnected now)
  | .egressDisconnected now lastWritten => c.onEngine (.outputDisconnected now lastWritten)
  | .cutDone now delivered => c.finishDump now delivered false
  | .dumpOverdue now => c.finishDump now none true
  | .command now cmd => c.control now cmd
  | .setDestination there => { c with destination := there }.apply c.life.destinationChanged
  | .endStream => c.apply c.life.endNow
  | .endAfterAir now backlogEmpty => c.apply (c.life.endAfterAir now (c.facts now backlogEmpty))
  | .resume => c.apply c.life.resume
  | .setKeepHistory keep => c.onEngine (.setKeepHistory keep)
  | .setRestoreAfterReconnect restore => c.onEngine (.setRestoreAfterReconnect restore)
  | .pump now room backlogEmpty settings => c.pump now room backlogEmpty settings

/-- The core after a sequence of events. -/
abbrev after (c : Core) (events : List CoreEvent) : Core := Machine.after step c events

end Core

end StreamDelay
