import Mathlib.Tactic.Common
import StreamDelay.Engine.Poll
import StreamDelay.Foundations.Machine

/-! # Runs of the engine

The public operations of the engine as one labeled transition function, and what a sequence of them
sends.
-/

namespace StreamDelay

open Flv (Bytes)
open Foundations

/-- An operation on the engine, with the time of the call where it takes one. -/
inductive Op where
  | ingestStart (now : ℕ)
  | ingestEnd (now : ℕ)
  | ingestMetadata (now : ℕ) (payload : Bytes)
  | ingest (now : ℕ) (kind : Kind) (ts : ℕ) (payload : Bytes)
  | outputConnected (now : ℕ)
  | outputDisconnected (now : ℕ) (lastWritten : Option ℕ)
  | unsend (taken : Option ℕ)
  | dumpAfter (now : ℕ) (taken : Option ℕ) (mode : DelayMode) (cover : Bool)
  | outputReset
  | discard
  /-- `end_after(last_seq())`, if anything was received. -/
  | endAfter
  | cancelEnd
  | restartAfterEnd
  | command (now : ℕ) (cmd : Command)
  | setKeepHistory (keep : Bool)
  | setRestoreAfterReconnect (restore : Bool)
  | pollBudget (now maxBytes : ℕ)
deriving DecidableEq, Repr

/-- The time of a call that takes one. -/
def Op.now? : Op → Option ℕ
  | .ingestStart now | .ingestEnd now | .ingestMetadata now _ | .ingest now .. => some now
  | .outputConnected now | .outputDisconnected now _ | .dumpAfter now .. => some now
  | .command now _ | .pollBudget now _ => some now
  | _ => none

namespace Engine

def setKeepHistory (keep : Bool) (e : Engine) : Engine :=
  { e with config := { e.config with keepHistory := keep } }

def setRestoreAfterReconnect (restore : Bool) (e : Engine) : Engine :=
  { e with config := { e.config with restoreAfterReconnect := restore } }

/-- One operation: the engine after it, and what it sent. -/
def step (e : Engine) : Op → Engine × List Sent
  | .ingestStart now => (e.ingestStart now, [])
  | .ingestEnd now => (e.ingestEnd now, [])
  | .ingestMetadata now payload => (e.ingestMetadata now payload, [])
  | .ingest now kind ts payload => (e.ingest now kind ts payload, [])
  | .outputConnected now => (e.outputConnected now, [])
  | .outputDisconnected now lastWritten => (e.outputDisconnected now lastWritten, [])
  | .unsend taken => (e.unsend taken, [])
  | .dumpAfter now taken mode cover => ((e.dumpAfter now taken mode cover).1, [])
  | .outputReset => (e.outputReset, [])
  | .discard => (e.discard, [])
  | .endAfter => (e.lastSeq.elim e fun seq => e.endAfter seq, [])
  | .cancelEnd => (e.cancelEnd, [])
  | .restartAfterEnd => (e.restartAfterEnd, [])
  | .command now cmd => ((e.command now cmd).1, [])
  | .setKeepHistory keep => (e.setKeepHistory keep, [])
  | .setRestoreAfterReconnect restore => (e.setRestoreAfterReconnect restore, [])
  | .pollBudget now maxBytes => ((e.pollBudget now maxBytes).1, (e.pollBudget now maxBytes).2.1)

/-- The engine after a sequence of operations. -/
abbrev after (e : Engine) (ops : List Op) : Engine := Machine.after step e ops

/-- What a sequence of operations sends. -/
abbrev sends (e : Engine) (ops : List Op) : List Sent := Machine.outputs step e ops

/-! ## Operations to try the engine with -/

/-- The payload of an AVC keyframe, as short as one can be. -/
def keyframe : Bytes := [0x17, 1, 0, 0, 0]

/-- A delay of two seconds is set before the start, and waited out. -/
def waiting : List Op :=
  [.ingestStart 0, .outputConnected 0, .command 0 (.setDelay 2000 .rewind),
    .ingest 0 .video 0 keyframe, .pollBudget (2 * SEC) 1000]

/-- The output is live, and asked to build up a delay of ten seconds under the slate. -/
def masking : List Op :=
  [.ingestStart 0, .outputConnected 0, .ingest 0 .video 0 keyframe, .pollBudget 0 1000,
    .command 0 (.setDelay 10000 .mask)]

end Engine

end StreamDelay
