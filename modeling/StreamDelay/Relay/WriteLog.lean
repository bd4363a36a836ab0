import Mathlib.Algebra.GroupWithZero.Nat
import Mathlib.Data.Nat.Notation
import Mathlib.Tactic.Common

/-! # What one connection wrote

The log of the egress keeps, for each batch of media written, the last message in it and how many bytes had
been written once it was. What else is written on the connection, answers of the protocol and a write that is
broken off, is not logged.
-/

namespace StreamDelay.Relay

/-- How far back the log reaches, in bytes: past what the OS may hold. -/
def WRITTEN_KEPT : ℕ := 32 * 1024 * 1024

structure WriteLog where
  total : ℕ
  /-- The last message of each batch, and the total after it. -/
  batches : List (ℕ × ℕ)
deriving DecidableEq, Repr

namespace WriteLog

def new : WriteLog := ⟨0, []⟩

/-- The loop over the front: batches that ended further back than the log reaches are dropped. -/
def forget (log : WriteLog) : WriteLog :=
  { log with batches := log.batches.dropWhile fun b => WRITTEN_KEPT < log.total - b.2 }

def written (bytes : ℕ) (lastSeq : Option ℕ) (log : WriteLog) : WriteLog :=
  let total := log.total + bytes
  forget ⟨total, log.batches ++ (lastSeq.map fun seq => (seq, total)).toList⟩

/-- The last message surely sent, if at most `unsent` of what was written may still be waiting. -/
def surelySent (unsent : ℕ) (log : WriteLog) : Option ℕ :=
  if log.total < unsent then none
  else (log.batches.reverse.find? fun b => b.2 ≤ log.total - unsent).map Prod.fst

end WriteLog

/-- Part of what is written at once: the bytes of a message with its number, or of something without one. -/
structure Piece where
  seq : Option ℕ
  bytes : ℕ
deriving DecidableEq, Repr

/-- The bytes of the pieces together. -/
def pieceBytes (pieces : List Piece) : ℕ := (pieces.map Piece.bytes).sum

/-- `batch_last`: the number of the last message that has one. -/
def batchLast (pieces : List Piece) : Option ℕ := (pieces.filterMap Piece.seq).getLast?

/-- A write that went through. -/
inductive Write where
  | media (batch : List Piece)
  | protocol (bytes : ℕ)
deriving DecidableEq, Repr

namespace Write

def bytes : Write → ℕ
  | media batch => pieceBytes batch
  | protocol bytes => bytes

/-- What `publish` notes of it. -/
def note (log : WriteLog) : Write → WriteLog
  | media batch => log.written (pieceBytes batch) (batchLast batch)
  | protocol _ => log

end Write

/-- The bytes of the stream so far. -/
def streamBytes (writes : List Write) : ℕ := (writes.map Write.bytes).sum

/-- The log of a connection after these writes. -/
def logOf (writes : List Write) : WriteLog := writes.foldl Write.note .new

end StreamDelay.Relay
