import Mathlib.Tactic.Common
import Mathlib.Algebra.BigOperators.Group.Finset.Basic
import StreamDelay.Rtmp.Chunk
import StreamDelay.Foundations.Machine

/-! # The chunk format

What a sender may write, told from its side: on each chunk stream it sends one message after the
other, cut into chunks; a header leaves out what the one before it on the stream said; chunks of
different streams come in any order. Nothing here looks at the decoder.
-/

namespace StreamDelay.Rtmp

open Foundations

instance neZero_four : NeZero 4 := ⟨by decide⟩

/-- The `k` bytes of a number, the high ones first. -/
def bigEndian (k v : ℕ) : Bytes := ((List.range k).map fun i => UInt8.ofNat (v / 256 ^ i)).reverse

/-- The `k` bytes of a number, the low ones first. -/
def littleEndian (k v : ℕ) : Bytes := (List.range k).map fun i => .ofNat (v / 256 ^ i)

/-- A chunk stream as its sender sees it. -/
structure Lane where
  /-- The last message started on it. -/
  message : Message
  /-- The timestamp delta its header left. -/
  delta : UInt32
  /-- How many bytes of the message have been sent. -/
  sent : ℕ

namespace Lane

/-- Bytes sent of a message that is not finished. -/
def unfinished (l : Lane) : ℕ := if l.sent < l.message.payload.length then l.sent else 0

/-- The delta does not fit the timestamp field of a header. -/
def extended (l : Lane) : Bool := EXTENDED ≤ l.delta.toNat

end Lane

/-- What a sender writes next. -/
inductive Sending where
  /-- The first chunk of a message, with a header of format 0 to 3. -/
  | start (fmt : Fin 4) (wide : Bool) (m : Message)
  /-- The next chunk of the message being sent on a chunk stream. -/
  | next (wide : Bool) (csid : ℕ)
deriving DecidableEq

def Sending.csid : Sending → ℕ
  | start _ _ m => m.csid
  | next _ csid => csid

/-- A basic header. Ids from 64 to 319 may take two bytes or three. -/
def basicBytes (fmt : ℕ) (wide : Bool) (csid : ℕ) : Bytes :=
  if csid < 64 then [.ofNat (fmt * 64 + csid)]
  else if csid < 320 ∧ wide = false then [.ofNat (fmt * 64), .ofNat (csid - 64)]
  else [.ofNat (fmt * 64 + 1), .ofNat ((csid - 64) % 256), .ofNat ((csid - 64) / 256)]

/-- The extended timestamp of a delta that needs one. -/
def extension (delta : UInt32) : Bytes :=
  if EXTENDED ≤ delta.toNat then bigEndian 4 delta.toNat else []

/-- The message header of the first chunk of a message. -/
def messageHeader (fmt : Fin 4) (delta : UInt32) (m : Message) : Bytes :=
  (if fmt.val ≤ 2 then bigEndian 3 (min delta.toNat EXTENDED) else []) ++
  (if fmt.val ≤ 1 then bigEndian 3 m.payload.length ++ [m.typeId] else []) ++
  (if fmt.val = 0 then littleEndian 4 m.streamId.toNat else [])

/-- The chunk streams used so far. -/
abbrev Lanes := ℕ → Option Lane

namespace Lanes

/-- No chunk stream has been used. -/
def unused : Lanes := fun _ => none

/-- Bytes sent of messages that are not finished, on some chunk streams. -/
def held (ids : Finset ℕ) (lanes : Lanes) : ℕ := ∑ csid ∈ ids, ((lanes csid).map Lane.unfinished).getD 0

/-- The timestamp delta the first chunk of a message leaves: a full header's is its timestamp, and an
empty header's the one before it. -/
def delta (lanes : Lanes) (fmt : Fin 4) (m : Message) : UInt32 :=
  match lanes m.csid with
  | none => m.timestamp
  | some l =>
    if fmt.val = 0 then m.timestamp
    else if fmt.val ≤ 2 then m.timestamp - l.message.timestamp
    else l.delta

/-- A header may leave out only what the one before it on the stream said. -/
def Fits (l : Lane) (fmt : Fin 4) (m : Message) : Prop :=
  (1 ≤ fmt.val → m.streamId = l.message.streamId) ∧
  (2 ≤ fmt.val → m.payload.length = l.message.payload.length ∧ m.typeId = l.message.typeId) ∧
  (3 ≤ fmt.val → m.timestamp = l.message.timestamp + l.delta)

instance (l : Lane) (fmt : Fin 4) (m : Message) : Decidable (Fits l fmt m) :=
  inferInstanceAs (Decidable (_ ∧ _ ∧ _))

/-- What may be written next: only a finished message is followed by another. -/
def Legal (lanes : Lanes) : Sending → Prop
  | .start fmt _ m =>
    (2 ≤ m.csid ∧ m.csid ≤ 65599) ∧ m.payload.length < 2 ^ 24 ∧
      match lanes m.csid with
      | none => fmt = 0
      | some l => l.sent = l.message.payload.length ∧ Fits l fmt m
  | .next _ csid =>
    match lanes csid with
    | none => False
    | some l => l.sent < l.message.payload.length

instance (lanes : Lanes) : ∀ s, Decidable (lanes.Legal s)
  | .start fmt _ m =>
    have : Decidable (match lanes m.csid with
        | none => fmt = 0
        | some l => l.sent = l.message.payload.length ∧ Fits l fmt m) :=
      match lanes m.csid with
      | none => inferInstanceAs (Decidable (fmt = 0))
      | some _ => inferInstanceAs (Decidable (_ ∧ _))
    inferInstanceAs (Decidable ((_ ∧ _) ∧ _ ∧ _))
  | .next _ csid =>
    match used : lanes csid with
    | none => .isFalse (by simp only [Legal, used, not_false_eq_true])
    | some l => decidable_of_iff (l.sent < l.message.payload.length) (by simp only [Legal, used])

/-- A chunk on the wire: its bytes, and the message it completes, if it does. -/
structure Wire where
  bytes : Bytes
  completed : Option Message

/-- A lane with a chunk of at most `size` bytes more sent. -/
def advance (size : ℕ) (l : Lane) : Lane :=
  { l with sent := min (l.sent + size) l.message.payload.length }

/-- The bytes of its message the next chunk of a lane has. -/
def data (size : ℕ) (l : Lane) : Bytes := (l.message.payload.drop l.sent).take size

/-- The chunk of a lane behind its header. -/
def chunk (size : ℕ) (header : Bytes) (l : Lane) : Wire where
  bytes := header ++ data size l
  completed := if l.message.payload.length ≤ l.sent + size then some l.message else none

/-- Writes a chunk: with `repeats`, continuations repeat an extended timestamp. -/
def write (size : ℕ) (repeats : Bool) (lanes : Lanes) : Sending → Lanes × List Wire
  | .start fmt wide m =>
    let delta := lanes.delta fmt m
    let l : Lane := ⟨m, delta, 0⟩
    (Function.update lanes m.csid (some (advance size l)),
      [chunk size (basicBytes fmt.val wide m.csid ++ messageHeader fmt delta m ++ extension delta) l])
  | .next wide csid =>
    match lanes csid with
    | none => (lanes, [])
    | some l =>
      (Function.update lanes csid (some (advance size l)),
        [chunk size (basicBytes 3 wide csid ++ if repeats then extension l.delta else []) l])

/-- The bytes of a sequence of chunks. -/
def stream (size : ℕ) (repeats : Bool) (lanes : Lanes) (sendings : List Sending) : Bytes :=
  (Machine.outputs (write size repeats) lanes sendings).flatMap Wire.bytes

/-- The messages a sequence of chunks completes, in order of completion. -/
def messages (size : ℕ) (repeats : Bool) (lanes : Lanes) (sendings : List Sending) : List Message :=
  (Machine.outputs (write size repeats) lanes sendings).filterMap Wire.completed

/-- The lane whose message a chunk continues. -/
def continued? (lanes : Lanes) : Sending → Option Lane
  | .start .. => none
  | .next _ csid => lanes csid

/-- The bytes of its message the next chunk has. -/
def load (size : ℕ) (lanes : Lanes) : Sending → ℕ
  | .start _ _ m => min size m.payload.length
  | .next _ csid => ((lanes csid).map fun l => min size (l.message.payload.length - l.sent)).getD 0

/-- What may be written next, when all chunk streams are `ids`: messages have less than 64 MiB
unfinished at any time until the chunk's last byte, which may finish its own. -/
def Allowed (size : ℕ) (ids : Finset ℕ) (lanes : Lanes) (s : Sending) : Prop :=
  lanes.Legal s ∧ s.csid ∈ ids ∧ lanes.held ids + (lanes.load size s - 1) < MAX_PENDING_BYTES

instance (size : ℕ) (ids : Finset ℕ) (lanes : Lanes) (s : Sending) : Decidable (Allowed size ids lanes s) :=
  inferInstanceAs (Decidable (_ ∧ _ ∧ _))

/-- With extended timestamps not repeated: what follows the header of the first continuation of a
message that has one cannot be taken for it. -/
def Unmistakable (size : ℕ) : Lanes → List Sending → Prop
  | _, [] => True
  | lanes, s :: rest =>
    if (lanes.continued? s).any Lane.extended then
      ∀ l ∈ lanes.continued? s,
        let following := data size l ++ stream size false (write size false lanes s).1 rest
        4 ≤ following.length ∧ following.take 4 ≠ bigEndian 4 l.delta.toNat
    else Unmistakable size (write size false lanes s).1 rest

instance (size : ℕ) : ∀ (lanes : Lanes) (sendings : List Sending),
    Decidable (Unmistakable size lanes sendings)
  | _, [] => .isTrue trivial
  | lanes, s :: rest =>
    have : Decidable (Unmistakable size (write size false lanes s).1 rest) := instDecidableUnmistakable ..
    inferInstanceAs (Decidable (if (lanes.continued? s).any Lane.extended then
      ∀ l ∈ lanes.continued? s,
        4 ≤ (data size l ++ stream size false (write size false lanes s).1 rest).length ∧
          (data size l ++ stream size false (write size false lanes s).1 rest).take 4 ≠
            bigEndian 4 l.delta.toNat
      else Unmistakable size (write size false lanes s).1 rest))

end Lanes

end StreamDelay.Rtmp
